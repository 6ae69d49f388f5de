import ScriptLoader.Proofs.Exploration
import ScriptLoader.Proofs.Loading

/-!
# A load of a project comes to its end

A loader that loads a file of a whole project completes one lookup after the other, whichever the
platform picks, until there are none.

## Why it ends

A key is marked when it is looked up, and only keys that occur are. So the number of keys that are
not marked yet, together with the number of lookups under way, is finite. It goes down by one with
each lookup that completes; visiting the references of the unit that was found leaves it the same.
-/

namespace ScriptLoader

variable {ω χ : Type}

namespace Loader

/-- No unit has yet to be asked for. -/
def AllAsked (l : Loader ω χ) : Prop := ∀ ⦃id s⦄, l.standing? id = some s → s.status ≠ .unloaded

variable {l : Loader ω χ}

theorem AllAsked.close (h : l.AllAsked) (wave : Wave) : (l.close wave).AllAsked := by
  intro id s' hs
  rw [standing?_close, Option.map_eq_some_iff] at hs
  obtain ⟨s, hs, rfl⟩ := hs
  split
  · simp
  · exact h hs

theorem modifyUnit_of_same {id : UnitId} {change : LoadedUnit ω χ → LoadedUnit ω χ}
    (h : ∀ unit, l.unit? id = some unit → change unit = unit) : l.modifyUnit id change = l := by
  have hunits : l.units.modify id change = l.units := by
    apply List.ext_getElem?
    intro other
    rw [List.getElem?_modify]
    by_cases hid : id = other
    · subst hid
      cases hunit : l.units[id]? with
      | none => rfl
      | some unit => simp [h unit hunit]
    · simp [hid]
  rw [modifyUnit, hunits]

end Loader

namespace Machine

variable {p : Platform ω χ} {base : List (Frame ω χ)}

/-- When no callbacks wait, the closing of a wave leaves the loader as it is. -/
theorem runs_draining {l : Loader ω χ} (h : ∀ {id s}, l.standing? id = some s → s.callbacks = [])
    (value : Value) (id : UnitId) (rest : List UnitId) :
    Runs p [] ⟨l, .returning (.ok value), .draining id [] rest :: base⟩
      ⟨l, .returning (.ok .undefined), base⟩ := by
  induction rest generalizing value id with
  | nil => exact runs_of_frame rfl rfl
  | cons next rest ih =>
    have hwaiting : ((l.unit? next).map (·.callbacks)).getD [] = [] := by
      cases hunit : l.unit? next with
      | none => rfl
      | some unit => exact h (Loader.standing?_of_unit? hunit)
    have hsame : (l.modifyUnit next fun unit ↦ { unit with callbacks := [] }) = l := by
      refine Loader.modifyUnit_of_same fun unit hunit ↦ ?_
      have hnone : unit.callbacks = [] := h (Loader.standing?_of_unit? hunit)
      rw [← hnone]
    refine (runs_of_frame rfl ?_).trans (ih .undefined next)
    rw [step]
    simp only [resume, continueDraining, update, push, done, give, hwaiting, hsame]

theorem runs_closeWave {m : Machine ω χ} {wave : Wave} (hwave : m.loader.wave = some wave)
    (h : ∀ {id s}, (m.loader.close wave).standing? id = some s → s.callbacks = []) :
    Runs p [] m.closeWave ⟨m.loader.close wave, .returning (.ok .undefined), m.stack⟩ := by
  rw [closeWave_eq hwave]
  rcases wave.participants with _ | ⟨id, rest⟩
  · exact .refl _
  · exact runs_draining h _ id (id :: rest)

/-- A lookup that found a file of which there is a unit goes on with the unit. -/
theorem completeLookup_found {m : Machine ω χ} {lookup : Lookup ω} {resource : Resource}
    {l : Loader ω χ} {id : UnitId} {world : ω}
    (hanswer : p.resolver.answer m.loader.world lookup.ticket = (world, .ok (some resource)))
    (hmade : ({ m.loader with world }.noteFound lookup.key (.ok (some resource))).unitOfResource p
      resource = (l, .ok id)) :
    m.completeLookup p lookup =
      { m with loader := { l with cache := l.cache.insertResult lookup.key id } }.continueSearch p
        id lookup.purpose := by
  rw [completeLookup, hanswer]
  simp only [Loader.unitOfAnswer, hmade]

end Machine

namespace Project

open Machine

variable {project : Project} {settings : Settings} {first : Url} {p : Platform ω χ}

/-- A searcher searches the references of a file that is reached. -/
structure IsSearcher (project : Project) (settings : Settings) (first url : Url)
    (searcher : Operation) : Prop where
  reached : project.Reaches settings.substitutions first url
  directory : url.directory = .ok searcher.context
  substitutions : searcher.substitutions = settings.substitutions

namespace IsSearcher

variable {url : Url} {searcher : Operation} {r : Reference}

theorem exists_request (h : project.IsSearcher settings first url searcher)
    (hwhole : project.IsWhole settings.substitutions first) (hr : r ∈ project.declared url) :
    ∃ request, searcher.request r = .ok request ∧
      project.Occurs settings.substitutions first (r.key searcher.context.text) request := by
  obtain ⟨request, url', hrequest, -⟩ := hwhole.found h.reached h.directory r hr
  refine ⟨request, ?_, url, h.reached, (mem_asks_iff h.directory).mpr ⟨r, hr, rfl, hrequest⟩⟩
  rw [← request_searcher, h.substitutions, hrequest]

end IsSearcher

namespace Service

/-! ## Visiting the references of a unit -/

/-- A loader that explores a project whose keys are given. As many keys as are said have still to be
marked or to be found. -/
structure Underway (service : project.Service settings first p) (keys : List String) (left : Nat)
    (l : Loader ω χ) : Prop where
  explores : service.Explores l
  asked : l.AllAsked
  balance : l.lookups.length + keys.length = left + l.cache.markers.length

namespace Underway

variable {service : project.Service settings first p} {keys : List String} {left : Nat}
  {l l' : Loader ω χ} {base : List (Frame ω χ)}

theorem advance (h : service.Underway keys left l) (ha : l.Advances l') (hasked : l'.AllAsked) :
    service.Underway keys left l' :=
  ⟨h.explores.advance ha, hasked, by rw [ha.lookups, ha.cache]; exact h.balance⟩

theorem enlist (h : service.Underway keys left l) {key : String} {request : Request}
    (hoccurs : project.Occurs settings.substitutions first key request)
    (hunmarked : key ∉ l.cache.markers) {lookup : Lookup ω}
    (hticket : lookup.ticket = (p.resolver.start l.world request).2) (hkey : lookup.key = key)
    (hpurpose : lookup.purpose = .wave) :
    service.Underway keys left
      ((l.ask key).enlist (p.resolver.start l.world request).1 request lookup) where
  explores := h.explores.enlist hoccurs hunmarked hticket hkey hpurpose
  asked := h.asked
  balance := by
    have hlookups : ((l.ask key).enlist (p.resolver.start l.world request).1 request
      lookup).lookups = l.lookups ++ [lookup] := rfl
    have hmarkers : ((l.ask key).enlist (p.resolver.start l.world request).1 request
      lookup).cache.markers = key :: l.cache.markers := l.cache.markers_mark hunmarked
    have hbalance := h.balance
    rw [hlookups, hmarkers, List.length_append, List.length_singleton, List.length_cons]
    omega

/-- The wave is closed if nothing is left of it. -/
theorem runs_closeWave_or_done (h : service.Underway keys left l) {wave : Wave}
    (hwave : l.wave = some wave) (control : Control ω) (closes : Prop) [Decidable closes] :
    ∃ l', Runs p [] (if closes then closeWave ⟨l, control, base⟩ else done ⟨l, control, base⟩)
        ⟨l', .returning (.ok .undefined), base⟩ ∧ service.Underway keys left l' := by
  by_cases hcloses : closes
  · rw [if_pos hcloses]
    have hclosed := h.advance (l.advances_close wave) (h.asked.close wave)
    refine ⟨l.close wave, ?_, hclosed⟩
    exact runs_closeWave (m := ⟨l, control, base⟩) hwave fun hs ↦
      (hclosed.explores.file hs).callbacks
  · rw [if_neg hcloses]
    exact ⟨l, .refl _, h⟩

theorem visit (h : service.Underway keys left l)
    (hwhole : project.IsWhole settings.substitutions first) {value : Value} {id : UnitId}
    {searcher : Operation} {r : Reference} {rest : List Reference}
    (hm : Machine.Reachable p
      ⟨l, .returning (.ok value), .dispatching id searcher (r :: rest) :: base⟩)
    {url : Url} (hsearcher : project.IsSearcher settings first url searcher)
    (hr : r ∈ project.declared url) :
    ∃ l', Runs p [] ⟨l, .returning (.ok value), .dispatching id searcher (r :: rest) :: base⟩
        ⟨l', .returning (.ok .undefined), .dispatching id searcher rest :: base⟩ ∧
      service.Underway keys left l' := by
  have hstep : step p ⟨l, .returning (.ok value), .dispatching id searcher (r :: rest) :: base⟩ =
      continueDispatching p ⟨l, .returning (.ok value), base⟩ id searcher (r :: rest) := rfl
  by_cases hmarked : r.key searcher.context.text ∈ l.cache.markers
  · -- the reference is settled at once
    obtain ⟨wave, hengaged⟩ := (hm.sound p).engaged_of_dispatching rfl (not_falls_of_ok rfl)
    have hactive : l.wave = some wave := hengaged.active
    rw [continueDispatching_marked (m := ⟨l, _, base⟩) p hactive id rest hmarked] at hstep
    have hsettled := h.advance (l.advances_settle wave) h.asked
    obtain ⟨l', hruns, hl'⟩ :=
      hsettled.runs_closeWave_or_done rfl (.returning (.ok value)) (wave.outstanding - 1 = 0)
    exact ⟨l', (runs_of_frame rfl hstep).trans hruns, hl'⟩
  · -- a lookup is started
    obtain ⟨request, hrequest, hoccurs⟩ := hsearcher.exists_request hwhole hr
    rw [continueDispatching_unmarked p _ id rest hmarked] at hstep
    rcases search_cases p (((⟨l, .returning (.ok value), base⟩ : Machine ω χ).push
        (.dispatching id searcher rest)).update (·.ask (r.key searcher.context.text)))
        searcher r ((l.unit? id).map (·.info.url)) .wave with
      ⟨other, hresult, -⟩ | ⟨-, ⟨cause, hcause, -⟩ | ⟨request', hrequest', heq⟩⟩
    -- a key that has not been marked has led nowhere
    · have hold : l.cache.result? (r.key searcher.context.text) = some other :=
        (l.cache.result?_mark _ _).symm.trans hresult
      exact absurd (h.explores.results hold).1 hmarked
    · rw [hrequest] at hcause
      cases hcause
    · rw [hrequest] at hrequest'
      cases hrequest'
      rw [heq] at hstep
      exact ⟨_, runs_of_frame rfl hstep, h.enlist hoccurs hmarked rfl rfl rfl⟩

theorem dispatch (h : service.Underway keys left l)
    (hwhole : project.IsWhole settings.substitutions first) {value : Value} {id : UnitId}
    {searcher : Operation} {rest : List Reference}
    (hm : Machine.Reachable p ⟨l, .returning (.ok value), .dispatching id searcher rest :: base⟩)
    {url : Url} (hsearcher : project.IsSearcher settings first url searcher)
    (hrest : ∀ r ∈ rest, r ∈ project.declared url) :
    ∃ l', Runs p [] ⟨l, .returning (.ok value), .dispatching id searcher rest :: base⟩
        ⟨l', .returning (.ok .undefined), base⟩ ∧ service.Underway keys left l' := by
  induction rest generalizing l value with
  | nil => exact ⟨l, runs_of_frame rfl rfl, h⟩
  | cons r rest ih =>
    obtain ⟨hr, hrest⟩ := List.forall_mem_cons.mp hrest
    obtain ⟨l₁, hvisit, h₁⟩ := h.visit hwhole hm hsearcher hr
    obtain ⟨l', hruns, hl'⟩ := ih h₁ (hvisit.reachable hm) hrest
    exact ⟨l', hvisit.trans hruns, hl'⟩

end Underway

namespace Explores

variable {service : project.Service settings first p} {keys : List String} {left : Nat}
  {l : Loader ω χ} {base : List (Frame ω χ)} {wave : Wave} {id : UnitId} {s : Standing ω}

theorem runs_join (h : service.Explores l) (hwhole : project.IsWhole settings.substitutions first)
    {control : Control ω} (hm : (join ⟨l, control, base⟩ id).Reachable p)
    (hwave : l.wave = some wave) (hs : l.standing? id = some s)
    (hothers : ∀ {other s'}, l.standing? other = some s' → s'.status = .unloaded → other = id)
    (hbalance : l.lookups.length + keys.length = left + l.cache.markers.length) :
    ∃ l', Runs p [] (join ⟨l, control, base⟩ id) ⟨l', .returning (.ok .undefined), base⟩ ∧
      service.Underway keys left l' := by
  rw [join_eq (m := ⟨l, control, base⟩) hwave hs] at hm ⊢
  have hfile := h.file hs
  have hjoined := h.advance (l.advances_enroll wave id s.dependencies)
  obtain ⟨hexplores, hcontext, hsubstitutions⟩ :=
    hjoined.operation hwhole hfile.reached hfile.directory
  have hquiet := (l.enroll wave id s.dependencies).quiet_operation .searcher s.directory
  -- the unit was the last one to be asked for, and now it waits for its references
  have hunderway : service.Underway keys left
      ((l.enroll wave id s.dependencies).operation .searcher s.directory).1 :=
    { explores := hexplores
      asked := by
        intro other s' hs' hunloaded
        rw [Loader.standing?_congr (Loader.units_operation _ _ _), Loader.standing?_enroll,
          Option.map_eq_some_iff] at hs'
        obtain ⟨s₀, hs₀, rfl⟩ := hs'
        split at hunloaded
        case isTrue => cases hunloaded
        case isFalse hne => exact hne (hothers hs₀ hunloaded).symm
      balance := by rw [hquiet.lookups, hquiet.markers]; exact hbalance }
  refine hunderway.dispatch hwhole hm ⟨hfile.reached, ?_, hsubstitutions⟩ fun r hr ↦ ?_
  · rw [hcontext]
    exact hfile.directory
  · rw [← hfile.declared]
    exact hr

theorem runs_searchFinished (h : service.Explores l)
    (hwhole : project.IsWhole settings.substitutions first) {control : Control ω}
    (hm : (searchFinished ⟨l, control, base⟩ id).Reachable p) (hwave : l.wave = some wave)
    (hs : l.standing? id = some s)
    (hothers : ∀ {other s'}, l.standing? other = some s' → s'.status = .unloaded → other = id)
    (hbalance : l.lookups.length + keys.length = left + l.cache.markers.length) :
    ∃ l', Runs p [] (searchFinished ⟨l, control, base⟩ id) ⟨l', .returning (.ok .undefined), base⟩ ∧
      service.Underway keys left l' := by
  rw [searchFinished_eq (m := ⟨l, control, base⟩) hwave hs] at hm ⊢
  have hsettled := h.advance (l.advances_settle wave)
  by_cases hunloaded : s.status = .unloaded
  · simp only [if_pos hunloaded] at hm ⊢
    exact hsettled.runs_join hwhole hm rfl hs hothers hbalance
  · simp only [if_neg hunloaded]
    have hunderway : service.Underway keys left (l.settle wave) := by
      refine ⟨hsettled, fun other s' hs' hunloaded' ↦ ?_, hbalance⟩
      have hother := hothers hs' hunloaded'
      subst hother
      have hsame : l.standing? other = some s' := hs'
      rw [hs] at hsame
      cases hsame
      exact hunloaded hunloaded'
    exact hunderway.runs_closeWave_or_done rfl control (wave.outstanding - 1 = 0)

end Explores

/-! ## Completing lookups -/

/-- A lookup that completes has led to a unit, and only this unit may be new. -/
theorem Explores.completeLookup_eq {service : project.Service settings first p} {l : Loader ω χ}
    (h : service.Explores l) (hwhole : project.IsWhole settings.substitutions first)
    (htidy : l.Tidy) {before after : List (Lookup ω)} {lookup : Lookup ω}
    (hsplit : l.lookups = before ++ lookup :: after) (control : Control ω)
    (base : List (Frame ω χ)) :
    ∃ l' id, completeLookup p ⟨{ l with lookups := before ++ after }, control, base⟩ lookup
        = searchFinished ⟨l', control, base⟩ id ∧
      service.Explores l' ∧ l'.wave = l.wave ∧ l'.lookups = before ++ after ∧
      l'.cache.markers = l.cache.markers ∧ (∃ s, l'.standing? id = some s) ∧
      ∀ {other s}, l'.standing? other = some s → other = id ∨ l.standing? other = some s := by
  obtain ⟨request, url, hoccurs, htarget, hanswer, hnoted⟩ := h.answer hwhole hsplit
  rcases hanswered : p.resolver.answer l.world lookup.ticket with ⟨world, answer⟩
  rw [hanswered] at hanswer hnoted
  cases hanswer
  generalize hnotedEq : Loader.noteFound { l with lookups := before ++ after, world := world }
    lookup.key (.ok (some ⟨url, service.contents url⟩)) = noted at hnoted
  have hnotedTidy : noted.Tidy := by
    have hleft : Loader.Tidy { l with lookups := before ++ after } :=
      htidy.congr rfl rfl rfl rfl
    exact hnotedEq ▸ hleft.noteFound world _ _
  -- the file that was found has a unit, or gets one
  obtain ⟨hexplores, id, hid, hothers⟩ := hnoted.unitOfResource (hoccurs.reaches htarget)
  obtain ⟨hquiet, hfiled⟩ := noted.unitOfResource_spec p ⟨url, service.contents url⟩
  rcases hmade : noted.unitOfResource p ⟨url, service.contents url⟩ with ⟨l₁, result⟩
  rw [hmade] at hexplores hid hothers hquiet hfiled
  cases hid
  have hunit := hfiled rfl
  obtain ⟨hpurpose, hmarked⟩ := h.lookups lookup (by simp [hsplit])
  have hmarkers : l₁.cache.markers = l.cache.markers := by
    rw [hquiet.markers, ← hnotedEq]
    rfl
  obtain ⟨s, hs, -⟩ := (hnotedTidy.quiet hquiet).unit hunit
  have hknown := hexplores.insertResult (hmarkers ▸ hmarked) hoccurs htarget hunit
  refine ⟨{ l₁ with cache := l₁.cache.insertResult lookup.key id }, id, ?_, hknown, ?_, ?_,
    hmarkers, ⟨s, hs⟩, ?_⟩
  · rw [completeLookup_found hanswered (hnotedEq ▸ hmade), hpurpose]
    rfl
  · exact hquiet.wave.trans (hnotedEq ▸ rfl)
  · exact hquiet.lookups.trans (hnotedEq ▸ rfl)
  · intro other s hs
    rcases hothers hs with hother | hold
    · exact .inl hother
    · rw [← hnotedEq] at hold
      exact .inr hold

namespace Underway

variable {service : project.Service settings first p} {keys : List String} {left : Nat}
  {l : Loader ω χ} {base : List (Frame ω χ)}

/-- The next lookup completes, and all that follows from it is done. -/
theorem complete (h : service.Underway keys (left + 1) l)
    (hwhole : project.IsWhole settings.substitutions first) {control : Control ω}
    {next : Awaited Unit → Code ω} (hm : (drive p ⟨l, control, base⟩ next).Reachable p)
    {wave : Wave} (hwave : l.wave = some wave) (htidy : l.Tidy) (hne : l.lookups ≠ []) :
    ∃ l', Runs p [] (drive p ⟨l, control, base⟩ next)
        ⟨l', .returning (.ok .undefined), .driving next :: base⟩ ∧
      service.Underway keys left l' := by
  obtain ⟨hpicked, picked, hmem, hpick⟩ := h.explores.pick hne
  rcases drive_cases p ⟨l, control, base⟩ next with
    ⟨hempty, -⟩ | ⟨-, hnone, -⟩ | ⟨world, before, lookup, after, hworld, hsplit, heq⟩
  · exact absurd hempty hne
  · exact absurd hpick (hnone picked hmem)
  · rw [hworld] at hpicked
    have htidy' : Loader.Tidy { l with world } := htidy.congr rfl rfl rfl rfl
    obtain ⟨l₁, id, hcompleted, hexplores, hwave₁, hlookups, hmarkers, ⟨s, hs⟩, hothers⟩ :=
      hpicked.completeLookup_eq hwhole htidy' hsplit control (.driving next :: base)
    have hdriven := heq.trans hcompleted
    rw [hdriven] at hm ⊢
    refine hexplores.runs_searchFinished hwhole hm (hwave₁.trans hwave) hs ?_ ?_
    · intro other s' hs' hunloaded
      rcases hothers hs' with hother | hold
      · exact hother
      · exact absurd hunloaded (h.asked hold)
    · have hbalance := h.balance
      have hsplit' : l.lookups = before ++ lookup :: after := hsplit
      rw [hsplit'] at hbalance
      rw [hlookups, hmarkers]
      simp only [List.length_append, List.length_cons] at hbalance ⊢
      omega

theorem lookups_length_le (h : service.Underway keys left l)
    (hkeys : ∀ {key request}, project.Occurs settings.substitutions first key request →
      key ∈ keys) : l.lookups.length ≤ left := by
  have hsub : l.cache.markers ⊆ keys := by
    intro key hkey
    obtain ⟨request, -, hoccurs⟩ := h.explores.exists_lookedUp hkey
    exact hkeys hoccurs
  have hle := (h.explores.once.subperm hsub).length_le
  have hbalance := h.balance
  omega

theorem runs_drive (h : service.Underway keys left l)
    (hwhole : project.IsWhole settings.substitutions first)
    (hkeys : ∀ {key request}, project.Occurs settings.substitutions first key request → key ∈ keys)
    {control : Control ω} {next : Awaited Unit → Code ω}
    (hm : (drive p ⟨l, control, []⟩ next).Reachable p) (hready : Ready l []) :
    ∃ l', Runs p [] (drive p ⟨l, control, []⟩ next) ⟨l', .running (next (.settled (.ok ⟨⟩))), []⟩ ∧
      service.Explores l' ∧ l'.AllAsked ∧ l'.lookups = [] := by
  -- the last drive finds no lookups
  have hlast : ∀ {l : Loader ω χ} {control : Control ω}, l.lookups = [] →
      drive p ⟨l, control, []⟩ next = ⟨l, .running (next (.settled (.ok ⟨⟩))), []⟩ := by
    intro l control hempty
    rw [drive, hempty]
    rfl
  -- each lookup that completes has used up one of the keys
  induction left generalizing l control with
  | zero =>
    have hempty := List.length_eq_zero_iff.mp (Nat.le_zero.mp (h.lookups_length_le hkeys))
    exact ⟨l, hlast hempty ▸ .refl _, h.explores, h.asked, hempty⟩
  | succ left ih =>
    by_cases hempty : l.lookups = []
    · exact ⟨l, hlast hempty ▸ .refl _, h.explores, h.asked, hempty⟩
    -- a lookup is under way, so there is a wave
    · obtain ⟨wave, hwave⟩ : ∃ wave, l.wave = some wave := by
        cases hwave : l.wave with
        | some wave => exact ⟨wave, rfl⟩
        | none =>
          have hbalanced := hready.balanced
          rw [Loader.Balances, hwave, Loader.waveLookups, List.countP_eq_zero] at hbalanced
          obtain ⟨lookup, hlookup⟩ := List.exists_mem_of_ne_nil _ hempty
          have himport := hbalanced.1 lookup hlookup
          rw [(h.explores.lookups lookup hlookup).1] at himport
          exact absurd rfl himport
      obtain ⟨l₁, hcompletes, h₁⟩ := h.complete hwhole hm hwave hready.tidy hempty
      have hreached := hcompletes.reachable hm
      have hready₁ : Ready l₁ [] :=
        (hreached.sound p).ready_below rfl rfl (not_falls_of_ok rfl)
      obtain ⟨l', hruns, hl'⟩ := ih h₁ (hreached.step) hready₁
      exact ⟨l', hcompletes.trans ((runs_of_frame rfl rfl).trans hruns), hl'⟩

end Underway

/-! ## The first file -/

variable {service : project.Service settings first p} {l : Loader ω χ} {url : Url}

theorem openUnit_eq (service : project.Service settings first p) (hfiled : l.cache.unit? url = none)
    (hsubstitutions : l.substitutions = settings.substitutions)
    (hawaits : service.Awaits l.world fun _ ↦ none)
    (hfirst : project.target (.resolve url settings.substitutions) = some first) :
    ∃ world awaited, service.Awaits world awaited ∧ l.openUnit p url =
      let made := Loader.unitOfResource p { l with world } ⟨first, service.contents first⟩
      (made.1, .settled made.2) := by
  -- the lookup is started, picked and answered
  obtain ⟨-, hstarted⟩ := service.start (.resolve url settings.substitutions) hawaits
  rcases hstart : p.resolver.resolve l.world url settings.substitutions with ⟨world₁, ticket⟩
  rw [Resolver.start, hstart] at hstarted
  obtain ⟨⟨picked, hmem, hpick⟩, hpicked⟩ := service.pick hstarted (List.cons_ne_nil ticket [])
    (by simp)
  rcases hnext : p.resolver.next? world₁ [ticket] with ⟨world₂, choice⟩
  rw [hnext] at hpick hpicked
  cases hpick
  obtain ⟨hanswer, hanswered⟩ := service.answer hpicked (Function.update_self _ _ _) hfirst
  rcases hheard : p.resolver.answer world₂ ticket with ⟨world₃, answer⟩
  rw [hheard] at hanswer hanswered
  cases hanswer
  refine ⟨world₃, _, hanswered, ?_⟩
  rw [Loader.openUnit, hfiled, hsubstitutions, hstart]
  simp only [hnext, hheard, Loader.unitOfAnswer]

/-- Opening a file of a project with a fresh loader makes its unit and nothing else. -/
theorem exists_openUnit (service : project.Service settings first p) (hfresh : l.IsFresh)
    (hsettings : l.settings = settings) (hawaits : service.Awaits l.world fun _ ↦ none)
    (hfirst : project.target (.resolve url settings.substitutions) = some first) :
    ∃ l' root s, l.openUnit p url = (l', .settled (.ok root)) ∧ service.Explores l' ∧
      l'.wave = none ∧ l'.lookups = [] ∧ l'.cache.markers = [] ∧ l'.standing? root = some s ∧
      s.IsNew ∧ s.url = first ∧ ∀ {other s'}, l'.standing? other = some s' → other = root := by
  have hunfiled : l.cache.unit? url = none := by
    rw [hfresh.cache]
    exact ResolutionCache.unit?_empty url
  obtain ⟨world, awaited, hanswered, hopen⟩ := service.openUnit_eq hunfiled
    (congrArg Settings.substitutions hsettings) hawaits hfirst
  have hfresh' : Loader.IsFresh { l with world } := { hfresh with }
  obtain ⟨hexplores, root, hroot, hothers⟩ :=
    (Explores.of_fresh hfresh' hsettings hanswered).unitOfResource .refl
  obtain ⟨hquiet, hfiled⟩ :=
    Loader.unitOfResource_spec p { l with world } ⟨first, service.contents first⟩
  dsimp only at hopen
  rw [hroot] at hopen
  -- the unit that the file has now is new, since a fresh loader has none
  obtain hold | ⟨-, s, hs, hurl⟩ := hquiet.newlyFiled (hfiled hroot)
  · rw [hfresh'.cache] at hold
    cases hold
  obtain hold | ⟨-, hnew⟩ := hquiet.fresh hs
  · rw [hfresh'.standing?] at hold
    cases hold
  refine ⟨_, root, s, hopen, hexplores, hquiet.wave.trans hfresh.wave,
    hquiet.lookups.trans hfresh.lookups, ?_, hs, hnew, hurl, fun hs' ↦ ?_⟩
  · rw [hquiet.markers, hfresh'.cache]
  · rcases hothers hs' with hother | hold
    · exact hother
    · exact absurd ((hfresh'.standing? _).symm.trans hold) (by simp)

/-- Asking for the dependencies of the only unit visits its references. -/
theorem Explores.runs_asking (h : service.Explores l)
    (hwhole : project.IsWhole settings.substitutions first) {root : UnitId} {stall : LoaderError}
    (hm : Machine.Reachable p ⟨l, .running (loadCode root stall), []⟩) (hwave : l.wave = none)
    (hlookups : l.lookups = []) (hmarkers : l.cache.markers = []) {s : Standing ω}
    (hs : l.standing? root = some s) (hnew : s.IsNew)
    (honly : ∀ {other s'}, l.standing? other = some s' → other = root) (keys : List String) :
    ∃ l', Runs p [] ⟨l, .running (loadCode root stall), []⟩
        ⟨l', .returning (.ok .undefined), [.resumeAfter (afterAsking root stall)]⟩ ∧
      service.Underway keys keys.length l' := by
  have hbalance : l.lookups.length + keys.length = keys.length + l.cache.markers.length := by
    rw [hlookups, hmarkers]
    exact Nat.add_comm _ _
  -- first the load is asked for; what comes of it depends on how the unit stands
  have hstep : step p ⟨l, .running (loadCode root stall), []⟩ = loadDependencies p
      ⟨l, .running (loadCode root stall), [.resumeAfter (afterAsking root stall)]⟩ root none := by
    rw [loadCode_eq]
    rfl
  have hreached := hm.step
  rw [hstep, loadDependencies_eq p (m := ⟨l, _, _⟩) hs none] at hreached
  rw [loadDependencies_eq p (m := ⟨l, _, _⟩) hs none] at hstep
  cases hstatus : s.status with
  | loading => exact absurd hstatus hnew.not_loading
  | loaded =>
    -- a file without references is loaded from the start
    simp only [hstatus] at hstep
    refine ⟨l, runs_of_running hstep, h, fun other s' hs' ↦ ?_, hbalance⟩
    have hother := honly hs'
    subst hother
    rw [hs] at hs'
    cases hs'
    rw [hstatus]
    simp
  | unloaded =>
    simp only [hstatus, hwave] at hstep hreached
    obtain ⟨l', hruns, hl'⟩ := (h.advance (l.advances_beginWave root)).runs_join hwhole hreached rfl
      ((l.standing?_beginWave root root).trans hs)
      (fun {other s'} hs' _ ↦ honly ((l.standing?_beginWave root other).symm.trans hs')) hbalance
    exact ⟨l', ((runs_of_running hstep).trans hruns).trans (runs_of_frame rfl rfl), hl'⟩

/-! ## The end -/

/-- A load whose unit is loaded in the end finds no failure. -/
theorem runs_afterDriving {id : UnitId} {unit : LoadedUnit ω χ} (stall : LoaderError)
    (hunit : l.unit? id = some unit) (hloaded : unit.info.status = .loaded) :
    Runs p [] ⟨l, .running (afterDriving id stall (.settled (.ok ⟨⟩))), []⟩
      ⟨l, .returning (.ok .undefined), []⟩ := by
  have hfound : Program.loadFailure? id l.view = none := by
    have hview : l.view.unit? id = some unit.view := congrArg (Option.map _) hunit
    rw [Program.loadFailure?, hview]
    simp [LoadedUnit.view, hloaded]
  have hlooks : step p ⟨l, .running (afterDriving id stall (.settled (.ok ⟨⟩))), []⟩
      = ⟨l, .running (.finish (.ok .undefined)), []⟩ := by
    simp only [step, afterDriving, runCode, hfound]
    rfl
  exact (runs_of_running hlooks).trans (runs_of_running rfl)

/-- When all lookups have completed, every unit is complete. -/
theorem Explores.complete (h : service.Explores l)
    (hwhole : project.IsWhole settings.substitutions first) {code : Code ω}
    (hm : Machine.Reachable p ⟨l, .running code, []⟩) (hlookups : l.lookups = [])
    (hasked : l.AllAsked) {id : UnitId} {unit : LoadedUnit ω χ} (hunit : l.unit? id = some unit) :
    l.Complete id := by
  have hwave := ((hm.sound p).ready rfl).balanced.wave_eq_none hlookups
  have htraced := (hm.tracked (h.consistent hwhole)).traced
  have hs := Loader.standing?_of_unit? hunit
  -- the unit cannot be waiting for a wave that is over
  have hstatus : unit.standing.status = .loaded := by
    cases hstatus : unit.standing.status with
    | unloaded => exact absurd hstatus (hasked hs)
    | loaded => rfl
    | loading =>
      rcases htraced.waiting hs hstatus with hstranded | hjoined
      · rw [Journal.Stranded, h.intact.dropped_eq_nil] at hstranded
        cases hstranded
      · obtain ⟨wave, hactive, -⟩ := htraced.roster hjoined
        rw [hwave] at hactive
        cases hactive
  exact htraced.complete (Loader.isLoaded_iff.mpr ⟨_, hs, hstatus⟩)
    fun _ _ _ hsuspect ↦ absurd hsuspect (Loader.not_suspect h.intact _)

/-- Loading a file of a whole project comes to its end without an error, and then every unit is
complete. -/
theorem exists_ends (service : project.Service settings first p) (hfresh : l.IsFresh)
    (hsettings : l.settings = settings) (hawaits : service.Awaits l.world fun _ ↦ none)
    (hwhole : project.IsWhole settings.substitutions first)
    (hfirst : project.target (.resolve url settings.substitutions) = some first)
    (stall : LoaderError) :
    ∃ l' root, Ends p [] l (loadEntry url stall) (.ok .undefined) l' ∧ service.Explores l' ∧
      l'.Tidy ∧ (∀ {id unit}, l'.unit? id = some unit → l'.Complete id) ∧
      l'.cache.unit? first = some root := by
  obtain ⟨keys, hkeys⟩ := hwhole.exists_keys
  -- the file is opened
  obtain ⟨l₁, root, s, hopen, h₁, hwave, hlookups, hmarkers, hs, hnew, hurl, honly⟩ :=
    service.exists_openUnit hfresh hsettings hawaits hfirst
  have hopens : Runs p [] ⟨l, .running (loadEntry url stall), []⟩
      ⟨l₁, .running (loadCode root stall), []⟩ := by
    refine runs_of_running ?_
    simp only [step, runCode, loadEntry, hopen]
    rfl
  have hreached₁ := hopens.reachable (.start hfresh _)
  -- its dependencies are asked for
  obtain ⟨l₂, hasks, h₂⟩ :=
    h₁.runs_asking hwhole hreached₁ hwave hlookups hmarkers hs hnew honly keys
  have hresumes : Runs p []
      ⟨l₂, .returning (.ok .undefined), [.resumeAfter (afterAsking root stall)]⟩
      ⟨l₂, .running (.drive (afterDriving root stall)), []⟩ := runs_of_frame rfl rfl
  have hreached₂ := hresumes.reachable (hasks.reachable hreached₁)
  -- all lookups complete
  obtain ⟨l₃, hdrives, h₃, hasked, hcompleted⟩ :=
    h₂.runs_drive hwhole hkeys hreached₂.step ((hreached₂.sound p).ready rfl)
  have hstarts : Runs p [] ⟨l₂, .running (.drive (afterDriving root stall)), []⟩
      (drive p ⟨l₂, .running (.drive (afterDriving root stall)), []⟩ (afterDriving root stall)) :=
    .step (by rintro ⟨_, hcontrol, -⟩; cases hcontrol) (.refl _)
  have hruns := ((((hopens.trans hasks).trans hresumes).trans hstarts).trans hdrives)
  have hreached₃ := hruns.reachable (.start hfresh _)
  have hcomplete : ∀ {id unit}, l₃.unit? id = some unit → l₃.Complete id := fun hunit ↦
    h₃.complete hwhole hreached₃ hcompleted hasked hunit
  -- the first unit is there, and it is loaded
  obtain ⟨s₃, hs₃, hurl₃, -⟩ := (((hasks.trans hresumes).trans hstarts).trans hdrives).keeps hs
  have hroot := h₃.filed hs₃
  rw [hurl₃, hurl] at hroot
  obtain ⟨unit, hunit, -⟩ := Loader.standing?_eq_some.mp hs₃
  obtain ⟨unit', hunit', hloaded, -⟩ := hcomplete hunit
  exact ⟨l₃, root, hruns.trans (runs_afterDriving stall hunit' hloaded), h₃,
    (hreached₃.sound p).tidy, hcomplete, hroot⟩

end Service

end Project

end ScriptLoader
