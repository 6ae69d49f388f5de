import ScriptLoader.Proofs.Importing.Settling

/-!
# Lookups complete

Driving a loader completes one lookup after the other. An import whose file has been found is served
at once: the file is executed if it is loaded, and otherwise a wave is begun for it, or it waits for
the wave that it takes part in.

There can be only one wave. So an import is *refused* if its file has still to be loaded while the
wave of other files is active. That is the only thing that can go wrong.
-/

namespace ScriptLoader

variable {ω χ : Type}

namespace Loader

/-- An import of a file is refused: the file has still to be loaded, and a wave is active. -/
structure Refuses (l : Loader ω χ) (url : Url) : Prop where
  active : l.wave.isSome = true
  unloaded : ∃ id s, l.standing? id = some s ∧ s.url = url ∧ s.status = .unloaded

variable {p : Platform ω χ} {leads : String → Url} {keys : List String} {l l' : Loader ω χ}

/-- A lookup for the wave is under way only as long as there is one. -/
theorem Balances.exists_wave (h : l.Balances 0) {lookup : Lookup ω} (hlookup : lookup ∈ l.lookups)
    (hpurpose : lookup.purpose = .wave) : ∃ wave, l.wave = some wave := by
  cases hwave : l.wave with
  | some wave => exact ⟨wave, rfl⟩
  | none =>
    rw [Balances, hwave] at h
    have himport := List.countP_eq_zero.mp h.1 lookup hlookup
    rw [hpurpose] at himport
    exact absurd rfl himport

/-- When the next lookup finds its file, it is taken away, and goes on with a unit of the file. -/
theorem exists_lookup_of_finds (h : l.finds p leads = true) (control : Control ω)
    (base : List (Frame ω χ)) (next : Awaited Unit → Code ω) :
    ∃ before lookup after world l' id resource, l.lookups = before ++ lookup :: after ∧
      resource.url = leads lookup.key ∧
      ((l.leave world (before ++ after)).noteFound lookup.key (.ok (some resource))).unitOfAnswer p
        lookup.locator lookup.origin (.ok (some resource)) = (l', .ok id) ∧
      Machine.drive p ⟨l, control, base⟩ next =
        Machine.continueSearch p ⟨{ l' with cache := l'.cache.insertResult lookup.key id }, control,
          .driving next :: base⟩ id lookup.purpose := by
  rcases hnext : p.resolver.next? l.world (l.lookups.map (·.ticket)) with ⟨world, picked⟩
  rw [finds, hnext] at h
  -- a lookup is picked
  cases hfound : picked.bind fun ticket ↦ l.lookups.find? (·.ticket = ticket) with
  | none => simp [hfound] at h
  | some lookup =>
    obtain ⟨ticket, rfl, hlookup⟩ := Option.bind_eq_some_iff.mp hfound
    obtain ⟨-, before, after, hsplit, herase⟩ := Machine.exists_of_find?_ticket hlookup
    rcases hanswered : p.resolver.answer world lookup.ticket with ⟨world', answer⟩
    simp only [hfound, hanswered, herase, Bool.and_eq_true] at h
    obtain ⟨hanswer, hmade⟩ := h
    -- it finds its file
    rcases answer with e | _ | resource
    · cases hanswer
    · cases hanswer
    rw [decide_eq_true_eq] at hanswer
    -- and the file has a unit
    rcases hunit : ((l.leave world' (before ++ after)).noteFound lookup.key
      (.ok (some resource))).unitOfAnswer p lookup.locator lookup.origin (.ok (some resource))
      with ⟨l', e | id⟩
    · rw [hunit] at hmade
      cases hmade
    refine ⟨before, lookup, after, world', l', id, resource, hsplit, hanswer, hunit, ?_⟩
    have hsome : l.lookups.isEmpty = false := by simp [hsplit]
    rw [leave] at hunit
    simp only [Machine.drive, hsome, hnext, hfound, herase, Machine.push, Machine.completeLookup,
      hanswered, hunit, Bool.false_eq_true, if_false]

/-- This unit has the URL that the key leads to, and nothing has been done but to make it. -/
theorem exists_of_finds (h : l.finds p leads = true) (htidy : l.Tidy) (control : Control ω)
    (base : List (Frame ω χ)) (next : Awaited Unit → Code ω) :
    ∃ before lookup after world l' id s, l.lookups = before ++ lookup :: after ∧
      ((l.leave world (before ++ after)).record (.found lookup.key (leads lookup.key))).Executed
        l' ∧ l'.Tidy ∧ l'.standing? id = some s ∧ s.url = leads lookup.key ∧
      Machine.drive p ⟨l, control, base⟩ next =
        Machine.continueSearch p ⟨{ l' with cache := l'.cache.insertResult lookup.key id }, control,
          .driving next :: base⟩ id lookup.purpose := by
  obtain ⟨before, lookup, after, world, l', id, resource, hsplit, hfinds, hunit, hdrive⟩ :=
    exists_lookup_of_finds h control base next
  obtain ⟨noted, hnoted⟩ : ∃ noted, noted = (l.leave world (before ++ after)).noteFound lookup.key
    (.ok (some resource)) := ⟨_, rfl⟩
  rw [← hnoted] at hunit
  have hexecuted := noted.executed_unitOfAnswer p lookup.locator lookup.origin (.ok (some resource))
  obtain ⟨_, hresource, hfiled⟩ := exists_of_unitOfAnswer p (congrArg Prod.snd hunit)
  cases hresource
  rw [hunit] at hexecuted hfiled
  have htidy' : noted.Tidy := hnoted ▸ htidy.congr rfl rfl rfl rfl
  obtain ⟨s, hs, hurl⟩ := (htidy'.quiet hexecuted.quiet).unit hfiled
  have hfound : noted = (l.leave world (before ++ after)).record
      (.found lookup.key (leads lookup.key)) := by
    rw [hnoted, ← hfinds]
    rfl
  exact ⟨before, lookup, after, world, l', id, s, hsplit, hfound ▸ hexecuted,
    htidy'.quiet hexecuted.quiet, hs, hurl.trans hfinds, hdrive⟩

end Loader

namespace Machine

open Loader

variable {p : Platform ω χ} {leads : String → Url} {keys : List String} {start : Machine ω χ}
  {l l₁ : Loader ω χ} {control : Control ω} {base stack : List (Frame ω χ)} {m m' : Machine ω χ}
  {total : Multiset (Errand ω)} {next : Awaited Unit → Code ω}

/-- A machine comes to refuse an import. On the way some imports are over, and there are others
besides the one that is refused. -/
def IsRefused (p : Platform ω χ) (total : Multiset (Errand ω)) (m : Machine ω χ)
    (stack : List (Frame ω χ)) : Prop :=
  ∃ (deliveries : List (Delivery ω)) (l' : Loader ω χ) (url : Url)
    (deliver : Option (Outcome → Code ω)) (rest : Multiset (Errand ω)),
    Shows p m (deliveries.flatMap Delivery.events)
        ⟨l', .returning (.error (.reentrancyViolation url.text)), stack⟩ ∧
      l'.Refuses url ∧
      (deliveries.map Delivery.errand : Multiset (Errand ω)) + ((url, deliver) ::ₘ rest) = total

/-! ## Imports are served -/

/-- **An import whose file has been found is served or refused.** -/
theorem Unhindered.serve (h : Unhindered p leads keys start) {id : UnitId} {s : Standing ω}
    {deliver : Option (Outcome → Code ω)}
    (hv : Visits p start (loadDependencies p ⟨l, control, base⟩ id (some (.importing deliver))))
    (hknows : l.Knows leads []) (htidy : l.Tidy) (hs : l.standing? id = some s) :
    Settles p leads keys l (l.errands leads + {(s.url, deliver)})
        (loadDependencies p ⟨l, control, base⟩ id (some (.importing deliver))) base ∨
      IsRefused p (l.errands leads + {(s.url, deliver)})
        (loadDependencies p ⟨l, control, base⟩ id (some (.importing deliver))) base := by
  rw [loadDependencies_eq p (m := ⟨l, control, base⟩) hs] at hv ⊢
  cases hstatus : s.status with
  | loaded =>
    -- the file is executed at once
    simp only [hstatus] at hv ⊢
    have htidy' : (l.record (.delivered id)).Tidy := htidy.congr rfl rfl rfl rfl
    obtain ⟨value, l', hshows, hexecuted⟩ := h.deliver hv (hknows.record _) htidy' hs
    have hrecorded : l.Nears keys (l.record (.delivered id)) := .of_same rfl rfl rfl
    refine .inl ⟨[⟨s.url, deliver, value⟩], l', hshows, (hknows.record _).executed hexecuted,
      hrecorded.trans hexecuted.nears, ?_⟩
    rw [errands_quiet hexecuted.quiet, add_comm]
    rfl
  | loading =>
    -- the wave that the file takes part in is waited for
    simp only [hstatus] at hv ⊢
    have hnears : l.Nears keys (l.await id (some (.importing deliver))) := .of_same rfl rfl rfl
    rw [← errands_await hs deliver]
    exact .inl (.done (hknows.await hs hstatus deliver) hnears)
  | unloaded =>
    simp only [hstatus] at hv ⊢
    cases hwave : l.wave with
    | some wave =>
      have hactive : (l.endImports p 1).wave = some wave := hwave
      have hrefuses : (l.endImports p 1).Refuses s.url :=
        ⟨by rw [hactive]; rfl, id, s, hs, rfl, hstatus⟩
      refine .inr ⟨[], l.endImports p 1, s.url, deliver, l.errands leads, .refl _, hrefuses, ?_⟩
      rw [List.map_nil, Multiset.coe_nil, zero_add, ← Multiset.singleton_add, add_comm]
    | none =>
      -- a wave is begun for the file
      simp only [hwave, Option.isSome_none, Bool.false_eq_true, if_false] at hv ⊢
      have hnears : l.Nears keys (l.beginWave id (some (.importing deliver))) :=
        .of_same rfl rfl rfl
      have herrands : (l.beginWave id (some (.importing deliver))).errands leads
          = l.errands leads + {(s.url, deliver)} := errands_await hs deliver
      have hs' := standing?_await_self hs (some (.importing deliver))
      have hjoins := (h.dispatches _).join (l := l.beginWave id _) rfl hv hs'
        (hknows.begin hwave id deliver s.dependencies) (Nat.lt_succ_self _)
      rw [← herrands]
      exact .inl ((hjoins.after hnears).bind hv fun l' _ hknows' _ ↦
        .of_shows (shows_of_step rfl rfl) (.done hknows' (.refl keys l')))

/-! ## Driving -/

theorem IsRefused.after {errands : Multiset (Errand ω)} (h : IsRefused p errands m' stack)
    (deliveries : List (Delivery ω)) (hshows : Shows p m (deliveries.flatMap Delivery.events) m')
    (htotal : (deliveries.map Delivery.errand : Multiset (Errand ω)) + errands = total) :
    IsRefused p total m stack := by
  obtain ⟨deliveries', l', url, deliver, rest, hshows', hrefuses, rfl⟩ := h
  exact ⟨deliveries ++ deliveries', l', url, deliver, rest, hshows.deliveries_append hshows',
    hrefuses, Delivery.total_append htotal rfl⟩

/-- A lookup completes, and less work is left. -/
theorem Unhindered.complete (h : Unhindered p leads keys start)
    (hv : Visits p start (drive p ⟨l, control, base⟩ next)) (hready : Ready l base)
    (hknows : l.Knows leads []) (hfinds : l.finds p leads = true) :
    ∃ l₁ : Loader ω χ, l₁.remaining keys < l.remaining keys ∧ l₁.base = l.base ∧
      (Settles p leads keys l₁ (l.errands leads) (drive p ⟨l, control, base⟩ next)
          (.driving next :: base) ∨
        IsRefused p (l.errands leads) (drive p ⟨l, control, base⟩ next)
          (.driving next :: base)) := by
  obtain ⟨before, lookup, after, world, l', id, s, hsplit, hexecuted, htidy, hs, hurl, hdrive⟩ :=
    exists_of_finds hfinds hready.tidy control base next
  rw [hdrive] at hv ⊢
  have hleft : l'.Knows leads [] := ((hknows.leave world _).record _).executed hexecuted
  have herrands : l'.errands leads + ((lookup.errand? leads).toList : Multiset (Errand ω))
      = l.errands leads := by
    rw [errands_quiet hexecuted.quiet]
    exact errands_leave hsplit world
  have hfewer : l'.remaining keys < l.remaining keys := by
    have hunmarked : l'.unmarked keys = l.unmarked keys := unmarked_congr hexecuted.quiet.markers
    have hlookups : l'.lookups = before ++ after := hexecuted.quiet.lookups
    rw [remaining, remaining, hunmarked, hlookups, hsplit]
    simp
  -- all this is still so when the result is recorded
  obtain ⟨l₁, hl₁⟩ : ∃ l₁ : Loader ω χ,
      l₁ = { l' with cache := l'.cache.insertResult lookup.key id } := ⟨_, rfl⟩
  have hknows₁ : l₁.Knows leads [] := hl₁ ▸ hleft.insertResult hs hurl
  have htidy₁ : l₁.Tidy := hl₁ ▸ htidy.insertResult lookup.key hs
  have hs₁ : l₁.standing? id = some s := hl₁ ▸ hs
  have herrands₁ : l₁.errands leads = l'.errands leads := hl₁ ▸ rfl
  have hwave₁ : l₁.wave = l.wave := hl₁ ▸ hexecuted.quiet.wave
  refine ⟨l₁, hl₁ ▸ hfewer, hl₁ ▸ hexecuted.base, ?_⟩
  rw [← hl₁] at hv ⊢
  rw [← herrands, ← herrands₁]
  cases hpurpose : lookup.purpose with
  | wave =>
    rw [hpurpose] at hv
    -- a lookup for the wave is under way, so there is one
    obtain ⟨wave, hwave⟩ :=
      hready.balanced.exists_wave (hsplit ▸ List.mem_append_cons_self) hpurpose
    rw [Lookup.errand?, hpurpose]
    have hnone : ((none : Option (Errand ω)).toList : Multiset (Errand ω)) = 0 := rfl
    have hsettles := (h.dispatches _).searchFinished h (hwave₁.trans hwave) hv hs₁ hknows₁
      (Nat.lt_succ_self _)
    rw [← add_zero (l₁.errands leads)] at hsettles
    exact .inl hsettles
  | importing deliver =>
    rw [hpurpose] at hv
    rw [Lookup.errand?, hpurpose, ← hurl]
    exact h.serve hv hknows₁ htidy₁ hs₁

/-- What driving a loader comes to: all imports are over, or one is refused. -/
inductive Drives (p : Platform ω χ) (leads : String → Url) (l : Loader ω χ)
    (next : Awaited Unit → Code ω) (m : Machine ω χ) (base : List (Frame ω χ)) : Prop
  | settled (deliveries : List (Delivery ω)) {l' : Loader ω χ}
      (shows : Shows p m (deliveries.flatMap Delivery.events)
        ⟨l', .running (next (.settled (.ok ⟨⟩))), base⟩)
      (knows : l'.Knows leads []) (ended : l'.lookups = []) (same : l'.base = l.base)
      (total : (deliveries.map Delivery.errand : Multiset (Errand ω)) + l'.errands leads
        = l.errands leads)
  | refused (refused : IsRefused p (l.errands leads) m (.driving next :: base))

/-- After some imports are over, driving goes on with the others. -/
theorem Drives.after {deliveries : List (Delivery ω)} (h : Drives p leads l₁ next m' base)
    (hshows : Shows p m (deliveries.flatMap Delivery.events) m') (hbase : l₁.base = l.base)
    (htotal : (deliveries.map Delivery.errand : Multiset (Errand ω)) + l₁.errands leads
      = l.errands leads) : Drives p leads l next m base := by
  cases h with
  | settled deliveries' hshows' hknows hover hsame htotal' =>
    exact .settled (deliveries ++ deliveries') (hshows.deliveries_append hshows') hknows hover
      (hsame.trans hbase) (Delivery.total_append htotal htotal')
  | refused hrefused => exact .refused (hrefused.after deliveries hshows htotal)

/-- **Driving completes all lookups**, unless an import is refused. -/
theorem Unhindered.drives (h : Unhindered p leads keys start) (count : Nat)
    (hstep : m.step p = drive p ⟨l, control, base⟩ next) (hsilent : m.importEvent? = none)
    (hv : Visits p start m) (hgranted : (l.lookups.isEmpty || l.finds p leads) = true)
    (hready : Ready l base) (hknows : l.Knows leads []) (hcount : l.remaining keys < count) :
    Drives p leads l next m base := by
  induction count generalizing l m control with
  | zero => exact absurd hcount (Nat.not_lt_zero _)
  | succ count ih =>
    have hfirst := shows_of_step hstep hsilent
    by_cases hempty : l.lookups = []
    · rw [drive, if_pos (List.isEmpty_iff.mpr hempty)] at hfirst
      exact .settled [] hfirst hknows hempty rfl (zero_add _)
    · rw [Bool.or_eq_true, List.isEmpty_iff, or_iff_right hempty] at hgranted
      obtain ⟨l₁, hfewer, hbase, ⟨deliveries, l', hshows, hknows', hnears, htotal⟩ | hrefused⟩ :=
        h.complete (hstep ▸ hv.step) hready hknows hgranted
      -- the next lookup is completed, and then those that are left
      · have hshows' := hfirst.trans hshows
        have hv' := hv.shows hshows'
        have hready' : Ready l' base := ((hv'.reachable h.reachable).sound p).ready_below rfl rfl
          (not_falls_of_ok rfl)
        have hcount' : l'.remaining keys < count := by
          have := hnears.remaining
          omega
        exact (ih rfl rfl hv' (h.granted hv') hready' hknows' hcount').after hshows'
          (hnears.base.trans hbase) htotal
      · exact .refused (hrefused.after [] hfirst (zero_add _))

end Machine

end ScriptLoader
