import ScriptLoader.Proofs.Importing.Knowing

/-!
# A wave comes to its end

What a loader does between two lookups comes to its end: units join the wave and go on with their
references, the wave is closed when nothing is left, and the callbacks of its units are called. In
the course of this some imports are over, and all others are still pending.

References are visited to any depth, since a reference may have led to a unit before, namely for an
import. But each of them is asked for the first time, and there are only so many keys.
-/

namespace ScriptLoader

variable {ω χ : Type}

/-- An import that is over: the URL of its file, its callback, and the value that the body of the
file has returned. -/
structure Delivery (ω : Type) where
  url : Url
  deliver : Option (Outcome → Code ω)
  value : Value

namespace Delivery

def errand (d : Delivery ω) : Errand ω := (d.url, d.deliver)

/-- What is shown of the import: the body of its file returns a value, and the callback is called
with it. -/
def events (d : Delivery ω) : List (ImportEvent ω) :=
  [.returned d.url (.ok d.value), .called d.deliver (.ok d.value)]

/-- After some imports are over, there are others, of which some are over later. -/
theorem total_append {deliveries deliveries' : List (Delivery ω)}
    {left others total : Multiset (Errand ω)}
    (h : (deliveries.map errand : Multiset (Errand ω)) + others = total)
    (h' : (deliveries'.map errand : Multiset (Errand ω)) + left = others) :
    ((deliveries ++ deliveries').map errand : Multiset (Errand ω)) + left = total := by
  rw [List.map_append, ← Multiset.coe_add, add_assoc, h', h]

end Delivery

namespace Machine

open Loader

/-- A machine comes to return to a stack. On the way some imports are over, and together with those
that are not yet they are all that there were; the loader is in good order, and nothing has been
added to the work that was left for it. -/
def Settles (p : Platform ω χ) (leads : String → Url) (keys : List String) (l : Loader ω χ)
    (total : Multiset (Errand ω)) (m : Machine ω χ) (stack : List (Frame ω χ)) : Prop :=
  ∃ (deliveries : List (Delivery ω)) (l' : Loader ω χ),
    Shows p m (deliveries.flatMap Delivery.events) ⟨l', .returning (.ok .undefined), stack⟩ ∧
      l'.Knows leads [] ∧ l.Nears keys l' ∧
      (deliveries.map Delivery.errand : Multiset (Errand ω)) + l'.errands leads = total

variable {p : Platform ω χ} {leads : String → Url} {keys : List String} {start : Machine ω χ}
  {l l₁ : Loader ω χ} {control : Control ω} {base stack stack' : List (Frame ω χ)}
  {m m' : Machine ω χ} {total : Multiset (Errand ω)} {due : List UnitId}

theorem Shows.deliveries_append {deliveries deliveries' : List (Delivery ω)} {m'' : Machine ω χ}
    (h : Shows p m (deliveries.flatMap Delivery.events) m')
    (h' : Shows p m' (deliveries'.flatMap Delivery.events) m'') :
    Shows p m ((deliveries ++ deliveries').flatMap Delivery.events) m'' := by
  rw [List.flatMap_append]
  exact h.trans h'

namespace Settles

theorem done (h : l.Knows leads []) (hnears : l₁.Nears keys l) :
    Settles p leads keys l₁ (l.errands leads) ⟨l, .returning (.ok .undefined), stack⟩ stack :=
  ⟨[], l, .refl _, h, hnears, zero_add _⟩

theorem of_shows (hshows : Shows p m [] m') (h : Settles p leads keys l total m' stack) :
    Settles p leads keys l total m stack := by
  obtain ⟨deliveries, l', hshows', h'⟩ := h
  exact ⟨deliveries, l', hshows.trans hshows', h'⟩

theorem after (h : Settles p leads keys l₁ total m stack) (hnears : l.Nears keys l₁) :
    Settles p leads keys l total m stack := by
  obtain ⟨deliveries, l', hshows, hknows, hnears', htotal⟩ := h
  exact ⟨deliveries, l', hshows, hknows, hnears.trans hnears', htotal⟩

/-- What comes after may come to return to another stack. -/
theorem bind (h : Settles p leads keys l total m stack) (hv : Visits p start m)
    (hnext : ∀ l', Visits p start ⟨l', .returning (.ok .undefined), stack⟩ → l'.Knows leads [] →
      l.Nears keys l' → Settles p leads keys l' (l'.errands leads)
        ⟨l', .returning (.ok .undefined), stack⟩ stack') :
    Settles p leads keys l total m stack' := by
  obtain ⟨deliveries, l', hshows, hknows, hnears, htotal⟩ := h
  obtain ⟨deliveries', l'', hshows', hknows', hnears', htotal'⟩ :=
    hnext l' (hv.shows hshows) hknows hnears
  exact ⟨deliveries ++ deliveries', l'', hshows.deliveries_append hshows', hknows',
    hnears.trans hnears', Delivery.total_append htotal htotal'⟩

end Settles

/-! ## Callbacks -/

/-- The frame of an import hands a value to the callback. -/
theorem Unhindered.handOn (h : Unhindered p leads keys start) {value : Value}
    {deliver : Option (Outcome → Code ω)}
    (hv : Visits p start ⟨l, .returning (.ok value), .delivering deliver :: base⟩) :
    ∃ l', Shows p ⟨l, .returning (.ok value), .delivering deliver :: base⟩
        [.called deliver (.ok value)] ⟨l', .returning (.ok .undefined), base⟩ ∧
      l.Executed l' := by
  have hended : l.Executed (l.endImports p 1) := l.executed_world _
  cases deliver with
  | none => exact ⟨l.endImports p 1, .step (.refl _), hended⟩
  | some deliver =>
    have hstep : Shows p ⟨l, .returning (.ok value), .delivering (some deliver) :: base⟩
        [.called (some deliver) (.ok value)]
        ⟨l.endImports p 1, .running (deliver (.ok value)), .ignoring :: base⟩ := .step (.refl _)
    obtain ⟨outcome, l', hshows, hexecuted⟩ := h.callback (hv.shows hstep)
    have hback : Shows p ⟨l', .returning outcome, .ignoring :: base⟩ []
        ⟨l', .returning (.ok .undefined), base⟩ := shows_of_step rfl rfl
    exact ⟨l', hstep.trans (hshows.trans hback), hended.trans hexecuted⟩

/-- **An import is over**: its file is executed, and the callback is called with the value. -/
theorem Unhindered.deliver (h : Unhindered p leads keys start) {id : UnitId} {s : Standing ω}
    {deliver : Option (Outcome → Code ω)}
    (hv : Visits p start (callBack ⟨l, control, base⟩ id (.importing deliver)))
    (hknows : l.Knows leads due) (htidy : l.Tidy) (hs : l.standing? id = some s) :
    ∃ value l', Shows p (callBack ⟨l, control, base⟩ id (.importing deliver))
        (Delivery.events ⟨s.url, deliver, value⟩) ⟨l', .returning (.ok .undefined), base⟩ ∧
      l.Executed l' := by
  have hcalled : Visits p start
      (Machine.execute ⟨l, control, .delivering deliver :: base⟩ id) := hv
  obtain ⟨value, l₁, hexecutes, hexecuted⟩ :=
    h.execute hcalled hknows.unfailed htidy hs (hknows.idle id)
  obtain ⟨l', hcalls, hexecuted'⟩ := h.handOn (hv.shows hexecutes)
  exact ⟨value, l', hexecutes.trans hcalls, hexecuted.trans hexecuted'⟩

theorem Unhindered.drainCallbacks (h : Unhindered p leads keys start) {value : Value} {id : UnitId}
    {s : Standing ω} {callbacks : List (Callback ω)} {rest : List UnitId}
    (hv : Visits p start ⟨l, .returning (.ok value), .draining id callbacks rest :: base⟩)
    (hknows : l.Knows leads due) (hs : l.standing? id = some s)
    (himports : ∀ callback ∈ callbacks, callback.isImport = true) :
    ∃ (deliveries : List (Delivery ω)) (value' : Value) (l' : Loader ω χ),
      Shows p ⟨l, .returning (.ok value), .draining id callbacks rest :: base⟩
        (deliveries.flatMap Delivery.events)
        ⟨l', .returning (.ok value'), .draining id [] rest :: base⟩ ∧
      l'.Knows leads due ∧ l.Nears keys l' ∧ l'.errands leads = l.errands leads ∧
      deliveries.map Delivery.errand = callbacks.filterMap (Callback.errand? s.url) := by
  induction callbacks generalizing l value with
  | nil => exact ⟨[], value, l, .refl _, hknows, .refl keys l, rfl, rfl⟩
  | cons callback callbacks ih =>
    obtain ⟨himport, hrest⟩ := List.forall_mem_cons.mp himports
    cases callback with
    | code => cases himport
    | importing deliver =>
      -- the first of them is called
      have hstep : step p
          ⟨l, .returning (.ok value), .draining id (.importing deliver :: callbacks) rest :: base⟩ =
          callBack ⟨l.record (.delivered id), .returning (.ok value),
            .draining id callbacks rest :: base⟩ id (.importing deliver) := rfl
      have htidy : (l.record (.delivered id)).Tidy :=
        ((hv.reachable h.reachable).sound p).tidy.congr rfl rfl rfl rfl
      have hrecorded : (l.record (.delivered id)).Knows leads due := hknows.record _
      have hcall := hv.step
      rw [hstep] at hcall
      obtain ⟨value₁, l₁, hshows, hexecuted⟩ := h.deliver hcall hrecorded htidy hs
      have hfirst := (shows_of_step hstep rfl).trans hshows
      -- and then the others
      obtain ⟨deliveries, value', l', hothers, hknows', hnears, herrands, hdelivered⟩ :=
        ih (hv.shows hfirst) (hrecorded.executed hexecuted) (hexecuted.quiet.known hs) hrest
      have hrecordNears : l.Nears keys (l.record (.delivered id)) := .of_same rfl rfl rfl
      refine ⟨⟨s.url, deliver, value₁⟩ :: deliveries, value', l', ?_, hknows',
        (hrecordNears.trans hexecuted.nears).trans hnears, ?_, ?_⟩
      · rw [List.flatMap_cons]
        exact hfirst.trans hothers
      · rw [herrands, errands_quiet hexecuted.quiet]
        rfl
      · rw [List.map_cons, hdelivered]
        rfl

theorem Unhindered.drainUnit (h : Unhindered p leads keys start) {value : Value} {id next : UnitId}
    {rest : List UnitId}
    (hv : Visits p start ⟨l, .returning (.ok value), .draining id [] (next :: rest) :: base⟩)
    (hknows : l.Knows leads (next :: rest)) :
    ∃ (deliveries : List (Delivery ω)) (value' : Value) (l' : Loader ω χ),
      Shows p ⟨l, .returning (.ok value), .draining id [] (next :: rest) :: base⟩
        (deliveries.flatMap Delivery.events)
        ⟨l', .returning (.ok value'), .draining next [] rest :: base⟩ ∧
      l'.Knows leads rest ∧ l.Nears keys l' ∧
      (deliveries.map Delivery.errand : Multiset (Errand ω)) + l'.errands leads
        = l.errands leads := by
  obtain ⟨taken, htaken⟩ : ∃ taken, taken = l.modifyUnit next fun unit ↦
    { unit with callbacks := [] } := ⟨_, rfl⟩
  have hstep : step p ⟨l, .returning (.ok value), .draining id [] (next :: rest) :: base⟩ =
      ⟨taken, .returning (.ok .undefined), .draining next (l.queue next) rest :: base⟩ := by
    rw [htaken]
    rfl
  have hfirst := shows_of_step hstep rfl
  have hknows₁ : taken.Knows leads rest := htaken ▸ hknows.take
  have hnears₁ : l.Nears keys taken := htaken ▸ .of_same rfl rfl rfl
  have herrands₁ : taken.errands leads + l.waitingFor next = l.errands leads :=
    htaken ▸ l.errands_take next
  cases hs : l.standing? next with
  | none =>
    rw [queue_of_unknown hs] at hfirst
    rw [waitingFor_of_unknown hs, add_zero] at herrands₁
    exact ⟨[], .undefined, taken, hfirst, hknows₁, hnears₁, (zero_add _).trans herrands₁⟩
  | some s =>
    have hs₁ : taken.standing? next = some { s with callbacks := [] } := by
      rw [htaken, l.standing?_modifyCallbacks next fun _ ↦ [], hs, Option.map_some, if_pos rfl]
    rw [queue_of_standing? hs] at hfirst
    obtain ⟨deliveries, value', l', hshows, hknows', hnears, herrands, hdelivered⟩ :=
      h.drainCallbacks (hv.shows hfirst) hknows₁ hs₁ (hknows.awaits hs).imports
    refine ⟨deliveries, value', l', hfirst.trans hshows, hknows', hnears₁.trans hnears, ?_⟩
    rw [hdelivered, herrands, add_comm, ← herrands₁, waitingFor_of_standing? hs]
    rfl

theorem Unhindered.drain (h : Unhindered p leads keys start) {value : Value} {id : UnitId}
    {rest : List UnitId}
    (hv : Visits p start ⟨l, .returning (.ok value), .draining id [] rest :: base⟩)
    (hknows : l.Knows leads rest) :
    Settles p leads keys l (l.errands leads)
      ⟨l, .returning (.ok value), .draining id [] rest :: base⟩ base := by
  induction rest generalizing l value id with
  | nil =>
    exact .of_shows (shows_of_step rfl rfl) (.done hknows (.refl keys l))
  | cons next rest ih =>
    obtain ⟨deliveries, value', l₁, hshows, hknows₁, hnears, htotal⟩ := h.drainUnit hv hknows
    -- then the callbacks of the units that come after are called
    obtain ⟨deliveries', l', hshows', hknows', hnears', htotal'⟩ := ih (hv.shows hshows) hknows₁
    exact ⟨deliveries ++ deliveries', l', hshows.deliveries_append hshows', hknows',
      hnears.trans hnears', Delivery.total_append htotal htotal'⟩

/-! ## The end of a wave -/

theorem Unhindered.closeWave (h : Unhindered p leads keys start) {wave : Wave}
    (hv : Visits p start (Machine.closeWave ⟨l, control, base⟩)) (hwave : l.wave = some wave)
    (hknows : l.Knows leads []) :
    Settles p leads keys l (l.errands leads) (Machine.closeWave ⟨l, control, base⟩) base := by
  have hbase : (l.close wave).base = l.base := by
    rw [close, setStatuses_eq]
    rfl
  have hnears : l.Nears keys (l.close wave) :=
    .of_same (l.lookups_close wave) (by rw [l.cache_close wave]) hbase
  have hclosed := hknows.close hwave
  rw [closeWave_eq (m := ⟨l, control, base⟩) hwave] at hv ⊢
  rw [← errands_close l wave]
  rcases hp : wave.participants with _ | ⟨first, rest⟩
  all_goals rw [hp] at hv hclosed
  · exact .done hclosed hnears
  · exact (h.drain hv hclosed).after hnears

/-- The wave is closed if nothing is left of it. -/
theorem Unhindered.closeWave_or_done (h : Unhindered p leads keys start) {wave : Wave}
    {closes : Prop} [Decidable closes]
    (hv : Visits p start (if closes then Machine.closeWave ⟨l, control, base⟩
      else done ⟨l, control, base⟩)) (hwave : l.wave = some wave) (hknows : l.Knows leads []) :
    Settles p leads keys l (l.errands leads) (if closes then Machine.closeWave ⟨l, control, base⟩
      else done ⟨l, control, base⟩) base := by
  by_cases hcloses : closes
  · rw [if_pos hcloses] at hv ⊢
    exact h.closeWave hv hwave hknows
  · rw [if_neg hcloses]
    exact .done hknows (.refl keys l)

/-! ## The units of a wave -/

/-- Units that have joined go on to their last reference as long as fewer keys than `count` have not
been asked for. -/
def Dispatches (p : Platform ω χ) (leads : String → Url) (keys : List String)
    (start : Machine ω χ) (count : Nat) : Prop :=
  ∀ ⦃l value id searcher rest base⦄,
    Visits p start ⟨l, .returning (.ok value), .dispatching id searcher rest :: base⟩ →
    l.Knows leads [] → l.unmarked keys < count → Settles p leads keys l (l.errands leads)
      ⟨l, .returning (.ok value), .dispatching id searcher rest :: base⟩ base

namespace Dispatches

variable {count : Nat} {wave : Wave} {id : UnitId} {s : Standing ω}

theorem join (hd : Dispatches p leads keys start count) (hwave : l.wave = some wave)
    (hv : Visits p start (Machine.join ⟨l, control, base⟩ id)) (hs : l.standing? id = some s)
    (hknows : (l.enroll wave id s.dependencies).Knows leads [])
    (hcount : l.unmarked keys < count) :
    Settles p leads keys l (l.errands leads) (Machine.join ⟨l, control, base⟩ id) base := by
  rw [join_eq (m := ⟨l, control, base⟩) hwave hs] at hv ⊢
  have hexecuted := (l.enroll wave id s.dependencies).executed_operation .searcher s.directory
  have henrolled : l.Nears keys (l.enroll wave id s.dependencies) := .of_same rfl rfl rfl
  have hnears := henrolled.trans hexecuted.nears
  rw [← errands_enroll l wave id s.dependencies, ← errands_quiet hexecuted.quiet]
  exact (hd hv (hknows.executed hexecuted) (Nat.lt_of_le_of_lt hnears.unmarked hcount)).after hnears

theorem searchFinished (hd : Dispatches p leads keys start count)
    (h : Unhindered p leads keys start) (hwave : l.wave = some wave)
    (hv : Visits p start (Machine.searchFinished ⟨l, control, base⟩ id))
    (hs : l.standing? id = some s) (hknows : l.Knows leads []) (hcount : l.unmarked keys < count) :
    Settles p leads keys l (l.errands leads) (Machine.searchFinished ⟨l, control, base⟩ id)
      base := by
  rw [searchFinished_eq (m := ⟨l, control, base⟩) hwave hs] at hv ⊢
  have hsettled := hknows.settle hwave
  have hnears : l.Nears keys (l.settle wave) := .of_same rfl rfl rfl
  by_cases hunloaded : s.status = .unloaded
  · simp only [if_pos hunloaded] at hv ⊢
    exact (hd.join rfl hv hs (hsettled.enroll rfl id s.dependencies) hcount).after hnears
  · simp only [if_neg hunloaded] at hv ⊢
    exact (h.closeWave_or_done hv rfl hsettled).after hnears

end Dispatches

/-- For a reference that is asked for the first time a lookup is started, unless it has led to a
unit before, namely for an import. -/
theorem Unhindered.visit_cases (h : Unhindered p leads keys start) {value : Value} {id : UnitId}
    {searcher : Operation} {r : Reference} {rest : List Reference}
    (hv : Visits p start ⟨l, .returning (.ok value), .dispatching id searcher (r :: rest) :: base⟩)
    (hunmarked : r.key searcher.context.text ∉ l.cache.markers) :
    let asked := l.ask (r.key searcher.context.text)
    let visited := step p ⟨l, .returning (.ok value), .dispatching id searcher (r :: rest) :: base⟩
    (∃ other, l.cache.result? (r.key searcher.context.text) = some other ∧ visited =
      Machine.searchFinished ⟨asked, .returning (.ok value), .dispatching id searcher rest :: base⟩
        other) ∨
    ∃ world request lookup, lookup.purpose = .wave ∧ visited =
      ⟨asked.enlist world request lookup, .returning (.ok .undefined),
        .dispatching id searcher rest :: base⟩ := by
  have hgranted := h.granted hv
  simp only [isGranted, Bool.and_eq_true] at hgranted
  have hstep : step p ⟨l, .returning (.ok value), .dispatching id searcher (r :: rest) :: base⟩ =
      search p ⟨l.ask (r.key searcher.context.text), .returning (.ok value),
        .dispatching id searcher rest :: base⟩ searcher r ((l.unit? id).map (·.info.url)) .wave :=
    continueDispatching_unmarked p ⟨l, .returning (.ok value), base⟩ id rest hunmarked
  dsimp only
  rw [hstep]
  rcases search_cases p ⟨l.ask (r.key searcher.context.text), .returning (.ok value),
      .dispatching id searcher rest :: base⟩ searcher r ((l.unit? id).map (·.info.url)) .wave with
    ⟨other, hresult, heq⟩ | ⟨-, ⟨cause, hcause, -⟩ | ⟨request, -, heq⟩⟩
  · exact .inl ⟨other, (l.cache.result?_mark _ _).symm.trans hresult, heq⟩
  · rw [hcause] at hgranted
    cases hgranted.1
  · exact .inr ⟨_, request, _, rfl, heq⟩

/-- One more lookup is under way, or a search has ended: in any case one key less is left. -/
theorem Dispatches.visit {count : Nat} (hd : Dispatches p leads keys start count)
    (h : Unhindered p leads keys start) {value : Value} {id : UnitId} {searcher : Operation}
    {r : Reference} {rest : List Reference} {wave : Wave}
    (hv : Visits p start ⟨l, .returning (.ok value), .dispatching id searcher (r :: rest) :: base⟩)
    (hwave : l.wave = some wave) (hknows : l.Knows leads [])
    (hunmarked : r.key searcher.context.text ∉ l.cache.markers)
    (hcount : l.unmarked keys < count + 1) :
    Settles p leads keys l (l.errands leads)
      ⟨l, .returning (.ok value), .dispatching id searcher (r :: rest) :: base⟩
      (.dispatching id searcher rest :: base) := by
  have hgranted := h.granted hv
  simp only [isGranted, Bool.and_eq_true, List.contains_iff_mem] at hgranted
  have hkey : r.key searcher.context.text ∈ keys := hgranted.2
  have hfewer := unmarked_ask hkey hunmarked
  have hasked := hknows.ask (r.key searcher.context.text)
  rcases h.visit_cases hv hunmarked with
    ⟨other, hresult, hstep⟩ | ⟨world, request, lookup, hpurpose, hstep⟩
  · refine .of_shows (shows_of_step hstep rfl) ?_
    have hv₁ := hv.step
    rw [hstep] at hv₁
    obtain ⟨s, hs⟩ := ((hv.reachable h.reachable).sound p).tidy.result hresult
    have hnears : l.Nears keys (l.ask (r.key searcher.context.text)) :=
      ⟨hfewer.le, Nat.add_le_add_left hfewer.le _, rfl⟩
    have hfinished := hd.searchFinished (l := l.ask _) h hwave hv₁ hs hasked (by omega)
    exact hfinished.after hnears
  · refine .of_shows (shows_of_step hstep rfl) ?_
    have herrands : ((l.ask (r.key searcher.context.text)).enlist world request lookup).errands
        leads = l.errands leads := by
      rw [errands_enlist, Lookup.errand?, hpurpose]
      exact add_zero _
    rw [← herrands]
    exact .done (hasked.enlist world request lookup)
      (nears_enlist hkey hunmarked world request lookup)

theorem Unhindered.dispatches (h : Unhindered p leads keys start) (count : Nat) :
    Dispatches p leads keys start count := by
  induction count with
  | zero => exact fun _ _ _ _ _ _ _ _ hcount ↦ absurd hcount (Nat.not_lt_zero _)
  | succ count ihCount =>
    intro l value id searcher rest base hv hknows hcount
    induction rest generalizing l value with
    | nil => exact .of_shows (shows_of_step rfl rfl) (.done hknows (.refl keys l))
    | cons r rest ih =>
      obtain ⟨wave, hengaged⟩ :=
        ((hv.reachable h.reachable).sound p).engaged_of_dispatching rfl (not_falls_of_ok rfl)
      have hwave : l.wave = some wave := hengaged.active
      refine Settles.bind ?_ hv fun l' hv' hknows' hnears ↦
        ih hv' hknows' (Nat.lt_of_le_of_lt hnears.unmarked hcount)
      by_cases hmarked : r.key searcher.context.text ∈ l.cache.markers
      · have hstep : step p
            ⟨l, .returning (.ok value), .dispatching id searcher (r :: rest) :: base⟩ = _ :=
          continueDispatching_marked (m := ⟨l, _, base⟩) p hwave id rest hmarked
        have hnears : l.Nears keys (l.settle wave) := .of_same rfl rfl rfl
        have hsettles := h.closeWave_or_done (hstep ▸ hv.step) rfl (hknows.settle hwave)
        exact .of_shows (shows_of_step hstep rfl) (hsettles.after hnears)
      · exact ihCount.visit h hv hwave hknows hmarked hcount

end Machine

end ScriptLoader
