import ScriptLoader.Proofs.Shifts

/-!
# What the journal tells of waves

The journal is the only trace of waves that are over. From it one can tell what the active wave has
done so far, what waves did that were dropped, and what was done before everything was forgotten.
All three are lists of events, read off the journal from its latest event on.

## Lost keys

A reference is asked for once. When a wave is dropped, the references that it had asked for may
never be looked up again, though nothing is known of them: their keys are *lost*. A key is also lost
when it was asked for before a reset. A unit that had joined a wave that was dropped is *stranded*.

## Growth

No step takes anything out of the journal, so what is lost stays lost.
-/

namespace ScriptLoader

variable {ω χ : Type}

namespace Event

def dropsWave : Event → Bool
  | aborted _ | released => true
  | _ => false

/-- Whether a wave ends, in whichever way. -/
def endsWave : Event → Bool
  | closed _ | aborted _ | released => true
  | _ => false

/-- Whether an event matters for what the journal tells of waves. -/
def concernsWaves : Event → Bool
  | joined _ | searched _ | closed _ | aborted _ | reset | released => true
  | _ => false

theorem endsWave_of_dropsWave {e : Event} (h : e.dropsWave = true) : e.endsWave = true := by
  cases e <;> first | rfl | cases h

theorem not_endsWave {e : Event} (h : e.concernsWaves = false) : e.endsWave = false := by
  cases e <;> first | rfl | cases h

theorem not_concernsWaves {e : Event} (h : e.isQuiet = true) : e.concernsWaves = false := by
  cases e <;> first | rfl | cases h

end Event

/-! ## Parts of a journal -/

namespace Journal

variable {journal journal' : List Event} {e e' : Event}

/-- What has been done since a wave last ended. -/
def active : List Event → List Event
  | [] => []
  | e :: rest => if e.endsWave then [] else e :: active rest

/-- What waves had done that were dropped. -/
def dropped : List Event → List Event
  | [] => []
  | e :: rest => if e.dropsWave then active rest ++ dropped rest else dropped rest

/-- What was done before everything was last forgotten. -/
def forgotten : List Event → List Event
  | [] => []
  | .reset :: rest => rest
  | _ :: rest => forgotten rest

theorem active_cons_of_ends (h : e.endsWave = true) : active (e :: journal) = [] := by
  rw [active, if_pos h]

theorem active_cons (h : e.endsWave = false) : active (e :: journal) = e :: active journal := by
  rw [active, if_neg (by simp [h])]

theorem dropped_cons_of_drops (h : e.dropsWave = true) :
    dropped (e :: journal) = active journal ++ dropped journal := by
  rw [dropped, if_pos h]

theorem dropped_cons (h : e.dropsWave = false) : dropped (e :: journal) = dropped journal := by
  rw [dropped, if_neg (by simp [h])]

theorem mem_of_mem_active (h : e ∈ active journal) : e ∈ journal := by
  induction journal with
  | nil => exact h
  | cons head rest ih =>
    rw [active] at h
    split at h
    · cases h
    · rcases List.mem_cons.mp h with rfl | h
      · exact List.mem_cons_self
      · exact List.mem_cons_of_mem _ (ih h)

/-- An event that does not concern waves leaves the active part as good as it was. -/
theorem mem_active_cons_iff (hhead : e'.concernsWaves = false) (he : e.concernsWaves = true) :
    e ∈ active (e' :: journal) ↔ e ∈ active journal := by
  rw [active_cons (Event.not_endsWave hhead), List.mem_cons]
  refine ⟨fun h ↦ h.resolve_left ?_, Or.inr⟩
  rintro rfl
  rw [hhead] at he
  cases he

theorem mem_active_append_iff {events : List Event}
    (hevents : ∀ e ∈ events, e.concernsWaves = false) (he : e.concernsWaves = true) :
    e ∈ active (events ++ journal) ↔ e ∈ active journal := by
  induction events with
  | nil => rfl
  | cons head rest ih =>
    rw [List.cons_append, mem_active_cons_iff (hevents _ List.mem_cons_self) he,
      ih fun e h ↦ hevents e (List.mem_cons_of_mem _ h)]

theorem mem_append_iff {events : List Event} (hevents : ∀ e ∈ events, e.concernsWaves = false)
    (he : e.concernsWaves = true) : e ∈ events ++ journal ↔ e ∈ journal := by
  rw [List.mem_append]
  refine ⟨fun h ↦ h.resolve_left fun hmem ↦ ?_, Or.inr⟩
  rw [hevents e hmem] at he
  cases he

theorem dropped_mono (h : journal <:+ journal') : dropped journal ⊆ dropped journal' := by
  obtain ⟨events, rfl⟩ := h
  induction events with
  | nil => exact List.Subset.refl _
  | cons head rest ih =>
    rw [List.cons_append, dropped]
    split
    · exact List.subset_append_of_subset_right _ ih
    · exact ih

theorem forgotten_subset (journal : List Event) : forgotten journal ⊆ journal := by
  induction journal with
  | nil => exact List.Subset.refl _
  | cons head rest ih =>
    cases head with
    | reset => exact List.subset_cons_self _ _
    | _ => exact List.subset_cons_of_subset _ ih

theorem forgotten_subset_cons (e : Event) (journal : List Event) :
    forgotten journal ⊆ forgotten (e :: journal) := by
  cases e with
  | reset => exact forgotten_subset journal
  | _ => exact List.Subset.refl _

theorem forgotten_mono (h : journal <:+ journal') : forgotten journal ⊆ forgotten journal' := by
  obtain ⟨events, rfl⟩ := h
  induction events with
  | nil => exact List.Subset.refl _
  | cons head rest ih => exact List.Subset.trans ih (forgotten_subset_cons head _)

/-- A key that was asked for by a wave that was dropped, or before everything was forgotten. -/
def Lost (journal : List Event) (key : String) : Prop :=
  .searched key ∈ dropped journal ∨ .searched key ∈ forgotten journal

/-- A unit that joined a wave that was dropped. -/
def Stranded (journal : List Event) (id : UnitId) : Prop := .joined id ∈ dropped journal

theorem Lost.mono {key : String} (h : Lost journal key) (hsuffix : journal <:+ journal') :
    Lost journal' key :=
  h.imp (fun h ↦ dropped_mono hsuffix h) fun h ↦ forgotten_mono hsuffix h

theorem Stranded.mono {id : UnitId} (h : Stranded journal id) (hsuffix : journal <:+ journal') :
    Stranded journal' id :=
  dropped_mono hsuffix h

/-- All lookups of a key found the same file. -/
def Consistent (journal : List Event) : Prop :=
  ∀ ⦃key url url'⦄, .found key url ∈ journal → .found key url' ∈ journal → url = url'

theorem Consistent.of_suffix (h : Consistent journal') (hsuffix : journal <:+ journal') :
    Consistent journal :=
  fun _ _ _ hfound hfound' ↦ h (hsuffix.subset hfound) (hsuffix.subset hfound')

end Journal

/-! ## Growth -/

namespace Loader

variable {l l' : Loader ω χ}

theorem Quiet.logs (h : l.Quiet l') : l.journal <:+ l'.journal := by
  obtain ⟨events, heq, -⟩ := h.journal
  exact ⟨events, heq.symm⟩

theorem Shifts.logs (h : l.Shifts l') : l.journal <:+ l'.journal := by
  refine h.induct (R := fun l l' ↦ l.journal <:+ l'.journal) (fun _ ↦ List.suffix_refl _)
    List.IsSuffix.trans fun {l l'} hshift ↦ ?_
  cases hshift with
  | record => exact List.suffix_cons _ _
  | operation kind context => exact (l.quiet_operation kind context).logs
  | _ => exact List.suffix_refl _

theorem Shifts.keeps (h : l.Shifts l') : l.Keeps l' := by
  refine h.induct (fun l ↦ (Quiet.refl l).keeps) Keeps.trans fun {l l'} hshift ↦ ?_
  cases hshift with
  | status id status =>
    exact keeps_of_standing? (l.standing?_setStatus id · status) fun _ _ ↦ by split <;> simp
  | callbacks id change => exact l.keeps_modifyCallbacks id change
  | operation kind context => exact (l.quiet_operation kind context).keeps
  | aside | record | mark => exact fun _ s hs ↦ ⟨s, hs, rfl, rfl, rfl⟩

end Loader

namespace Machine

open Loader

/-- Nothing has been taken out of the journal or off the stack, and units declare what they did. -/
structure Extends (m m' : Machine ω χ) : Prop where
  logs : m.loader.journal <:+ m'.loader.journal
  keeps : m.loader.Keeps m'.loader
  stack : m.stack <:+ m'.stack

namespace Extends

variable {m m' m'' : Machine ω χ}

theorem trans (h : m.Extends m') (h' : m'.Extends m'') : m.Extends m'' :=
  ⟨h.logs.trans h'.logs, Keeps.trans h.keeps h'.keeps, h.stack.trans h'.stack⟩

theorem of_grows {popped : List (Frame ω χ)} (h : m.Grows popped m') : m.Extends m' := by
  obtain ⟨hquiet, pushed, hstack, -⟩ := h
  exact ⟨hquiet.logs, hquiet.keeps, pushed, hstack.symm⟩

theorem of_shifts (h : m.Shifts m') : m.Extends m' := by
  obtain ⟨hloader, pushed, hstack, -⟩ := h
  exact ⟨hloader.logs, hloader.keeps, pushed, hstack.symm⟩

theorem of_leads (h : m.Leads m') : m.Extends m' :=
  h.induct trans of_shifts fun m id ↦ .of_grows (grows_execute [] m id)

end Extends

variable (p : Platform ω χ) (m : Machine ω χ)

theorem extends_completeLookup (lookup : Lookup ω) : m.Extends (m.completeLookup p lookup) := by
  obtain ⟨world, answer, hleads⟩ := m.leads_completeLookup p lookup
  have hnoted := m.loader.shifts_noteFound world lookup.key answer
  have hquiet := quiet_unitOfAnswer p ({ m.loader with world }.noteFound lookup.key answer)
    lookup.locator lookup.origin answer
  have hlogs := hnoted.logs.trans hquiet.logs
  have hkeeps := Keeps.trans hnoted.keeps hquiet.keeps
  obtain ⟨l, e, heq, hleads⟩ | ⟨l, id, heq, hleads⟩ := hleads
  all_goals
    rw [heq] at hlogs hkeeps
    refine .trans ?_ (.of_leads hleads)
    exact ⟨hlogs, hkeeps, List.suffix_refl _⟩

theorem extends_drive (next : Awaited Unit → Code ω) : m.Extends (m.drive p next) := by
  obtain hshifts | ⟨n, lookup, hshifts, heq⟩ := m.leads_drive p next
  · exact .of_shifts hshifts
  · rw [heq]
    exact .trans (.of_shifts hshifts) (extends_completeLookup p n lookup)

/-- A turn takes at most the top frame off the stack. -/
theorem Turn.extends {m m' : Machine ω χ} (h : m.Turn p m') :
    m.Extends m' ∨ ∃ outcome frame base, m.control = .returning outcome ∧
      m.stack = frame :: base ∧ { m with stack := base }.Extends m' := by
  cases h with
  | halted => exact .inl (.of_shifts (.refl _))
  | code _ hgrows => exact .inl (.of_grows hgrows)
  | @load _ _ next =>
    have hpushed : m.Shifts (m.push (.resumeAfter next)) := .push m _ rfl
    exact .inl (.of_leads (.after hpushed (leads_loadDependencies _ p _ _)))
  | @importing _ _ _ next =>
    have hpushed : m.Shifts (m.push (.resumeAfter next)) := .push m _ rfl
    exact .inl (.of_leads (.after hpushed (leads_importFile _ p _ _ _)))
  | drive => exact .inl (extends_drive p m _)
  | reset =>
    exact .inl ⟨List.suffix_cons _ _, fun _ s hs ↦ ⟨s, hs, rfl, rfl, rfl⟩, List.suffix_refl _⟩
  | release => exact .inl (.of_shifts (.of_loader (m.loader.shifts_release p) rfl))
  | frame hcontrol hs _ hgrows => exact .inr ⟨_, _, _, hcontrol, hs, .of_grows hgrows⟩
  | driveOn hcontrol hs => exact .inr ⟨_, _, _, hcontrol, hs, extends_drive p _ _⟩
  | dispatch hcontrol hs =>
    exact .inr ⟨_, _, _, hcontrol, hs, .of_leads (leads_continueDispatching _ p _ _ _)⟩
  | drain hcontrol hs =>
    exact .inr ⟨_, _, _, hcontrol, hs, .of_leads (leads_continueDraining _ _ _ _)⟩
  | driveError hcontrol hs | abort hcontrol hs =>
    exact .inr ⟨_, _, _, hcontrol, hs, .of_shifts (.of_loader (m.loader.shifts_abort p _) rfl)⟩
  | dispatchError hcontrol hs | arrive hcontrol hs =>
    exact .inr ⟨_, _, _, hcontrol, hs, .of_shifts (.of_same rfl rfl)⟩
  | drainError hcontrol hs =>
    exact .inr ⟨_, _, _, hcontrol, hs, .of_shifts (.of_loader (m.loader.shifts_aside _ _ _) rfl)⟩

/-- **The journal only grows, and units declare what they did.** -/
theorem extends_step : m.loader.journal <:+ (m.step p).loader.journal ∧
    m.loader.Keeps (m.step p).loader := by
  rcases (step_turn p m).extends with h | ⟨outcome, frame, base, -, -, h⟩
  · exact ⟨h.logs, h.keeps⟩
  · exact ⟨h.logs, h.keeps⟩

end Machine

end ScriptLoader
