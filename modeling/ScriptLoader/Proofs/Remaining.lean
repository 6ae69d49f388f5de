import ScriptLoader.Proofs.Delivery

/-!
# What a failing callback leaves behind

When a wave is closed, all its units are loaded at once, and their callbacks are called after that,
unit by unit. A callback that returns an error ends this early. The units that come after it are
then loaded, and what waits for them keeps waiting: callbacks are only taken when a wave is closed,
and a loaded unit does not join another wave.

Nothing else makes a callback wait for a loaded unit. When no closed wave has callbacks to call any
more, a loaded unit has callbacks that wait exactly when it was cut off in this way while it had
some.
-/

namespace ScriptLoader

variable {ω χ : Type}

/-- The units of closed waves that are still to have their turn. -/
def Drain.turns (drains : List (Drain ω)) : List UnitId := drains.flatMap (·.rest)

theorem Drain.turns_opening (participants : List UnitId) (drains : List (Drain ω)) :
    turns (opening participants ++ drains) = participants ++ turns drains := by
  cases participants with
  | nil => rfl
  | cons first rest => rfl

namespace Loader

open Drain

/-- What waits for loaded units: they are still to have their turn, or their callbacks have been
left behind. -/
structure Remains (left : UnitId → List (Callback ω) → Prop) (l : Loader ω χ)
    (drains : List (Drain ω)) : Prop where
  distinct : l.participants.Nodup
  loading : ∀ id ∈ l.participants, l.status? id = some .loading
  apart : (turns drains).Nodup
  loaded : ∀ id ∈ turns drains, l.status? id = some .loaded
  waiting : ∀ {id}, l.status? id = some .loaded → l.queue id ≠ [] →
    id ∈ turns drains ∨ left id (l.queue id)
  /-- What has been left behind stays as it is. -/
  stays : ∀ {id callbacks}, left id callbacks →
    l.status? id = some .loaded ∧ l.queue id = callbacks ∧ id ∉ turns drains

namespace Remains

variable {left : UnitId → List (Callback ω) → Prop} {l l' : Loader ω χ} {drains : List (Drain ω)}
  {id next : UnitId} {s : Standing ω} {wave : Wave} {callbacks : List (Callback ω)}
  {rest : List UnitId}

/-- Whatever leaves the loaded units alone keeps what waits for them. -/
theorem of_loaded (h : l.Remains left drains) (hdistinct : l'.participants.Nodup)
    (hloading : ∀ id ∈ l'.participants, l'.status? id = some .loading)
    (hkept : ∀ {id}, l.status? id = some .loaded →
      l'.status? id = some .loaded ∧ l'.queue id = l.queue id)
    (hold : ∀ {id}, l'.status? id = some .loaded → l'.queue id ≠ [] →
      l.status? id = some .loaded) : l'.Remains left drains where
  distinct := hdistinct
  loading := hloading
  apart := h.apart
  loaded id hid := (hkept (h.loaded id hid)).1
  waiting hloaded hne := by
    obtain ⟨-, hqueue⟩ := hkept (hold hloaded hne)
    rw [hqueue] at hne ⊢
    exact h.waiting (hold hloaded (hqueue ▸ hne)) hne
  stays hleft := by
    obtain ⟨hloaded, hqueue, hturn⟩ := h.stays hleft
    exact ⟨(hkept hloaded).1, (hkept hloaded).2.trans hqueue, hturn⟩

theorem calm (h : l.Remains left drains) (hcalm : l.Calm l') : l'.Remains left drains := by
  refine h.of_loaded (hcalm.participants ▸ h.distinct) (fun id hid ↦ ?_)
    (fun hid ↦ ⟨hcalm.status?_eq hid, hcalm.queue _⟩) fun {id} hid hne ↦ ?_
  · exact hcalm.status?_eq (h.loading id (hcalm.participants ▸ hid))
  · -- nothing waits for a new unit
    rw [hcalm.queue] at hne
    cases hs : l.standing? id with
    | none => exact absurd (queue_of_unknown hs) hne
    | some s => rw [← hid, status?_eq hs, status?_eq (hcalm.known hs)]

theorem await (h : l.Remains left drains) (hs : l.standing? id = some s)
    (hstatus : s.status ≠ .loaded) (callback : Option (Callback ω)) :
    (l.await id callback).Remains left drains := by
  have hsame (other : UnitId) : (l.await id callback).status? other = l.status? other :=
    l.status?_modifyCallbacks id (· ++ callback.toList) other
  refine h.of_loaded h.distinct (fun other hother ↦ (hsame other).trans (h.loading other hother))
    (fun {other} hother ↦ ⟨(hsame other).trans hother, ?_⟩) fun hother _ ↦ (hsame _) ▸ hother
  rw [queue_await hs, if_neg]
  rintro rfl
  rw [status?_eq hs, Option.some.injEq] at hother
  exact hstatus hother

theorem beginWave (h : l.Remains left drains) (hs : l.standing? id = some s)
    (hstatus : s.status ≠ .loaded) (callback : Option (Callback ω)) :
    (l.beginWave id callback).Remains left drains := by
  have hawaited := h.await hs hstatus callback
  refine ⟨List.nodup_nil, ?_, hawaited.apart, hawaited.loaded, hawaited.waiting, hawaited.stays⟩
  rintro other ⟨⟩

theorem enroll (h : l.Remains left drains) (hs : l.standing? id = some s)
    (hunloaded : s.status = .unloaded) (hparticipants : l.participants = wave.participants)
    (dependencies : List Reference) : (l.enroll wave id dependencies).Remains left drains := by
  have hstatus : l.status? id = some .unloaded := hunloaded ▸ status?_eq hs
  have hother {other : UnitId} {status : LoadStatus} (hid : l.status? other = some status)
      (hne : status ≠ .unloaded) : (l.enroll wave id dependencies).status? other = some status := by
    rw [status?_enroll hs, if_neg, hid]
    rintro rfl
    rw [hid, Option.some.injEq] at hstatus
    exact hne hstatus
  have hnow : (l.enroll wave id dependencies).participants = l.participants ++ [id] := by
    rw [hparticipants]
    rfl
  refine h.of_loaded ?_ (fun other hmem ↦ ?_)
    (fun hloaded ↦ ⟨hother hloaded (by simp), queue_enroll _ _ _ _ _⟩) fun {other} hloaded _ ↦ ?_
  · rw [hnow]
    refine h.distinct.append (List.nodup_singleton id) (List.disjoint_singleton.mpr fun hid ↦ ?_)
    rw [h.loading id hid] at hstatus
    cases hstatus
  · rw [hnow, List.mem_append, List.mem_singleton] at hmem
    rcases hmem with hmem | rfl
    · exact hother (h.loading other hmem) (by simp)
    · rw [status?_enroll hs, if_pos rfl]
  · rw [status?_enroll hs] at hloaded
    split at hloaded
    case isTrue => cases hloaded
    case isFalse => exact hloaded

/-- All units of a wave that is closed are still to have their turn. -/
theorem close (h : l.Remains left drains) (hwave : l.wave = some wave) :
    (l.close wave).Remains left (opening wave.participants ++ drains) := by
  have hparticipants := participants_of_wave hwave
  have hnone : (l.close wave).participants = [] := by
    rw [participants, wave_close]
    rfl
  have hloaded {other : UnitId} (hid : l.status? other = some .loaded) :
      (l.close wave).status? other = some .loaded := by
    rw [status?_close, hid]
    simp
  have hdisjoint {other : UnitId} (hid : other ∈ wave.participants) :
      l.status? other ≠ some .loaded := by
    rw [h.loading other (hparticipants ▸ hid)]
    simp
  refine ⟨hnone ▸ List.nodup_nil, hnone ▸ by simp, ?_, ?_, fun {other} hid hne ↦ ?_,
    fun hleft ↦ ?_⟩
  · rw [turns_opening]
    exact (hparticipants ▸ h.distinct).append h.apart fun other hid hturn ↦
      hdisjoint hid (h.loaded other hturn)
  · rw [turns_opening]
    intro other hid
    rcases List.mem_append.mp hid with hid | hid
    · rw [status?_close, h.loading other (hparticipants ▸ hid)]
      simp [hid]
    · exact hloaded (h.loaded other hid)
  · rw [queue_close] at hne ⊢
    rw [turns_opening, List.mem_append]
    by_cases hmem : other ∈ wave.participants
    · exact .inl (.inl hmem)
    · have hbefore : l.status? other = some .loaded := by
        rw [status?_close] at hid
        simpa [hmem] using hid
      exact (h.waiting hbefore hne).imp_left .inr
  · obtain ⟨hbefore, hqueue, hturn⟩ := h.stays hleft
    rw [turns_opening, List.mem_append, queue_close]
    exact ⟨hloaded hbefore, hqueue, not_or.mpr ⟨fun hmem ↦ hdisjoint hmem hbefore, hturn⟩⟩

theorem drop (h : l.Remains left drains) (hunits : l'.units = l.units) (hwave : l'.wave = none) :
    l'.Remains left drains := by
  have hstatus (id : UnitId) : l'.status? id = l.status? id := by
    rw [status?, standing?_congr hunits, ← status?]
  have hnone : l'.participants = [] := by
    rw [participants, hwave]
    rfl
  exact h.of_loaded (hnone ▸ List.nodup_nil) (hnone ▸ by simp)
    (fun hid ↦ ⟨(hstatus _).trans hid, queue_congr hunits _⟩) fun hid _ ↦ hstatus _ ▸ hid

theorem take (h : l.Remains left (⟨id, [], next :: rest⟩ :: drains)) :
    (l.modifyUnit next fun unit ↦ { unit with callbacks := [] }).Remains left
      (⟨next, callbacks, rest⟩ :: drains) := by
  have hturns : turns (⟨id, [], next :: rest⟩ :: drains)
      = next :: turns (⟨next, callbacks, rest⟩ :: drains) := rfl
  have hsame (other : UnitId) := l.status?_modifyCallbacks next (fun _ ↦ []) other
  have hapart := h.apart
  have hloaded := h.loaded
  rw [hturns] at hapart hloaded
  rw [List.nodup_cons] at hapart
  refine ⟨h.distinct, fun other hid ↦ (hsame other).trans (h.loading other hid), hapart.2,
    fun other hid ↦ (hsame other).trans (hloaded other (List.mem_cons_of_mem _ hid)),
    fun {other} hid hne ↦ ?_, fun {other callbacks} hleft ↦ ?_⟩
  · have hother : other ≠ next := by
      rintro rfl
      exact hne (l.queue_take other)
    rw [l.queue_modifyCallbacks next (fun _ ↦ []) hother] at hne ⊢
    refine (h.waiting ((hsame other).symm.trans hid) hne).imp_left fun hturn ↦ ?_
    rw [hturns] at hturn
    exact (List.mem_cons.mp hturn).resolve_left hother
  · obtain ⟨hbefore, hqueue, hturn⟩ := h.stays hleft
    rw [hturns, List.mem_cons, not_or] at hturn
    rw [l.queue_modifyCallbacks next (fun _ ↦ []) hturn.1]
    exact ⟨(hsame other).trans hbefore, hqueue, hturn.2⟩

theorem cutOff (h : l.Remains left (⟨id, callbacks, rest⟩ :: drains)) :
    l.Remains (fun id callbacks ↦ (id ∈ rest ∧ l.queue id = callbacks) ∨ left id callbacks)
      drains := by
  have hturns : turns (⟨id, callbacks, rest⟩ :: drains) = rest ++ turns drains := rfl
  have hapart := h.apart
  have hloaded := h.loaded
  rw [hturns] at hapart hloaded
  refine ⟨h.distinct, h.loading, hapart.of_append_right,
    fun other hid ↦ hloaded other (List.mem_append_right _ hid), fun {other} hid hne ↦ ?_, ?_⟩
  · rcases h.waiting hid hne with hturn | hleft
    · rw [hturns, List.mem_append] at hturn
      exact hturn.symm.imp_right fun hmem ↦ .inl ⟨hmem, rfl⟩
    · exact .inr (.inr hleft)
  · rintro other callbacks (⟨hmem, hqueue⟩ | hleft)
    · exact ⟨hloaded other (List.mem_append_left _ hmem), hqueue,
        List.disjoint_of_nodup_append hapart hmem⟩
    · obtain ⟨hbefore, hqueue, hturn⟩ := h.stays hleft
      exact ⟨hbefore, hqueue, fun hid ↦ hturn (hturns ▸ List.mem_append_right _ hid)⟩

/-- What the loader does to waves and waiting callbacks. -/
theorem serve {given : UnitId → Callback ω → Prop} {opened : List (Drain ω)}
    (h : l.Remains left drains) (hserves : l.Serves given l' opened) :
    l'.Remains left (opened ++ drains) := by
  cases hserves with
  | calm calm => exact h.calm calm
  | keep before known loading => exact (h.calm before).await known (by simp [loading]) _
  | @begin _ _ id s callback before known unloaded _ _ after =>
    have hbegun := (h.calm before).beginWave known (by simp [unloaded]) callback
    exact (hbegun.enroll (standing?_await_self known _) unloaded rfl _).calm after
  | join before active known unloaded after =>
    exact ((h.calm before).enroll known unloaded (participants_of_wave active) _).calm after
  | close before active => exact (h.calm before).close active
  | drop _ _ before units none => exact (h.calm before).drop units none

end Remains

end Loader

namespace Machine

open Loader

variable {p : Platform ω χ} {m m' : Machine ω χ} {earlier : List (Machine ω χ)}

/-- The units of a closed wave that do not have their turn, because a callback has returned an
error. -/
def cutOff (m : Machine ω χ) : List UnitId :=
  match m.control, m.stack with
  | .returning (.error _), .draining _ _ rest :: _ => rest
  | _, _ => []

theorem cutOff_eq_nil (h : m.failsCallback = false) : m.cutOff = [] := by
  rw [failsCallback] at h
  rw [cutOff]
  split
  case h_1 hcontrol hstack => simp [hcontrol, hstack] at h
  case h_2 => rfl

/-- An error of a callback ends the innermost drain, and leaves callbacks alone. -/
theorem of_failsCallback (p : Platform ω χ) (h : m.failsCallback = true) :
    ∃ id callbacks, m.drains = ⟨id, callbacks, m.cutOff⟩ :: (m.step p).drains ∧
      m.loader.Calm (m.step p).loader := by
  rw [failsCallback] at h
  split at h
  case h_1 e id callbacks rest base hcontrol hstack =>
    have hcut : m.cutOff = rest := by rw [cutOff, hcontrol, hstack]
    have hstep : m.step p = (({ m with stack := base }.update
        (·.endImports p (callbacks.countP Callback.isImport))).throw e) := by
      rw [step, hcontrol, hstack]
      rfl
    rw [hcut, hstep, drains, hstack]
    exact ⟨id, callbacks, rfl, .of_quiet (quiet_endImports p _ _)⟩
  case h_2 => cases h

variable {left : UnitId → List (Callback ω) → Prop}

/-- A step keeps what waits for loaded units, unless a callback has failed. -/
theorem Handles.remains (hhandles : m.Handles m') (h : m.loader.Remains left m.drains)
    (hfine : m.failsCallback = false) : m'.loader.Remains left m'.drains := by
  cases hhandles with
  | serve _ serves =>
    obtain ⟨opened, hserves, hdrains⟩ := serves
    rw [hdrains]
    exact h.serve hserves
  | call _ before after calm =>
    rw [before] at h
    have hcalled := h.calm calm
    rw [after]
    exact ⟨hcalled.distinct, hcalled.loading, hcalled.apart, hcalled.loaded, hcalled.waiting,
      hcalled.stays⟩
  | take _ before after loader =>
    rw [before] at h
    rw [after, loader]
    exact h.take
  | finish _ before after loader =>
    rw [before] at h
    rw [after, loader]
    exact ⟨h.distinct, h.loading, h.apart, h.loaded, h.waiting, h.stays⟩
  | fail failed =>
    rw [hfine] at failed
    cases failed

/-- What has been left behind in a run: the callbacks that waited for a unit when it was cut off. -/
def LeftBehind (earlier : List (Machine ω χ)) (id : UnitId) (callbacks : List (Callback ω)) :
    Prop :=
  ∃ m ∈ earlier, id ∈ m.cutOff ∧ m.loader.queue id = callbacks

theorem leftBehind_cons (m : Machine ω χ) (earlier : List (Machine ω χ)) (id : UnitId)
    (callbacks : List (Callback ω)) :
    LeftBehind (m :: earlier) id callbacks ↔
      (id ∈ m.cutOff ∧ m.loader.queue id = callbacks) ∨ LeftBehind earlier id callbacks := by
  rw [LeftBehind, LeftBehind, List.exists_mem_cons_iff]

theorem leftBehind_of_fine (hcut : m.cutOff = []) :
    LeftBehind (m :: earlier) = LeftBehind earlier := by
  funext id callbacks
  simp [leftBehind_cons, hcut]

theorem remains_of_fresh {l : Loader ω χ} (h : l.IsFresh) :
    l.Remains (LeftBehind ([] : List (Machine ω χ))) [] := by
  have hparticipants : l.participants = [] := by
    rw [participants, h.wave]
    rfl
  have hqueue (id : UnitId) : l.queue id = [] := queue_of_unknown (h.standing? id)
  refine ⟨hparticipants ▸ List.nodup_nil, hparticipants ▸ by simp, List.nodup_nil, ?_,
    fun _ hne ↦ absurd (hqueue _) hne, ?_⟩
  · rintro id ⟨⟩
  · rintro id callbacks ⟨m, ⟨⟩, -⟩

/-- **In every run, what waits for a loaded unit has its turn to come or has been left behind.** -/
theorem History.remains (h : History p (m :: earlier)) :
    m.loader.Remains (LeftBehind earlier) m.drains := by
  generalize heq : m :: earlier = machines at h
  induction h generalizing m earlier with
  | start fresh code =>
    cases heq
    exact remains_of_fresh fresh
  | @step m' earlier _ ih =>
    cases heq
    cases hfails : m'.failsCallback with
    | false =>
      rw [leftBehind_of_fine (cutOff_eq_nil hfails)]
      exact (step_handles p m').remains (ih rfl) hfails
    | true =>
      obtain ⟨id, callbacks, hdrains, hcalm⟩ := of_failsCallback p hfails
      have hbefore := ih rfl
      rw [hdrains] at hbefore
      have hcut := hbefore.cutOff.calm hcalm
      rwa [← show LeftBehind (m' :: earlier) = _ from
        funext₂ fun id callbacks ↦ propext (leftBehind_cons m' earlier id callbacks)] at hcut
  | @again m' earlier _ halted code ih =>
    cases heq
    obtain ⟨outcome, -, hstack⟩ := exists_of_isHalted halted
    have hcut : m'.cutOff = [] := by
      rw [cutOff, hstack]
      split
      case h_1 heq => cases heq
      case h_2 => rfl
    rw [leftBehind_of_fine hcut]
    have hbefore : m'.loader.Remains (LeftBehind earlier) m'.drains := ih rfl
    exact hbefore

/-- **What waits for a loaded unit was left behind by a failing callback.** Whenever no closed wave
has callbacks to call any more, a unit that is loaded has no callback that waits exactly if it had
none each time it was cut off by an error. Units that are cut off are loaded, and keep what waits
for them for good. -/
theorem History.waits_iff_cut_off (h : History p (m :: earlier)) :
    (m.drains = [] → ∀ id seen, m.loader.view.unit? id = some seen → seen.info.status = .loaded →
      (seen.pendingCallbacks = 0 ↔ ∀ m' ∈ earlier, id ∈ m'.cutOff → m'.loader.queue id = [])) ∧
    ∀ m' ∈ earlier, ∀ id ∈ m'.cutOff,
      m.loader.isLoaded id = true ∧ m.loader.queue id = m'.loader.queue id := by
  have hremains := h.remains
  refine ⟨fun hdrains id seen hseen hloaded ↦ ?_, fun m' hm' id hid ↦ ?_⟩
  · obtain ⟨unit, hunit, rfl⟩ := Option.map_eq_some_iff.mp hseen
    have hs := standing?_of_unit? hunit
    have hstatus : m.loader.status? id = some .loaded := (status?_eq hs).trans (congrArg _ hloaded)
    have hcount : unit.view.pendingCallbacks = (m.loader.queue id).length := by
      rw [queue_of_standing? hs]
      rfl
    rw [hcount, List.length_eq_zero_iff]
    refine ⟨fun hempty m' hm' hid ↦ ?_, fun hcut ↦ ?_⟩
    · obtain ⟨-, hqueue, -⟩ := hremains.stays ⟨m', hm', hid, rfl⟩
      rw [← hqueue, hempty]
    · by_contra hne
      rcases hremains.waiting hstatus hne with hturn | ⟨m', hm', hid, hqueue⟩
      · rw [hdrains] at hturn
        cases hturn
      · exact hne (hqueue.symm.trans (hcut m' hm' hid))
  · obtain ⟨hstatus, hqueue, -⟩ := hremains.stays ⟨m', hm', hid, rfl⟩
    exact ⟨isLoaded_iff.mpr (Option.map_eq_some_iff.mp hstatus), hqueue⟩

/-- Two files refer to each other. While the first is being loaded for a callback that fails, the
second is imported: the import waits for it when the wave is closed. -/
def importCutOff : List (Machine (List Request) Unit) :=
  let stopped : Code (List Request) := .finish (.error .detached)
  let code : Code (List Request) := .openUnit (.file "/a".toList) fun
    | .settled (.ok id) => .operation .importer (.file "/".toList) fun importer ↦
      .importFile importer ⟨"b", true⟩ none fun _ ↦
        .loadDependencies id (some stopped) fun _ ↦ .drive fun _ ↦ .finish (.ok .undefined)
    | _ => stopped
  let pick (tickets : List Ticket) : Option Ticket :=
    if tickets.contains 2 then some 2 else tickets.head?
  prolong (Project.pair.platform pick) 20
    [{ loader := { world := [], base := .file "/".toList }, control := .running code }]

/-- At the end both files are loaded, and the import still waits for the second. -/
theorem waits_iff_cut_off_importCutOff : ∃ m earlier, importCutOff = m :: earlier ∧
    m.isHalted = true ∧
    (m.loader.view.unit? 1).map (fun seen ↦ (seen.info.status, seen.pendingCallbacks))
      = some (.loaded, 1) ∧
    ∃ m' ∈ earlier, 1 ∈ m'.cutOff ∧ m'.loader.queue 1 ≠ [] := by
  have hhistory : ∃ p : Platform (List Request) Unit, History p importCutOff :=
    ⟨_, (History.start (isFresh_mk _ _) _).prolong _⟩
  obtain ⟨p, hhistory⟩ := hhistory
  have hended : (importCutOff.head?.any fun m ↦ m.isHalted &&
      (m.loader.view.unit? 1).map (fun seen ↦ (seen.info.status, seen.pendingCallbacks))
        = some (.loaded, 1)) = true := by decide +kernel
  generalize importCutOff = machines at hhistory hended ⊢
  obtain _ | ⟨m, earlier⟩ := machines
  · cases hhistory
  simp only [List.head?_cons, Option.any_some, Bool.and_eq_true, decide_eq_true_eq] at hended
  obtain ⟨hhalted, hseen⟩ := hended
  obtain ⟨-, -, hstack⟩ := exists_of_isHalted hhalted
  have hdrains : m.drains = [] := by
    rw [drains, hstack]
    rfl
  refine ⟨m, earlier, rfl, hhalted, hseen, ?_⟩
  obtain ⟨seen, hunit, heq⟩ := Option.map_eq_some_iff.mp hseen
  obtain ⟨hloaded, hcount⟩ := Prod.mk.inj heq
  have hiff := (History.waits_iff_cut_off hhistory).1 hdrains 1 seen hunit hloaded
  by_contra hnone
  have hzero : seen.pendingCallbacks = 0 := by
    refine hiff.mpr fun m' hm' hid ↦ ?_
    by_contra hne
    exact hnone ⟨m', hm', hid, hne⟩
  rw [hcount] at hzero
  cases hzero

end Machine

end ScriptLoader
