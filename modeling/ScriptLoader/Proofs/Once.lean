import ScriptLoader.Proofs.Barrier
import ScriptLoader.Proofs.Moves
import ScriptLoader.Proofs.Remaining

/-!
# What a loader does once

A unit joins a wave once, since its status moves on when it does and never moves back. A reference
is searched for a wave once, since its key is marked when it is; only a reset takes marks away. The
marks are those of the searches since the last reset.

These are invariants of moves. The tables and the frames have theirs as well: a reference that led
to a unit found a file of the URL under which the unit is filed, and the references that a frame
dispatches are declared by its unit.
-/

namespace ScriptLoader

variable {ω χ : Type}

/-! ## Joins and searches -/

namespace Journal

/-- The units that have joined a wave, the latest first. -/
def joins (journal : List Event) : List UnitId :=
  journal.filterMap fun
    | .joined id => some id
    | _ => none

/-- The keys of the references that have been searched for a wave, the latest first. -/
def searches (journal : List Event) : List String :=
  journal.filterMap fun
    | .searched key => some key
    | _ => none

/-- What has been done since everything was last forgotten. -/
def recent (journal : List Event) : List Event := journal.takeWhile (· ≠ .reset)

variable {journal events : List Event} {key : String}

theorem joins_append (events journal : List Event) :
    joins (events ++ journal) = joins events ++ joins journal :=
  List.filterMap_append

theorem searches_append (events journal : List Event) :
    searches (events ++ journal) = searches events ++ searches journal :=
  List.filterMap_append

theorem mem_searches : key ∈ searches journal ↔ .searched key ∈ journal := by
  rw [searches, List.mem_filterMap]
  constructor
  · rintro ⟨e, he, heq⟩
    cases e <;> cases heq
    exact he
  · exact fun h ↦ ⟨_, h, rfl⟩

theorem joins_of_minor (h : ∀ e ∈ events, e.isMinor = true) : joins events = [] := by
  rw [joins, List.filterMap_eq_nil_iff]
  intro e he
  have := h e he
  cases e <;> first | rfl | cases this

theorem searches_of_minor (h : ∀ e ∈ events, e.isMinor = true) : searches events = [] := by
  rw [searches, List.filterMap_eq_nil_iff]
  intro e he
  have := h e he
  cases e <;> first | rfl | cases this

theorem ne_reset_of_minor (h : ∀ e ∈ events, e.isMinor = true) : ∀ e ∈ events, e ≠ .reset := by
  rintro e he rfl
  cases h _ he

theorem recent_append (h : ∀ e ∈ events, e ≠ .reset) :
    recent (events ++ journal) = events ++ recent journal :=
  List.takeWhile_append_of_pos fun e he ↦ decide_eq_true (h e he)

theorem recent_cons {e : Event} (h : e ≠ .reset) : recent (e :: journal) = e :: recent journal :=
  List.takeWhile_cons_of_pos (decide_eq_true h)

theorem recent_reset : recent (.reset :: journal) = [] := rfl

/-- What was not yet searched when a reference was, since the last reset. -/
def SearchesOnce (journal : List Event) : Prop :=
  ∀ ⦃key before⦄, .searched key :: before <:+ journal → .searched key ∉ recent before

namespace SearchesOnce

theorem nil : SearchesOnce [] := fun _ _ h ↦ by cases List.suffix_nil.mp h

/-- What is no search may be done at any time. -/
theorem append (h : SearchesOnce journal) (events : List Event) (hevents : searches events = []) :
    SearchesOnce (events ++ journal) := by
  induction events with
  | nil => exact h
  | cons e rest ih =>
    have hrest : searches ([e] ++ rest) = [] := hevents
    rw [searches_append, List.append_eq_nil_iff] at hrest
    intro key before hsuffix
    rcases List.suffix_cons_iff.mp hsuffix with heq | hsuffix
    · rw [List.cons.injEq] at heq
      rw [← heq.1] at hrest
      cases hrest.1
    · exact ih hrest.2 hsuffix

theorem search (h : SearchesOnce journal) (hkey : .searched key ∉ recent journal) :
    SearchesOnce (.searched key :: journal) := by
  intro other before hsuffix
  rcases List.suffix_cons_iff.mp hsuffix with heq | hsuffix
  · cases heq
    exact hkey
  · exact h hsuffix

theorem nodup (h : SearchesOnce journal) {stretch earlier : List Event}
    (hsuffix : stretch ++ earlier <:+ journal) (hreset : .reset ∉ stretch) :
    (searches stretch).Nodup := by
  induction stretch with
  | nil => exact List.nodup_nil
  | cons e rest ih =>
    rw [List.mem_cons, not_or] at hreset
    have hrest := ih ((List.suffix_cons e _).trans hsuffix) hreset.2
    have hcons : searches (e :: rest) = searches [e] ++ searches rest := searches_append [e] rest
    rw [hcons]
    cases e with
    | searched key =>
      have hrecent : recent (rest ++ earlier) = rest ++ recent earlier :=
        recent_append fun e he heq ↦ hreset.2 (heq ▸ he)
      have hkey : .searched key ∉ rest ++ recent earlier := hrecent ▸ h hsuffix
      exact List.nodup_cons.mpr
        ⟨fun hmem ↦ hkey (List.mem_append_left _ (mem_searches.mp hmem)), hrest⟩
    | _ => exact hrest

end SearchesOnce

end Journal

namespace Loader

theorem OperationsBound.ask {l : Loader ω χ} (h : l.OperationsBound) (key : String) :
    (l.ask key).OperationsBound := by
  have hoperations : (l.ask key).cache.operations = l.cache.operations :=
    ResolutionCache.operations_mark _ _
  rw [OperationsBound, hoperations]
  exact h

end Loader

/-! ## What moves do -/

namespace Move

open Loader Journal

variable {p : Platform ω χ} {allowed : Deed → Prop} {a b : Scene ω χ}

theorem standing (h : Move p allowed a b) {id : UnitId} {s : Standing ω}
    (hs : a.loader.standing? id = some s) :
    ∃ s', b.loader.standing? id = some s' ∧ s.Precedes s' := by
  have hunits {l' : Loader ω χ} (hunits : l'.units = a.loader.units) :
      ∃ s', l'.standing? id = some s' ∧ s.Precedes s' :=
    ⟨s, (standing?_congr hunits id).trans hs, .refl s⟩
  cases h with
  | bide bides => exact bides.standing hs
  | @await l _ other _ callback =>
    have hawaited := l.standing?_modifyCallbacks other (· ++ callback.toList) id
    rw [hs, Option.map_some] at hawaited
    refine ⟨_, hawaited, ?_⟩
    split <;> exact ⟨rfl, rfl, rfl, Nat.le_refl _⟩
  | begin => exact hunits rfl
  | @join l _ wave joined st active known unloaded =>
    have henrolled := l.standing?_enroll wave joined st.dependencies id
    rw [hs, Option.map_some] at henrolled
    refine ⟨_, (standing?_congr (units_operation _ .searcher st.directory) id).trans henrolled, ?_⟩
    split
    case isTrue heq =>
      rw [← heq, known, Option.some.injEq] at hs
      refine ⟨rfl, rfl, rfl, ?_⟩
      rw [← hs, unloaded]
      exact Nat.zero_le _
    case isFalse => exact .refl s
  | skip => exact hunits rfl
  | ask => exact hunits rfl
  | lookUp => exact hunits rfl
  | lookUpImport => exact hunits rfl
  | learn => exact hunits rfl
  | reset => exact hunits rfl

/-- What a move adds to the journal, and to the marks. -/
inductive Logs (allowed : Deed → Prop) (l l' : Loader ω χ) : Prop
  | minor (events) (journal : l'.journal = events ++ l.journal)
      (minor : ∀ e ∈ events, e.isMinor = true) (markers : l'.cache.markers = l.cache.markers)
  | joined {id s s'} (journal : l'.journal = .joined id :: l.journal)
      (markers : l'.cache.markers = l.cache.markers) (before : l.standing? id = some s)
      (unloaded : s.status = .unloaded) (after : l'.standing? id = some s')
      (loading : s'.status = .loading)
  | searched {key} (events) (journal : l'.journal = events ++ .searched key :: l.journal)
      (minor : ∀ e ∈ events, e.isMinor = true) (unmarked : key ∉ l.cache.markers)
      (markers : l'.cache.markers = key :: l.cache.markers)
  | reset (journal : l'.journal = .reset :: l.journal) (reason : allowed .resets)

theorem logs (h : Move p allowed a b) : Logs allowed a.loader b.loader := by
  cases h with
  | bide bides =>
    obtain ⟨events, heq, hminor⟩ := bides.journal
    exact .minor events heq hminor bides.markers
  | await => exact .minor [] rfl (by simp) rfl
  | begin => exact .minor [] rfl (by simp) rfl
  | @join l _ wave id s active known unloaded =>
    have hstanding : ((l.enroll wave id s.dependencies).operation .searcher
        s.directory).1.standing? id = some { s with status := .loading } := by
      rw [standing?_congr (units_operation _ .searcher s.directory), standing?_enroll, known,
        Option.map_some, if_pos rfl]
    exact .joined (journal_operation _ .searcher s.directory)
      (quiet_operation _ .searcher s.directory).markers known unloaded hstanding rfl
  | skip => exact .minor [] rfl (by simp) rfl
  | ask unmarked =>
    exact .searched [] rfl (by simp) unmarked (ResolutionCache.markers_mark _ unmarked)
  | lookUp unmarked =>
    exact .searched [_] rfl (by simp [Event.isMinor]) unmarked
      (ResolutionCache.markers_mark _ unmarked)
  | lookUpImport => exact .minor [_] rfl (by simp [Event.isMinor]) rfl
  | learn => exact .minor [] rfl (by simp) rfl
  | reset reason => exact .reset rfl reason

theorem results (h : Move p allowed a b) {key : String} {id : UnitId}
    (hresult : b.loader.cache.result? key = some id) :
    a.loader.cache.result? key = some id ∨ allowed .completes ∧ ∃ world ticket resource,
      (p.resolver.answer world ticket).2 = .ok (some resource) ∧
        b.loader.cache.unit? resource.url = some id := by
  cases h with
  | bide bides =>
    rw [ResolutionCache.result?, bides.results] at hresult
    exact .inl hresult
  | await => exact .inl hresult
  | begin => exact .inl hresult
  | @join l _ wave _ s =>
    rw [(quiet_operation (l.enroll wave _ s.dependencies) .searcher s.directory).result?] at hresult
    exact .inl hresult
  | skip => exact .inl hresult
  | ask | lookUp => exact .inl ((ResolutionCache.result?_mark _ _ _).symm.trans hresult)
  | lookUpImport => exact .inl hresult
  | @learn l _ learned found _ _ resource reason answered filed =>
    have hinserted := ResolutionCache.result?_insertResult l.cache learned key found
    rw [hinserted] at hresult
    split at hresult
    case isTrue =>
      cases hresult
      exact .inr ⟨reason, _, _, resource, answered, filed⟩
    case isFalse => exact .inl hresult
  | reset => cases hresult

theorem filed (h : Move p allowed a b) :
    (∀ {url id}, a.loader.cache.unit? url = some id → b.loader.cache.unit? url = some id) ∨
      allowed .resets ∧ b.loader.cache = {} := by
  cases h with
  | bide bides => exact .inl bides.filed
  | await => exact .inl id
  | begin => exact .inl id
  | @join l _ wave _ s =>
    exact .inl (quiet_operation (l.enroll wave _ s.dependencies) .searcher s.directory).filed
  | skip => exact .inl id
  | ask | lookUp => exact .inl ((ResolutionCache.unit?_mark _ _ _).trans ·)
  | lookUpImport => exact .inl id
  | learn => exact .inl id
  | reset reason => exact .inr ⟨reason, rfl⟩

end Move

/-! ## How the status moves -/

/-- What the status of a unit may be after one step. -/
inductive LoadStatus.Next : LoadStatus → LoadStatus → Prop
  | same (status) : Next status status
  | join : Next unloaded loading
  | close : Next loading loaded

section

open Loader

variable {l l' : Loader ω χ} {left : UnitId → List (Callback ω) → Prop} {drains : List (Drain ω)}
  {id : UnitId} {status : LoadStatus}

/-- A unit that joins has been unloaded, and then it is being loaded. -/
theorem Loader.status?_enroll_next {s : Standing ω} {other : UnitId}
    (hs : l.standing? other = some s) (hunloaded : s.status = .unloaded)
    (hid : l.status? id = some status) (wave : Wave) (dependencies : List Reference) :
    ∃ status', (l.enroll wave other dependencies).status? id = some status' ∧
      status.Next status' := by
  rw [status?_enroll hs]
  split
  case isTrue heq =>
    rw [heq, Loader.status?_eq hs, hunloaded] at hid
    cases hid
    exact ⟨_, rfl, .join⟩
  case isFalse => exact ⟨status, hid, .same status⟩

/-- A wave that is closed consists of units that are being loaded. -/
theorem Loader.Remains.status_next {given : UnitId → Callback ω → Prop} {opened : List (Drain ω)}
    (h : l.Remains left drains) (hserves : l.Serves given l' opened)
    (hid : l.status? id = some status) :
    ∃ status', l'.status? id = some status' ∧ status.Next status' := by
  cases hserves with
  | calm calm => exact ⟨status, calm.status?_eq hid, .same status⟩
  | @keep l' other _ callback before =>
    have hsame := l'.status?_modifyCallbacks other (· ++ callback.toList) id
    exact ⟨status, hsame.trans (before.status?_eq hid), .same status⟩
  | @begin l₁ _ other _ callback before known unloaded _ _ after =>
    have hsame := l₁.status?_modifyCallbacks other (· ++ callback.toList) id
    have hbegun : (l₁.beginWave other callback).status? id = some status :=
      hsame.trans (before.status?_eq hid)
    obtain ⟨status', hid', hnext⟩ :=
      status?_enroll_next (standing?_await_self known callback) unloaded hbegun {} _
    exact ⟨status', after.status?_eq hid', hnext⟩
  | join before _ known unloaded after =>
    obtain ⟨status', hid', hnext⟩ :=
      status?_enroll_next known unloaded (before.status?_eq hid) _ _
    exact ⟨status', after.status?_eq hid', hnext⟩
  | close before active =>
    have hbefore := before.status?_eq hid
    rw [status?_close, hbefore]
    refine ⟨_, rfl, ?_⟩
    split
    case isTrue hmem =>
      rw [(h.calm before).loading id (participants_of_wave active ▸ hmem)] at hbefore
      cases hbefore
      exact .close
    case isFalse => exact .same status
  | drop _ _ before units =>
    have hsame : l'.status? id = _ := congrArg (Option.map _) (standing?_congr units id)
    exact ⟨status, hsame.trans (before.status?_eq hid), .same status⟩

/-- **The status of a unit moves from unloaded to loading and from there to loaded.** -/
theorem Machine.Reachable.status_next {p : Platform ω χ} {m : Machine ω χ} (h : m.Reachable p)
    (hid : m.loader.status? id = some status) :
    ∃ status', (m.step p).loader.status? id = some status' ∧ status.Next status' := by
  obtain ⟨earlier, hhistory⟩ := h.exists_history
  have hremains := hhistory.remains
  have hkept {l' : Loader ω χ} (hl' : m.loader.Calm l') :
      ∃ status', l'.status? id = some status' ∧ status.Next status' :=
    ⟨status, hl'.status?_eq hid, .same status⟩
  cases Machine.step_handles p m with
  | serve _ serves =>
    obtain ⟨opened, hserves, -⟩ := serves
    exact hremains.status_next hserves hid
  | call _ _ _ calm | fail _ calm => exact hkept calm
  | @take _ next _ _ _ _ _ loader =>
    have hsame := m.loader.status?_modifyCallbacks next (fun _ ↦ []) id
    rw [loader]
    exact ⟨status, hsame.trans hid, .same status⟩
  | finish _ _ _ loader =>
    rw [loader]
    exact hkept (.refl _)

end

/-! ## What is done once -/

/-- What the journal tells of joins and searches agrees with the units and the marks. -/
structure Loader.Once (l : Loader ω χ) : Prop where
  joined : ∀ {id}, id ∈ Journal.joins l.journal →
    ∃ s, l.standing? id = some s ∧ s.status ≠ .unloaded
  joins : (Journal.joins l.journal).Nodup
  searched : ∀ {key}, .searched key ∈ Journal.recent l.journal → key ∈ l.cache.markers
  searches : Journal.SearchesOnce l.journal

/-- The references that frames dispatch are declared by their units. -/
structure Scene.Fits (scene : Scene ω χ) : Prop where
  bound : scene.loader.OperationsBound
  declares : ∀ {id searcher rest}, .dispatching id searcher rest ∈ scene.stack →
    scene.loader.Declares id searcher rest

theorem Scene.Fits.of_fresh {l : Loader ω χ} (h : l.IsFresh) : Scene.Fits ⟨l, []⟩ := by
  refine ⟨?_, by simp⟩
  intro kind text operation hoperation
  rw [h.cache] at hoperation
  cases hoperation

/-- A unit is that of some URL. -/
def Loader.Filed (l : Loader ω χ) (id : UnitId) : Prop := ∃ url, l.cache.unit? url = some id

/-- What a reference has led to is the unit of some URL. -/
def Loader.Registered (l : Loader ω χ) : Prop :=
  ∀ {key id}, l.cache.result? key = some id → l.Filed id

namespace Move

open Loader Journal

variable {p : Platform ω χ} {allowed : Deed → Prop} {a b : Scene ω χ}

theorem keeps (h : Move p allowed a b) : a.loader.Keeps b.loader := by
  intro id s hs
  obtain ⟨s', hs', hprecedes⟩ := h.standing hs
  exact ⟨s', hs', hprecedes.url, hprecedes.directory, hprecedes.dependencies⟩

theorem once (h : Move p allowed a b) (ha : a.loader.Once) : b.loader.Once := by
  have hjoined {id : UnitId} (hid : id ∈ joins a.loader.journal) :
      ∃ s, b.loader.standing? id = some s ∧ s.status ≠ .unloaded := by
    obtain ⟨s, hs, hstatus⟩ := ha.joined hid
    obtain ⟨s', hs', hprecedes⟩ := h.standing hs
    refine ⟨s', hs', fun hunloaded ↦ hstatus ?_⟩
    have hrank := hprecedes.status
    rw [hunloaded] at hrank
    cases hstatus' : s.status with
    | unloaded => rfl
    | loading | loaded =>
      rw [hstatus'] at hrank
      cases hrank
  -- only a move that joins, searches or resets needs more than what was there before
  cases h.logs with
  | minor events journal minor markers =>
    have hsame : joins b.loader.journal = joins a.loader.journal := by
      rw [journal, joins_append, joins_of_minor minor, List.nil_append]
    refine ⟨fun hid ↦ hjoined (hsame ▸ hid), hsame ▸ ha.joins, fun hkey ↦ ?_, ?_⟩
    · rw [journal, recent_append (ne_reset_of_minor minor), List.mem_append] at hkey
      rw [markers]
      exact ha.searched (hkey.resolve_left fun hmem ↦ nomatch minor _ hmem)
    · rw [journal]
      exact ha.searches.append events (searches_of_minor minor)
  | @joined id s s' journal markers before unloaded after loading =>
    have hjoins : joins b.loader.journal = id :: joins a.loader.journal := by
      rw [journal]
      rfl
    refine ⟨fun {other} hother ↦ ?_, ?_, fun hkey ↦ ?_, ?_⟩
    · rw [hjoins, List.mem_cons] at hother
      rcases hother with rfl | hother
      · exact ⟨s', after, by simp [loading]⟩
      · exact hjoined hother
    · rw [hjoins, List.nodup_cons]
      refine ⟨fun hid ↦ ?_, ha.joins⟩
      obtain ⟨s₀, hs₀, hstatus⟩ := ha.joined hid
      rw [before, Option.some.injEq] at hs₀
      exact hstatus (hs₀ ▸ unloaded)
    · rw [journal, recent_cons (by simp), List.mem_cons] at hkey
      rw [markers]
      exact ha.searched (hkey.resolve_left (by simp))
    · rw [journal]
      exact ha.searches.append [.joined id] rfl
  | @searched key events journal minor unmarked markers =>
    have hsame : joins b.loader.journal = joins a.loader.journal := by
      rw [journal, joins_append, joins_of_minor minor]
      rfl
    refine ⟨fun hid ↦ hjoined (hsame ▸ hid), hsame ▸ ha.joins, fun {other} hother ↦ ?_, ?_⟩
    · rw [journal, recent_append (ne_reset_of_minor minor), List.mem_append,
        recent_cons (by simp), List.mem_cons] at hother
      rw [markers]
      rcases hother with hmem | heq | hother
      · cases minor _ hmem
      · cases heq
        exact List.mem_cons_self
      · exact List.mem_cons_of_mem _ (ha.searched hother)
    · rw [journal]
      have hnew : .searched key ∉ recent a.loader.journal := fun hkey ↦ unmarked (ha.searched hkey)
      exact (ha.searches.search hnew).append events (searches_of_minor minor)
  | reset journal =>
    have hsame : joins b.loader.journal = joins a.loader.journal := by
      rw [journal]
      rfl
    refine ⟨fun hid ↦ hjoined (hsame ▸ hid), hsame ▸ ha.joins, fun hkey ↦ ?_, ?_⟩
    · rw [journal, recent_reset] at hkey
      cases hkey
    · rw [journal]
      exact ha.searches.append [.reset] rfl

theorem fits (h : Move p allowed a b) (ha : a.Fits) : b.Fits := by
  have hkeeps := h.keeps
  have hkept {id : UnitId} {searcher : Operation} {rest : List Reference}
      (hframe : .dispatching id searcher rest ∈ a.stack) : b.loader.Declares id searcher rest :=
    (ha.declares hframe).mono hkeeps fun _ hr ↦ hr
  -- one reference less is to be dispatched
  have hnext {id : UnitId} {searcher : Operation} {reference : Reference} {rest : List Reference}
      {stack : List (Frame ω χ)}
      (hstack : a.stack = .dispatching id searcher (reference :: rest) :: stack)
      {id' : UnitId} {searcher' : Operation} {rest' : List Reference}
      (hframe : .dispatching id' searcher' rest' ∈ .dispatching id searcher rest :: stack) :
      b.loader.Declares id' searcher' rest' := by
    rcases List.mem_cons.mp hframe with heq | hframe
    · cases heq
      have hbefore := ha.declares (hstack ▸ List.mem_cons_self)
      exact hbefore.mono hkeeps fun _ hr ↦ List.mem_cons_of_mem _ hr
    · exact hkept (hstack ▸ List.mem_cons_of_mem _ hframe)
  cases h with
  | bide bides _ kept pushed =>
    refine ⟨bides.bound ha.bound, fun hframe ↦ ?_⟩
    rcases List.mem_append.mp hframe with hframe | hframe
    · cases (pushed _ hframe).1
    · exact hkept (kept.subset hframe)
  | await => exact ⟨ha.bound, hkept⟩
  | begin =>
    refine ⟨ha.bound, fun hframe ↦ hkept ?_⟩
    exact (List.mem_cons.mp hframe).resolve_left (by simp)
  | @join l _ wave id s active known =>
    have hbound : (l.enroll wave id s.dependencies).OperationsBound := ha.bound
    refine ⟨(quiet_operation _ .searcher s.directory).bound hbound, fun hframe ↦ ?_⟩
    rcases List.mem_cons.mp hframe with heq | hframe
    · cases heq
      obtain ⟨s', hs', -, hdirectory, hdependencies⟩ := hkeeps known
      exact ⟨s', hs', fun r hr ↦ hdependencies ▸ hr,
        (operation_context hbound .searcher s.directory).trans (by rw [hdirectory])⟩
    · exact hkept hframe
  | skip => exact ⟨ha.bound, hnext rfl⟩
  | ask => exact ⟨OperationsBound.ask ha.bound _, hnext rfl⟩
  | lookUp => exact ⟨OperationsBound.ask ha.bound _, hnext rfl⟩
  | lookUpImport => exact ⟨ha.bound, hkept⟩
  | learn => exact ⟨ha.bound, hkept⟩
  | reset =>
    refine ⟨?_, hkept⟩
    intro kind text operation hoperation
    cases hoperation

theorem registered (h : Move p allowed a b) (ha : a.loader.Registered) : b.loader.Registered := by
  intro key id hresult
  rcases h.results hresult with hold | ⟨-, -, -, resource, -, hfiled⟩
  · rcases h.filed with hkept | ⟨-, hempty⟩
    · obtain ⟨url, hurl⟩ := ha hold
      exact ⟨url, hkept hurl⟩
    · rw [hempty] at hresult
      cases hresult
  · exact ⟨resource.url, hfiled⟩

end Move

namespace Machine

open Loader Journal

variable {p : Platform ω χ} {m m' : Machine ω χ}

/-- Whatever holds of fresh loaders and is kept by moves holds of every machine that can be
reached. -/
theorem Reachable.of_moves {P : Scene ω χ → Prop} (h : m.Reachable p)
    (hfresh : ∀ l : Loader ω χ, l.IsFresh → P ⟨l, []⟩)
    (hmove : ∀ {a b}, Move p (fun _ ↦ True) a b → P a → P b) : P m.scene := by
  induction h with
  | start fresh code => exact hfresh _ fresh
  | @step m _ ih => exact (step_moves p (.of_all m)).invariant hmove ih
  | again _ _ _ ih => exact ih

/-- **Every unit joins once, and every reference is searched once** between two resets. -/
theorem Reachable.once (h : m.Reachable p) : m.loader.Once := by
  refine h.of_moves (P := fun scene ↦ scene.loader.Once) (fun l hl ↦ ?_) fun hmove ↦ hmove.once
  refine ⟨?_, ?_, ?_, ?_⟩
  all_goals rw [hl.journal]
  · simp [Journal.joins]
  · exact List.nodup_nil
  · simp [recent]
  · exact .nil

theorem Reachable.fits (h : m.Reachable p) : m.scene.Fits :=
  h.of_moves (fun _ hl ↦ .of_fresh hl) fun hmove ↦ hmove.fits

theorem Reachable.registered (h : m.Reachable p) : m.loader.Registered := by
  refine h.of_moves (P := fun scene ↦ scene.loader.Registered) (fun l hl ↦ ?_)
    fun hmove ↦ hmove.registered
  intro key id hresult
  rw [hl.cache] at hresult
  cases hresult

end Machine

end ScriptLoader
