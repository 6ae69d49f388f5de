import Mathlib.Data.Finset.Card
import Mathlib.Data.Set.Finite.Basic
import Mathlib.Order.WellFounded
import ScriptLoader.Proofs.Journal
import ScriptLoader.Proofs.Once

/-!
# How many lookups complete

Suppose that a machine goes on without code asking for an import or for a reset. Then every lookup
that is completed was under way to begin with, or is for a search, and no two searches have the same
key. Every key is declared by a unit. So there are no more completions than there were lookups, and
keys on top of that.

How many keys there are depends on what is found, since every file may refer to others. When code
does not ask for dependencies either and only finitely many files can be found, finitely many units
join, and all keys are those of the units that are there when no more will.
-/

namespace ScriptLoader

variable {ω χ : Type}

theorem length_le_card {l l' : List String} (hnodup : l.Nodup) (hsub : l ⊆ l') :
    l.length ≤ l'.toFinset.card := by
  rw [← List.toFinset_card_of_nodup hnodup]
  exact Finset.card_le_card fun key hkey ↦ List.mem_toFinset.mpr (hsub (List.mem_toFinset.mp hkey))

namespace Loader

/-- The keys of the references that units declare. -/
def keys (l : Loader ω χ) : List String :=
  l.units.flatMap fun unit ↦ unit.info.dependencies.map (·.key unit.info.directory.text)

theorem mem_keys {l : Loader ω χ} {id : UnitId} {s : Standing ω} {r : Reference}
    (hs : l.standing? id = some s) (hr : r ∈ s.dependencies) : s.key r ∈ l.keys := by
  obtain ⟨unit, hunit, rfl⟩ := standing?_eq_some.mp hs
  exact List.mem_flatMap.mpr ⟨unit, List.mem_of_getElem? hunit, List.mem_map_of_mem hr⟩

def nextLookup? (p : Platform ω χ) (l : Loader ω χ) : Option (Lookup ω) :=
  (p.resolver.next? l.world (l.lookups.map (·.ticket))).2.bind fun ticket ↦
    l.lookups.find? (·.ticket = ticket)

end Loader

namespace Machine

def completes (p : Platform ω χ) (m : Machine ω χ) : Bool :=
  m.drives && (m.loader.nextLookup? p).isSome

/-- What code asks for that changes how waves go on. -/
def asks? (m : Machine ω χ) : Option Deed :=
  match m.control with
  | .running (.loadDependencies ..) => some .loads
  | .running (.importFile ..) => some .imports
  | .running (.reset _) => some .resets
  | _ => none

variable (p : Platform ω χ)

/-- How many lookups some steps complete. -/
def completions (m : Machine ω χ) (count : Nat) : Nat :=
  (List.range count).countP fun k ↦ (m.run p k).completes p

/-- For some steps code asks for nothing else than what is listed. -/
def AsksOnly (m : Machine ω χ) (deeds : List Deed) (count : Nat) : Prop :=
  ∀ k < count, ∀ deed ∈ (m.run p k).asks?, deed ∈ deeds

instance (m : Machine ω χ) (deeds : List Deed) (count : Nat) :
    Decidable (m.AsksOnly p deeds count) :=
  inferInstanceAs (Decidable (∀ k < count, ∀ deed ∈ (m.run p k).asks?, deed ∈ deeds))

variable {p} {m : Machine ω χ} {deeds : List Deed} {count count' : Nat}

theorem AsksOnly.mono (h : m.AsksOnly p deeds count) (hle : count' ≤ count) :
    m.AsksOnly p deeds count' :=
  fun k hk ↦ h k (hk.trans_le hle)

theorem completions_succ (p : Platform ω χ) (m : Machine ω χ) (count : Nat) :
    m.completions p (count + 1)
      = m.completions p count + if (m.run p count).completes p then 1 else 0 := by
  rw [completions, List.range_succ, List.countP_append, List.countP_singleton, completions]

theorem completions_mono (p : Platform ω χ) (m : Machine ω χ) (h : count' ≤ count) :
    m.completions p count' ≤ m.completions p count :=
  ((List.range_sublist.mpr h).countP_le)

theorem run_of_isHalted (h : m.isHalted = true) (count : Nat) : m.run p count = m := by
  cases count with
  | zero => rfl
  | succ count => rw [run, if_pos h]

theorem run_step (p : Platform ω χ) (m : Machine ω χ) (count : Nat) :
    m.run p (count + 1) = (m.step p).run p count := by
  rw [run]
  split
  case isTrue hhalted => rw [step_of_isHalted hhalted, run_of_isHalted hhalted]
  case isFalse => rfl

theorem run_succ (p : Platform ω χ) (m : Machine ω χ) (count : Nat) :
    m.run p (count + 1) = (m.run p count).step p := by
  induction count generalizing m with
  | zero => exact run_step p m 0
  | succ count ih => rw [run_step, ih, run_step]

theorem drive_of_nextLookup? {lookup : Lookup ω} (h : m.loader.nextLookup? p = some lookup)
    (next : Awaited Unit → Code ω) :
    ∃ world before after,
      (p.resolver.next? m.loader.world (m.loader.lookups.map (·.ticket))).1 = world ∧
      m.loader.lookups = before ++ lookup :: after ∧
      m.drive p next = ((m.update (·.leave world (before ++ after))).push
        (.driving next)).completeLookup p lookup := by
  obtain ⟨ticket, hticket, hfound⟩ := Option.bind_eq_some_iff.mp h
  obtain ⟨-, before, after, hsplit, herase⟩ := exists_of_find?_ticket hfound
  have hsome : m.loader.lookups.isEmpty = false := by rw [hsplit]; simp
  rcases hnext : p.resolver.next? m.loader.world (m.loader.lookups.map (·.ticket)) with
    ⟨world, picked⟩
  rw [hnext] at hticket
  refine ⟨world, before, after, by rw [hnext], hsplit, ?_⟩
  simp only [drive, hsome, hnext, hticket, Option.bind_some, hfound, herase]
  rfl

theorem drive_of_nextLookup?_eq_none (h : m.loader.nextLookup? p = none)
    (next : Awaited Unit → Code ω) :
    ∃ l awaited, m.drive p next = ⟨l, .running (next awaited), m.stack⟩ := by
  rw [Loader.nextLookup?] at h
  rw [drive]
  split
  · exact ⟨_, _, rfl⟩
  · dsimp only
    rw [h]
    exact ⟨_, _, rfl⟩

end Machine

/-! ## What moves add -/

open Journal Loader

/-- What a move adds to the journal, with its reasons. -/
structure Move.Adds (allowed : Deed → Prop) (more : List Event) (a b : Scene ω χ) : Prop where
  journal : b.loader.journal = more ++ a.loader.journal
  remembered : allowed .resets ∨ .reset ∉ more
  lookups : ∀ lookup ∈ b.loader.lookups,
    allowed .imports ∨ lookup ∈ a.loader.lookups ∨ lookup.purpose = .wave
  /-- Every lookup that is started for a wave belongs to a search. -/
  counted : allowed .imports ∨
    b.loader.lookups.length ≤ a.loader.lookups.length + (searches more).length
  joined : ∀ {id}, id ∈ joins more → allowed .loads ∨ ∃ key, a.loader.cache.result? key = some id
  searched : ∀ {key}, key ∈ searches more → ∃ id searcher reference rest,
    .dispatching id searcher (reference :: rest) ∈ a.stack ∧
      reference.key searcher.context.text = key
  dispatching : ∀ {id searcher rest}, .dispatching id searcher rest ∈ b.stack →
    (∃ rest', .dispatching id searcher rest' ∈ a.stack) ∨ id ∈ joins more

variable {p : Platform ω χ} {allowed : Deed → Prop} {a b : Scene ω χ}

private theorem adds_minor {more : List Event}
    (hjournal : b.loader.journal = more ++ a.loader.journal)
    (hminor : ∀ e ∈ more, e.isMinor = true) (hlookups : b.loader.lookups.Sublist a.loader.lookups)
    (hdispatching : ∀ {id searcher rest}, .dispatching id searcher rest ∈ b.stack →
      ∃ rest', .dispatching id searcher rest' ∈ a.stack) : Move.Adds allowed more a b where
  journal := hjournal
  remembered := .inr fun hreset ↦ ne_reset_of_minor hminor _ hreset rfl
  lookups _ hlookup := .inr (.inl (hlookups.subset hlookup))
  counted := .inr (hlookups.length_le.trans (Nat.le_add_right _ _))
  joined hid := by rw [joins_of_minor hminor] at hid; cases hid
  searched hkey := by rw [searches_of_minor hminor] at hkey; cases hkey
  dispatching hframe := .inl (hdispatching hframe)

theorem Move.adds (h : Move p allowed a b) : ∃ more, Move.Adds allowed more a b := by
  -- a frame that goes on with its references has been on the stack before
  have hnext {id : UnitId} {searcher : Operation} {reference : Reference} {rest : List Reference}
      {stack : List (Frame ω χ)} {id' : UnitId} {searcher' : Operation} {rest' : List Reference}
      (hframe : .dispatching id' searcher' rest' ∈ .dispatching id searcher rest :: stack) :
      ∃ rest'', .dispatching id' searcher' rest''
        ∈ .dispatching id searcher (reference :: rest) :: stack := by
    rcases List.mem_cons.mp hframe with heq | hframe
    · cases heq
      exact ⟨_, List.mem_cons_self⟩
    · exact ⟨_, List.mem_cons_of_mem _ hframe⟩
  cases h with
  | bide bides _ kept pushed =>
    obtain ⟨events, heq, hminor⟩ := bides.journal
    refine ⟨events, adds_minor heq hminor bides.lookups fun hframe ↦ ?_⟩
    rcases List.mem_append.mp hframe with hframe | hframe
    · cases (pushed _ hframe).1
    · exact ⟨_, kept.subset hframe⟩
  | await => exact ⟨[], adds_minor rfl (by simp) (.refl _) fun hframe ↦ ⟨_, hframe⟩⟩
  | begin =>
    exact ⟨[], adds_minor rfl (by simp) (.refl _) fun hframe ↦
      ⟨_, (List.mem_cons.mp hframe).resolve_left (by simp)⟩⟩
  | @join l _ wave id s _ _ _ reason =>
    have hlookups : ((l.enroll wave id s.dependencies).operation .searcher s.directory).1.lookups
        = l.lookups := (quiet_operation (l.enroll wave id s.dependencies) _ _).lookups
    refine ⟨[.joined id], journal_operation _ .searcher s.directory, .inr (by simp),
      fun lookup hlookup ↦ .inr (.inl (hlookups ▸ hlookup)),
      .inr (hlookups ▸ Nat.le_add_right _ _), fun {other} hother ↦ ?_, by simp [searches],
      fun hframe ↦ ?_⟩
    · cases List.mem_singleton.mp hother
      exact reason
    · rcases List.mem_cons.mp hframe with heq | hframe
      · cases heq
        exact .inr List.mem_cons_self
      · exact .inl ⟨_, hframe⟩
  | skip => exact ⟨[], adds_minor rfl (by simp) (.refl _) hnext⟩
  | @ask l _ id searcher reference rest =>
    refine ⟨[.searched (reference.key searcher.context.text)], rfl, .inr (by simp),
      fun _ hlookup ↦ .inr (.inl hlookup), .inr (Nat.le_add_right _ _), by simp [joins],
      fun {key} hkey ↦ ?_, fun hframe ↦ .inl (hnext hframe)⟩
    cases List.mem_singleton.mp hkey
    exact ⟨id, searcher, reference, rest, List.mem_cons_self, rfl⟩
  | @lookUp l _ id searcher reference rest world request lookup _ purpose =>
    refine ⟨[.lookedUp lookup.key request lookup.purpose.isImport,
      .searched (reference.key searcher.context.text)], rfl, .inr (by simp),
      fun other hother ↦ .inr ?_, .inr List.length_append.le, by simp [joins], fun {key} hkey ↦ ?_,
      fun hframe ↦ .inl (hnext hframe)⟩
    · rcases List.mem_append.mp hother with hother | hother
      · exact .inl hother
      · exact .inr (List.mem_singleton.mp hother ▸ purpose)
    · cases List.mem_singleton.mp hkey
      exact ⟨id, searcher, reference, rest, List.mem_cons_self, rfl⟩
  | lookUpImport reason =>
    exact ⟨[_], rfl, .inr (by simp), fun _ _ ↦ .inl reason, .inl reason, by simp [joins],
      by simp [searches], fun hframe ↦ .inl ⟨_, hframe⟩⟩
  | learn => exact ⟨[], adds_minor rfl (by simp) (.refl _) fun hframe ↦ ⟨_, hframe⟩⟩
  | reset reason =>
    exact ⟨[.reset], rfl, .inl reason, fun _ hlookup ↦ .inr (.inl hlookup),
      .inr (Nat.le_add_right _ _), by simp [joins], by simp [searches],
      fun hframe ↦ .inl ⟨_, hframe⟩⟩

/-- What is searched is declared by the unit of a frame. -/
theorem Scene.Fits.declared (hfits : a.Fits) {more : List Event}
    (hadds : Move.Adds allowed more a b) {key : String} (hkey : key ∈ searches more) :
    ∃ id searcher rest, .dispatching id searcher rest ∈ a.stack ∧
      ∃ s r, a.loader.standing? id = some s ∧ r ∈ s.dependencies ∧ s.key r = key := by
  obtain ⟨id, searcher, reference, rest, hframe, rfl⟩ := hadds.searched hkey
  obtain ⟨s, hs, hdependencies, hcontext⟩ := hfits.declares hframe
  exact ⟨id, searcher, _, hframe, s, reference, hs, hdependencies reference List.mem_cons_self,
    by rw [Standing.key, hcontext]⟩

/-! ## Searches -/

namespace Loader

/-- What has been searched is declared by a unit. -/
def SearchesDeclared (l : Loader ω χ) : Prop :=
  ∀ {key}, key ∈ searches l.journal →
    ∃ id s r, l.standing? id = some s ∧ r ∈ s.dependencies ∧ s.key r = key

end Loader

theorem Move.searchesDeclared (h : Move p allowed a b) (hfits : a.Fits)
    (ha : a.loader.SearchesDeclared) : b.loader.SearchesDeclared := by
  intro key hkey
  obtain ⟨more, hadds⟩ := h.adds
  rw [hadds.journal, searches_append, List.mem_append] at hkey
  have hdeclared : ∃ id s r, a.loader.standing? id = some s ∧ r ∈ s.dependencies ∧
      s.key r = key := by
    rcases hkey with hkey | hkey
    · obtain ⟨id, -, -, -, hdeclared⟩ := hfits.declared hadds hkey
      exact ⟨id, hdeclared⟩
    · exact ha hkey
  obtain ⟨id, s, r, hs, hr, rfl⟩ := hdeclared
  obtain ⟨s', hs', hprecedes⟩ := h.standing hs
  exact ⟨id, s', r, hs', hprecedes.dependencies ▸ hr, hprecedes.key r⟩

theorem Machine.Reachable.searches_subset {m : Machine ω χ} (h : m.Reachable p) :
    searches m.loader.journal ⊆ m.loader.keys := by
  have hdeclared := h.of_moves (P := fun scene ↦ scene.Fits ∧ scene.loader.SearchesDeclared)
    (fun l hl ↦ ⟨.of_fresh hl, ?_⟩) fun hmove hscene ↦
      ⟨hmove.fits hscene.1, hmove.searchesDeclared hscene.1 hscene.2⟩
  · intro key hkey
    obtain ⟨id, s, r, hs, hr, rfl⟩ := hdeclared.2 hkey
    exact mem_keys hs hr
  · intro key hkey
    rw [hl.journal] at hkey
    cases hkey

/-! ## What has happened since -/

/-- What has been searched since there was a loader, after some lookups have been completed. -/
structure Since (first : Loader ω χ) (done : Nat) (events : List Event) (l : Loader ω χ) :
    Prop where
  journal : l.journal = events ++ first.journal
  remembered : .reset ∉ events
  lookups : ∀ lookup ∈ l.lookups, lookup.purpose = .wave
  /-- Lookups were under way to begin with, or belong to a search. -/
  counted : done + l.lookups.length ≤ first.lookups.length + (searches events).length

theorem Since.move {first : Loader ω χ} {done : Nat} {events : List Event}
    (h : Since first done events a.loader) (himports : ¬allowed .imports)
    (hresets : ¬allowed .resets) (hmove : Move p allowed a b) :
    ∃ more, Since first done (more ++ events) b.loader := by
  obtain ⟨more, hadds⟩ := hmove.adds
  refine ⟨more, ?_, ?_, fun lookup hlookup ↦ ?_, ?_⟩
  · rw [hadds.journal, h.journal, List.append_assoc]
  · rw [List.mem_append, not_or]
    exact ⟨hadds.remembered.resolve_left hresets, h.remembered⟩
  · exact ((hadds.lookups lookup hlookup).resolve_left himports).elim (h.lookups lookup) id
  · have hcounted := hadds.counted.resolve_left himports
    have hbefore := h.counted
    rw [searches_append, List.length_append]
    omega

/-- There are no more completions than lookups to begin with and keys that may be searched. -/
theorem Since.completions_le {first l : Loader ω χ} {done : Nat} {events : List Event}
    {keys : List String} (h : Since first done events l) (honce : l.Once)
    (hsub : searches l.journal ⊆ keys) :
    done ≤ first.lookups.length + keys.toFinset.card := by
  have hnodup : (searches events).Nodup :=
    honce.searches.nodup ⟨[], h.journal.symm⟩ h.remembered
  have hsub' : searches events ⊆ keys := by
    refine List.Subset.trans ?_ hsub
    rw [h.journal, searches_append]
    exact List.subset_append_left _ _
  have hcard := length_le_card hnodup hsub'
  have hcounted := h.counted
  omega

namespace Loader

/-- A unit was there to begin with, or has joined since. -/
def Admits (first : Loader ω χ) (events : List Event) (id : UnitId) : Prop :=
  (∃ s, first.standing? id = some s) ∨ id ∈ joins events

/-- A unit was there to begin with, or is that of one of some files. -/
def Offers (first : Loader ω χ) (files : Set Url) (l : Loader ω χ) (id : UnitId) : Prop :=
  (∃ s, first.standing? id = some s) ∨ ∃ url ∈ files, l.cache.unit? url = some id

theorem Admits.append {first : Loader ω χ} {events : List Event} {id : UnitId}
    (h : first.Admits events id) (more : List Event) : first.Admits (more ++ events) id :=
  h.imp_right fun hid ↦ by rw [joins_append]; exact List.mem_append_right _ hid

end Loader

/-- What has joined and been searched since there was a loader, when only some files can be found
and code asks for no dependencies. -/
structure Confined (files : Set Url) (first : Loader ω χ) (events : List Event)
    (scene : Scene ω χ) : Prop where
  journal : scene.loader.journal = events ++ first.journal
  known : ∀ {key id}, scene.loader.cache.result? key = some id →
    first.Offers files scene.loader id
  joined : ∀ {id}, id ∈ joins events → first.Offers files scene.loader id
  dispatching : ∀ {id searcher rest}, .dispatching id searcher rest ∈ scene.stack →
    first.Admits events id
  searched : ∀ {key}, key ∈ searches events → ∃ id, first.Admits events id ∧
    ∃ s r, scene.loader.standing? id = some s ∧ r ∈ s.dependencies ∧ s.key r = key

theorem Confined.move {files : Set Url} {first : Loader ω χ} {events : List Event}
    (h : Confined files first events a) (hfits : a.Fits)
    (hfiles : ∀ world ticket resource, (p.resolver.answer world ticket).2 = .ok (some resource) →
      resource.url ∈ files)
    (hloads : ¬allowed .loads) (hresets : ¬allowed .resets) (hmove : Move p allowed a b) :
    ∃ more, Confined files first (more ++ events) b := by
  obtain ⟨more, hadds⟩ := hmove.adds
  have hoffers {id : UnitId} (hid : first.Offers files a.loader id) :
      first.Offers files b.loader id := by
    refine hid.imp_right fun ⟨url, hurl, hunit⟩ ↦ ⟨url, hurl, ?_⟩
    exact (hmove.filed.resolve_right fun hreset ↦ hresets hreset.1) hunit
  refine ⟨more, ?_, fun hresult ↦ ?_, fun {id} hid ↦ ?_, fun hframe ↦ ?_, fun {key} hkey ↦ ?_⟩
  · rw [hadds.journal, h.journal, List.append_assoc]
  · rcases hmove.results hresult with hold | ⟨-, world, ticket, resource, hanswer, hunit⟩
    · exact hoffers (h.known hold)
    · exact .inr ⟨resource.url, hfiles world ticket resource hanswer, hunit⟩
  · rw [joins_append, List.mem_append] at hid
    rcases hid with hid | hid
    · obtain ⟨key, hresult⟩ := (hadds.joined hid).resolve_left hloads
      exact hoffers (h.known hresult)
    · exact hoffers (h.joined hid)
  · rcases hadds.dispatching hframe with ⟨rest', hframe⟩ | hid
    · exact (h.dispatching hframe).append more
    · refine .inr ?_
      rw [joins_append]
      exact List.mem_append_left _ hid
  · have hdeclared : ∃ id, first.Admits events id ∧
        ∃ s r, a.loader.standing? id = some s ∧ r ∈ s.dependencies ∧ s.key r = key := by
      rw [searches_append, List.mem_append] at hkey
      rcases hkey with hkey | hkey
      · obtain ⟨id, searcher, rest, hframe, hdeclared⟩ := hfits.declared hadds hkey
        exact ⟨id, h.dispatching hframe, hdeclared⟩
      · exact h.searched hkey
    obtain ⟨id, hadmits, s, r, hs, hr, rfl⟩ := hdeclared
    obtain ⟨s', hs', hprecedes⟩ := hmove.standing hs
    exact ⟨id, hadmits.append more, s', r, hs', hprecedes.dependencies ▸ hr, hprecedes.key r⟩

/-! ## Steps -/

namespace Machine

variable {m m' : Machine ω χ} {deeds : List Deed} {count count' : Nat} {files : Set Url}
  {first : Loader ω χ} {done : Nat} {events : List Event}

/-- What goes on in any case, and what code asks for. -/
def due (deeds : List Deed) : Deed → Prop
  | .completes | .executes => True
  | deed => deed ∈ deeds

/-- Some lookups have been taken away to be completed. -/
structure Takes (count : Nat) (m m' : Machine ω χ) : Prop where
  units : m'.loader.units = m.loader.units
  cache : m'.loader.cache = m.loader.cache
  journal : m'.loader.journal = m.loader.journal
  wave : m'.loader.wave = m.loader.wave
  lookups : m'.loader.lookups.Sublist m.loader.lookups
  counted : count + m'.loader.lookups.length = m.loader.lookups.length
  dispatching : ∀ {id searcher rest}, .dispatching id searcher rest ∈ m'.stack →
    .dispatching id searcher rest ∈ m.stack

/-- Unless code asks for an import, a step takes at most one lookup away, and what is made of moves
follows. -/
theorem step_takes (hasks : ∀ deed ∈ m.asks?, deed ∈ deeds) (himports : .imports ∉ deeds)
    (hlookups : ∀ lookup ∈ m.loader.lookups, lookup.purpose = .wave) :
    ∃ taken, m.Takes (if m.completes p then 1 else 0) taken ∧
      taken.Moves p (due deeds) (m.step p) := by
  have hnone : ¬due deeds .imports := himports
  -- driving takes the next lookup away, whether it begins or goes on
  have hdrive (base : List (Frame ω χ)) (next : Awaited Unit → Code ω) (hbase : base <:+ m.stack)
      (hnext : (m.loader.nextLookup? p).isSome) :
      ∃ taken, m.Takes 1 taken ∧
        taken.Moves p (due deeds) (({ m with stack := base } : Machine ω χ).drive p next) := by
    obtain ⟨lookup, hlookup⟩ := Option.isSome_iff_exists.mp hnext
    obtain ⟨world, before, after, -, hsplit, heq⟩ :=
      drive_of_nextLookup? (m := { m with stack := base }) hlookup next
    have hsplit' : m.loader.lookups = before ++ lookup :: after := hsplit
    have hwave : lookup.purpose = .wave :=
      hlookups lookup (hsplit' ▸ List.mem_append_right _ List.mem_cons_self)
    rw [heq]
    refine ⟨({ m with stack := base }.update (·.leave world (before ++ after))).push
      (.driving next), ⟨rfl, rfl, rfl, rfl, ?_, ?_, fun hframe ↦ ?_⟩, moves_completeLookup _ lookup
        trivial (fun h ↦ absurd h hnone) fun himport ↦ by rw [hwave] at himport; cases himport⟩
    · rw [hsplit']
      exact (List.sublist_cons_self lookup after).append_left before
    · rw [hsplit', List.length_append, List.length_cons]
      have hleft : (before ++ after).length = before.length + after.length := List.length_append
      exact (by omega : 1 + (before ++ after).length = before.length + (after.length + 1))
    · rcases List.mem_cons.mp hframe with heq | hframe
      · cases heq
      · exact hbase.subset hframe
  have hpermits : m.Permits (due deeds) :=
    { loads := fun hcontrol ↦ hasks _ (by rw [asks?, hcontrol]; rfl)
      imports := fun hcontrol ↦ hasks _ (by rw [asks?, hcontrol]; rfl)
      lookups := fun lookup hlookup himport ↦ by
        rw [hlookups lookup hlookup] at himport
        cases himport
      executes := fun _ ↦ trivial
      callbacks := fun _ _ _ ↦ trivial
      completes := fun _ ↦ trivial
      resets := fun hcontrol ↦ hasks _ (by rw [asks?, hcontrol]; rfl)
      all := fun h ↦ absurd h hnone }
  cases hcompletes : m.completes p with
  | false => exact ⟨m, ⟨rfl, rfl, rfl, rfl, .refl _, Nat.zero_add _, id⟩, step_moves p hpermits⟩
  | true =>
    obtain ⟨hdrives, hnext⟩ := Bool.and_eq_true_iff.mp hcompletes
    rw [drives] at hdrives
    rw [step]
    split at hdrives
    case h_1 next hcontrol =>
      rw [hcontrol]
      exact hdrive m.stack next (List.suffix_refl _) hnext
    case h_2 value next base hcontrol hs =>
      rw [hcontrol, hs]
      exact hdrive base next (hs ▸ List.suffix_cons _ _) hnext
    case h_3 => cases hdrives

theorem Takes.since (ht : m.Takes count m') (h : Since first done events m.loader) :
    Since first (done + count) events m'.loader := by
  refine ⟨ht.journal.trans h.journal, h.remembered, fun lookup hlookup ↦
    h.lookups lookup (ht.lookups.subset hlookup), ?_⟩
  have hcounted := h.counted
  have htaken := ht.counted
  omega

theorem Takes.fits (ht : m.Takes count m') (h : m.scene.Fits) : m'.scene.Fits := by
  refine ⟨?_, fun hframe ↦ ?_⟩
  · have hbound : m.loader.OperationsBound := h.bound
    have hcache : m'.scene.loader.cache = m.loader.cache := ht.cache
    rw [OperationsBound, hcache]
    exact hbound
  · obtain ⟨s, hs, hdeclares⟩ := h.declares (ht.dispatching hframe)
    exact ⟨s, (standing?_congr ht.units _).trans hs, hdeclares⟩

theorem Takes.confined (ht : m.Takes count m') (h : Confined files first events m.scene) :
    Confined files first events m'.scene := by
  have hcache : m'.scene.loader.cache = m.scene.loader.cache := ht.cache
  have hoffers {id : UnitId} (hid : first.Offers files m.scene.loader id) :
      first.Offers files m'.scene.loader id := by
    rw [Offers, hcache]
    exact hid
  refine ⟨ht.journal.trans h.journal, fun {key _} hresult ↦ hoffers (@h.known key _ ?_),
    fun hid ↦ hoffers (h.joined hid), fun hframe ↦ h.dispatching (ht.dispatching hframe),
    fun hkey ↦ ?_⟩
  · rw [← hcache]
    exact hresult
  · obtain ⟨id, hadmits, s, r, hs, hdeclared⟩ := h.searched hkey
    exact ⟨id, hadmits, s, r, (standing?_congr ht.units id).trans hs, hdeclared⟩

/-! ## Runs -/

/-- Only lookups for waves are under way. -/
def IsWaveOnly (m : Machine ω χ) : Prop := ∀ lookup ∈ m.loader.lookups, lookup.purpose = .wave

/-- **Lookups that complete were under way, or belong to searches.** -/
theorem since_run (hlookups : m.IsWaveOnly) (himports : .imports ∉ deeds)
    (hresets : .resets ∉ deeds) (hasks : m.AsksOnly p deeds count) :
    ∃ events, Since m.loader (m.completions p count) events (m.run p count).loader := by
  have hnone : ¬due deeds .imports := himports
  have hkept : ¬due deeds .resets := hresets
  induction count with
  | zero => exact ⟨[], rfl, by simp, hlookups, (Nat.zero_add _).le⟩
  | succ count ih =>
    obtain ⟨events, hsince⟩ := ih (hasks.mono (Nat.le_succ count))
    obtain ⟨taken, htakes, hmoves⟩ :=
      step_takes (hasks count (Nat.lt_succ_self count)) himports hsince.lookups
    rw [run_succ, completions_succ]
    refine hmoves.invariant (P := fun scene ↦ ∃ events, Since m.loader _ events scene.loader) ?_
      ⟨events, htakes.since hsince⟩
    rintro a b hmove ⟨events, h⟩
    obtain ⟨more, hmore⟩ := h.move hnone hkept hmove
    exact ⟨more ++ events, hmore⟩

/-- **There are no more completions than lookups to begin with and keys**, as long as code asks for
no import and no reset. -/
theorem Reachable.completions_le (h : m.Reachable p) (hlookups : m.IsWaveOnly)
    (himports : .imports ∉ deeds) (hresets : .resets ∉ deeds) (hasks : m.AsksOnly p deeds count) :
    m.completions p count
      ≤ m.loader.lookups.length + (m.run p count).loader.keys.toFinset.card := by
  obtain ⟨events, hsince⟩ := since_run hlookups himports hresets hasks
  exact hsince.completions_le (h.run p count).once (h.run p count).searches_subset

/-! ## Finitely many files -/

variable (hfiles : ∀ world ticket resource,
  (p.resolver.answer world ticket).2 = .ok (some resource) → resource.url ∈ files)

include hfiles in
/-- **What joins and is searched in a run in which code asks for nothing.** -/
theorem Reachable.confined (h : m.Reachable p) (hlookups : m.IsWaveOnly)
    (hasks : m.AsksOnly p [] count) :
    ∃ events, Confined files m.loader events (m.run p count).scene := by
  have hloads : ¬due [] .loads := List.not_mem_nil
  have hresets : ¬due [] .resets := List.not_mem_nil
  induction count with
  | zero =>
    have htidy := (h.sound p).tidy
    refine ⟨[], rfl, fun hresult ↦ .inl (htidy.result hresult), by simp [joins],
      fun hframe ↦ .inl ?_, by simp [searches]⟩
    obtain ⟨s, hs, -⟩ := h.fits.declares hframe
    exact ⟨s, hs⟩
  | succ count ih =>
    have hbefore := hasks.mono (Nat.le_succ count)
    obtain ⟨events, hconfined⟩ := ih hbefore
    obtain ⟨_, hsince⟩ := since_run hlookups List.not_mem_nil List.not_mem_nil hbefore
    obtain ⟨taken, htakes, hmoves⟩ :=
      step_takes (hasks count (Nat.lt_succ_self count)) List.not_mem_nil hsince.lookups
    rw [run_succ]
    refine (hmoves.invariant (P := fun scene ↦ scene.Fits ∧
      ∃ events, Confined files m.loader events scene) ?_
      ⟨htakes.fits (h.run p count).fits, events, htakes.confined hconfined⟩).2
    rintro a b hmove ⟨hfits, events, hscene⟩
    obtain ⟨more, hmore⟩ := hscene.move hfits hfiles hloads hresets hmove
    exact ⟨hmove.fits hfits, more ++ events, hmore⟩

/-- No more units join than there were to begin with and files can be found. -/
theorem joins_length_le (h : Confined files first events m.scene) (hfinite : files.Finite)
    (hnodup : (joins m.loader.journal).Nodup) :
    (joins events).length ≤ first.units.length + hfinite.toFinset.card := by
  have hnodup' : (joins events).Nodup := by
    have hjournal : m.loader.journal = events ++ first.journal := h.journal
    rw [hjournal, joins_append] at hnodup
    exact hnodup.of_append_left
  let filed := hfinite.toFinset.image fun url ↦ (m.loader.cache.unit? url).getD 0
  have hsub : (joins events).toFinset ⊆ Finset.range first.units.length ∪ filed := by
    intro id hid
    rw [Finset.mem_union]
    rcases h.joined (List.mem_toFinset.mp hid) with ⟨s, hs⟩ | ⟨url, hurl, hunit⟩
    · obtain ⟨unit, hunit, -⟩ := standing?_eq_some.mp hs
      exact .inl (Finset.mem_range.mpr (List.getElem?_eq_some_iff.mp hunit).1)
    · refine .inr (Finset.mem_image.mpr ⟨url, hfinite.mem_toFinset.mpr hurl, ?_⟩)
      have hunit' : m.loader.cache.unit? url = some id := hunit
      rw [hunit']
      rfl
  calc (joins events).length
      = (joins events).toFinset.card := (List.toFinset_card_of_nodup hnodup').symm
    _ ≤ (Finset.range first.units.length ∪ filed).card := Finset.card_le_card hsub
    _ ≤ first.units.length + filed.card := by
      simpa using Finset.card_union_le (Finset.range first.units.length) filed
    _ ≤ first.units.length + hfinite.toFinset.card :=
      Nat.add_le_add_left Finset.card_image_le _

include hfiles in
theorem Reachable.joins_le (h : m.Reachable p) (hlookups : m.IsWaveOnly) (hfinite : files.Finite)
    (hasks : m.AsksOnly p [] count) :
    (joins (m.run p count).loader.journal).length
      ≤ (joins m.loader.journal).length + m.loader.units.length + hfinite.toFinset.card := by
  obtain ⟨events, hconfined⟩ := h.confined hfiles hlookups hasks
  have hjoined := joins_length_le hconfined hfinite (h.run p count).once.joins
  have hjournal : (m.run p count).loader.journal = events ++ m.loader.journal := hconfined.journal
  rw [hjournal, joins_append, List.length_append]
  omega

theorem run_add (p : Platform ω χ) (m : Machine ω χ) (count more : Nat) :
    (m.run p count).run p more = m.run p (count + more) := by
  induction more with
  | zero => rfl
  | succ more ih => rw [run_succ, ih, ← Nat.add_assoc, run_succ]

theorem journal_run (p : Platform ω χ) (m : Machine ω χ) (hle : count ≤ count') :
    (m.run p count).loader.journal <:+ (m.run p count').loader.journal := by
  induction hle with
  | refl => exact List.suffix_refl _
  | step _ ih =>
    rw [run_succ]
    exact ih.trans (extends_step p _).1

theorem keeps_run (p : Platform ω χ) (m : Machine ω χ) (hle : count ≤ count') :
    (m.run p count).loader.Keeps (m.run p count').loader := by
  induction hle with
  | refl => exact fun _ s hs ↦ ⟨s, hs, rfl, rfl, rfl⟩
  | step _ ih =>
    rw [run_succ]
    exact ih.trans (extends_step p _).2

include hfiles in
/-- Once no more units join, all keys that can be searched are known. -/
theorem Reachable.searches_subset_of_joined (h : m.Reachable p) (hlookups : m.IsWaveOnly)
    (hle : count ≤ count') (hasks : m.AsksOnly p [] count')
    (hjoined : (joins (m.run p count').loader.journal).length
      ≤ (joins (m.run p count).loader.journal).length) :
    searches (m.run p count').loader.journal
      ⊆ (m.run p count).loader.keys := by
  obtain ⟨events, hconfined⟩ := h.confined hfiles hlookups hasks
  have hjournal : (m.run p count').loader.journal = events ++ m.loader.journal :=
    hconfined.journal
  -- the units that have joined are the same
  have hjoins : joins (m.run p count').loader.journal ⊆ joins (m.run p count).loader.journal := by
    obtain ⟨more, hmore⟩ := journal_run p m hle
    rw [← hmore, joins_append] at hjoined ⊢
    rw [List.length_append] at hjoined
    rw [List.length_eq_zero_iff.mp (by omega : (joins more).length = 0)]
    exact List.Subset.refl _
  intro key hkey
  rw [hjournal, searches_append, List.mem_append] at hkey
  rcases hkey with hkey | hkey
  · obtain ⟨id, hadmits, s', r, hs', hr, rfl⟩ := hconfined.searched hkey
    -- the unit has been there before, and declares what it did
    have hknown : ∃ s, (m.run p count).loader.standing? id = some s := by
      rcases hadmits with ⟨s, hs⟩ | hid
      · obtain ⟨s', hs', -⟩ := keeps_run p m (Nat.zero_le count) hs
        exact ⟨s', hs'⟩
      · have hmem : id ∈ joins (m.run p count').loader.journal := by
          rw [hjournal, joins_append]
          exact List.mem_append_left _ hid
        obtain ⟨s, hs, -⟩ := (h.run p count).once.joined (hjoins hmem)
        exact ⟨s, hs⟩
    obtain ⟨s, hs⟩ := hknown
    obtain ⟨s'', hs'', -, hdirectory, hdependencies⟩ := keeps_run p m hle hs
    cases hs'.symm.trans hs''
    have hkey : s'.key r = s.key r := by rw [Standing.key, hdirectory, Standing.key]
    rw [hkey]
    exact mem_keys hs (hdependencies ▸ hr)
  · -- searches of old
    have hold := (journal_run p m (Nat.zero_le count)).subset (mem_searches.mp hkey)
    exact (h.run p count).searches_subset (mem_searches.mpr hold)

include hfiles in
/-- **Only boundedly many lookups complete**, if only finitely many files can be found. -/
theorem Reachable.exists_completions_le (h : m.Reachable p) (hlookups : m.IsWaveOnly)
    (hfinite : files.Finite) :
    ∃ bound, ∀ count, m.AsksOnly p [] count → m.completions p count ≤ bound := by
  let joined (count : Nat) : Nat := (joins (m.run p count).loader.journal).length
  let most := (joins m.loader.journal).length + m.loader.units.length + hfinite.toFinset.card
  -- a moment after which no more units join
  obtain ⟨last, hlast, hmost⟩ : ∃ last, m.AsksOnly p [] last ∧
      ∀ count, m.AsksOnly p [] count → joined count ≤ joined last := by
    obtain ⟨last, hlast, hmin⟩ := (measure fun count ↦ most - joined count).wf.has_min
      {count | m.AsksOnly p [] count} ⟨0, fun k hk ↦ absurd hk (Nat.not_lt_zero k)⟩
    refine ⟨last, hlast, fun count hcount ↦ ?_⟩
    have hle : joined count ≤ most := h.joins_le hfiles hlookups hfinite hcount
    have hnot : ¬most - joined count < most - joined last := hmin count hcount
    omega
  refine ⟨m.loader.lookups.length + (m.run p last).loader.keys.toFinset.card,
    fun count hcount ↦ ?_⟩
  obtain ⟨events, hsince⟩ := since_run hlookups List.not_mem_nil List.not_mem_nil hcount
  have hsub : searches (m.run p count).loader.journal ⊆ (m.run p last).loader.keys := by
    rcases Nat.le_total count last with hle | hle
    · intro key hkey
      have hold := (journal_run p m hle).subset (mem_searches.mp hkey)
      exact (h.run p last).searches_subset (mem_searches.mpr hold)
    · exact h.searches_subset_of_joined hfiles hlookups hle hcount (hmost count hcount)
  exact hsince.completions_le (h.run p count).once hsub

end Machine

end ScriptLoader
