import ScriptLoader.Proofs.Balance
import ScriptLoader.Proofs.Making.Working
import ScriptLoader.Proofs.Once
import ScriptLoader.Proofs.Project

/-!
# One unit for each URL

Whatever leads to a file, the file leads to the unit of its URL. A unit is filed under its URL when
it is made, and what a reference has led to is a unit that is filed. Only forgetting takes a URL its
unit, so until then the same URL always leads to the same unit, no matter who asks and in which
order.

A file is read only if its URL has no unit. So it is not read again once a unit has been made of it.
It may be read more than once before: when a unit cannot be made of what was read, because the
engine refuses the function or because nothing can be resolved against the URL, nothing is
remembered.
-/

namespace ScriptLoader

variable {ω χ : Type} {p : Platform ω χ}

/-! ## Files and tables -/

theorem Script.Built.functions_only {host : HostBindings} {script : Script} {events : List Event}
    (h : script.Built p host events) : ∀ e ∈ events, e.isFunction = true := by
  cases h <;> simp [Event.isFunction]

namespace Stock

variable {host : HostBindings} {s s' : Stock} {url : Url} {id : UnitId} {events : List Event}

/-- Functions are asked for, and files are read whose URL has no unit. -/
def Attempts (s : Stock) (events : List Event) : Prop :=
  ∀ e ∈ events, e.isFunction = true ∨ ∃ url, e = .read url ∧ s.units.get? url = none

theorem Attempts.of_functions (h : ∀ e ∈ events, e.isFunction = true) : s.Attempts events :=
  fun e he ↦ .inl (h e he)

theorem Attempts.append {reads : List Event} (hfunctions : ∀ e ∈ events, e.isFunction = true)
    (hreads : ∀ e ∈ reads, e = .read url) (hunknown : s.units.get? url = none) :
    s.Attempts (events ++ reads) := by
  intro e he
  rcases List.mem_append.mp he with he | he
  · exact .inl (hfunctions e he)
  · exact .inr ⟨url, hreads e he, hunknown⟩

theorem Attempts.not_mem (h : s.Attempts events) {e : Event} (hfunction : e.isFunction = false)
    (hread : ∀ url, e ≠ .read url) : e ∉ events := by
  intro hmem
  rcases h e hmem with hasked | ⟨url, heq, -⟩
  · exact Bool.false_ne_true (hfunction.symm.trans hasked)
  · exact hread url heq

theorem Attempts.not_obtained (h : s.Attempts events) : .obtained url id ∉ events :=
  h.not_mem rfl (by simp)

theorem not_mem_of_refused (h : ∀ e ∈ events, ∃ url, e = .refused url) {e : Event}
    (he : ∀ url, e ≠ .refused url) : e ∉ events :=
  fun hmem ↦ (h e hmem).elim he

/-- What a change of a stock has to do with files. -/
inductive Files (s s' : Stock) : Prop
  /-- No file is obtained, and the tables stay. -/
  | leave (events refusals : List Event) (log : s'.log = refusals ++ events ++ s.log)
      (refused : ∀ e ∈ refusals, ∃ url, e = .refused url) (attempts : s.Attempts events)
      (units : s'.units = s.units) (results : s'.results = s.results)
  /-- All that is remembered is forgotten. -/
  | forget (log : s'.log = .reset :: s.log)
  /-- A file leads to a unit, which its URL has from then on. -/
  | obtain (url : Url) (id : UnitId) (events : List Event)
      (log : s'.log = .obtained url id :: events ++ s.log) (attempts : s.Attempts events)
      (agree : ∀ other, s.units.get? url = some other → other = id)
      (filed : s'.units.get? url = some id)
      (kept : ∀ {url id}, s.units.get? url = some id → s'.units.get? url = some id)

theorem Next.files (h : s.Next p host s') : s.Files s' := by
  have hleave {events : List Event} (hfunctions : ∀ e ∈ events, e.isFunction = true) {s' : Stock}
      (hlog : s'.log = events ++ s.log) (hunits : s'.units = s.units)
      (hresults : s'.results = s.results) : s.Files s' :=
    .leave events [] hlog (by simp) (.of_functions hfunctions) hunits hresults
  cases h with
  | same => exact hleave (by simp : ∀ e ∈ ([] : List Event), e.isFunction = true) rfl rfl rfl
  | forget => exact .forget rfl
  | @revisit url id key known =>
    refine .obtain url id [] (by simp) (.of_functions (by simp)) (fun other hother ↦ ?_) ?_ ?_
    · rw [known, Option.some.injEq] at hother
      exact hother.symm
    · simpa using known
    · simp
  | @refuse url functions reads unknown functions_only read =>
    exact .leave (functions ++ reads) [.refused url] rfl (by simp)
      (.append functions_only read unknown) rfl rfl
  | @file script functions reads key unknown located built read =>
    refine .obtain script.url s.scripts.length (functions ++ reads) (by simp)
      (.append built.functions_only read unknown) (fun other hother ↦ ?_) ?_
      fun {url id} hknown ↦ ?_
    · rw [unknown] at hother
      cases hother
    · simp [Table.get?_insert]
    · rw [units_learn, units_note, units_file, Table.get?_insert, if_neg]
      · exact hknown
      · rintro rfl
        rw [unknown] at hknown
        cases hknown
  | make _ built => exact hleave built.functions_only rfl rfl rfl
  | fail functions_only => exact hleave functions_only rfl rfl rfl
  | compile _ _ built => exact hleave built.functions_only rfl rfl rfl

/-- Until all is forgotten, URLs keep their units. -/
theorem Files.kept (h : s.Files s') :
    ∃ events, s'.log = events ++ s.log ∧ (.reset ∉ events →
      ∀ {url id}, s.units.get? url = some id → s'.units.get? url = some id) := by
  cases h with
  | leave events refusals log refused attempts units results =>
    exact ⟨_, log, fun _ _ _ hknown ↦ units ▸ hknown⟩
  | forget log => exact ⟨[.reset], log, fun hreset ↦ absurd List.mem_cons_self hreset⟩
  | obtain url id events log attempts agree filed kept => exact ⟨_, log, fun _ ↦ kept⟩

/-- What is obtained is the unit of the URL, which had no other. -/
theorem Files.obtained (h : s.Files s') (hlog : s'.log = events ++ s.log)
    (hmem : .obtained url id ∈ events) :
    (∀ other, s.units.get? url = some other → other = id) ∧ s'.units.get? url = some id := by
  cases h with
  | leave events' refusals log refused attempts units results =>
    rw [hlog, List.append_cancel_right_eq] at log
    rw [log, List.mem_append] at hmem
    rcases hmem with hmem | hmem
    · exact absurd hmem (not_mem_of_refused refused (by simp))
    · exact absurd hmem attempts.not_obtained
  | forget log =>
    rw [hlog, ← List.singleton_append, List.append_cancel_right_eq] at log
    rw [log] at hmem
    simp at hmem
  | obtain url' id' events' log attempts agree filed kept =>
    rw [hlog, List.append_cancel_right_eq] at log
    rw [log] at hmem
    rcases List.mem_cons.mp hmem with heq | hmem
    · cases heq
      exact ⟨agree, filed⟩
    · exact absurd hmem attempts.not_obtained

/-- Both tables stay if no file is obtained and nothing is forgotten. When a file is refused, none
is obtained and nothing is forgotten. -/
theorem Files.unchanged (h : s.Files s') (hlog : s'.log = events ++ s.log) :
    ((∀ url id, .obtained url id ∉ events) → .reset ∉ events →
      s'.units = s.units ∧ s'.results = s.results) ∧
    ∀ url, .refused url ∈ events → s'.units = s.units ∧ s'.results = s.results := by
  cases h with
  | leave events' refusals log refused attempts units results =>
    exact ⟨fun _ _ ↦ ⟨units, results⟩, fun _ _ ↦ ⟨units, results⟩⟩
  | forget log =>
    rw [hlog, ← List.singleton_append, List.append_cancel_right_eq] at log
    subst log
    exact ⟨fun _ hreset ↦ absurd List.mem_cons_self hreset, by simp⟩
  | obtain url' id' events' log attempts agree filed kept =>
    rw [hlog, List.append_cancel_right_eq] at log
    subst log
    refine ⟨fun hobtained ↦ absurd List.mem_cons_self (hobtained url' id'), fun url hmem ↦ ?_⟩
    exact absurd ((List.mem_cons.mp hmem).resolve_left (by simp)) (attempts.not_mem rfl (by simp))

/-- A reference leads where it has led before, or to a unit that is obtained. -/
theorem Next.results (h : s.Next p host s') {key : String}
    (hresult : s'.results.get? key = some id) :
    s.results.get? key = some id ∨
      ∃ url events, s'.log = (.obtained url id :: events) ++ s.log := by
  -- a unit that has been obtained may be remembered for a reference
  have hlearn {s' : Stock} {url : Url} {other : UnitId} {key' : Option String}
      {events : List Event} (hresults : s'.results = s.results)
      (hlog : s'.log = (.obtained url other :: events) ++ s.log)
      (hresult : (s'.learn other key').results.get? key = some id) :
      s.results.get? key = some id ∨
        ∃ url events, (s'.learn other key').log = (.obtained url id :: events) ++ s.log := by
    rw [log_learn]
    cases key' with
    | none => exact .inl (hresults ▸ hresult)
    | some key' =>
      rw [learn, Table.get?_insert, hresults] at hresult
      split at hresult
      · cases hresult
        exact .inr ⟨url, events, hlog⟩
      · exact .inl hresult
  cases h with
  | same | refuse | make | fail | compile => exact .inl hresult
  | forget => cases hresult
  | revisit => exact hlearn rfl rfl hresult
  | file => exact hlearn rfl rfl hresult

/-! ## What is told since all was forgotten -/

/-- What the log tells agrees with the table of units: a file that led to a unit leads there still,
and a file was not read after it had led to a unit. -/
structure Orderly (s : Stock) : Prop where
  obtained : ∀ {url id}, .obtained url id ∈ Journal.recent s.log → s.units.get? url = some id
  read : ∀ {url id before}, .read url :: before <:+ s.log →
    .obtained url id ∉ Journal.recent before

theorem suffix_append_cases {e : Event} {before events log : List Event}
    (h : e :: before <:+ events ++ log) :
    (∃ later earlier, events = later ++ e :: earlier ∧ before = earlier ++ log) ∨
      e :: before <:+ log := by
  induction events with
  | nil => exact .inr h
  | cons first rest ih =>
    rcases List.suffix_cons_iff.mp h with heq | h
    · cases heq
      exact .inl ⟨[], rest, rfl, rfl⟩
    · rcases ih h with ⟨later, earlier, rfl, rfl⟩ | h
      · exact .inl ⟨first :: later, earlier, rfl, rfl⟩
      · exact .inr h

/-- A file that is read now has not led to a unit. -/
theorem Orderly.read_attempts (h : s.Orderly) (hattempts : s.Attempts events) {before : List Event}
    (hsuffix : .read url :: before <:+ events ++ s.log) :
    .obtained url id ∉ Journal.recent before := by
  rcases suffix_append_cases hsuffix with ⟨later, earlier, rfl, rfl⟩ | hsuffix
  · obtain ⟨url', heq, hunknown⟩ := (hattempts (.read url) (by simp)).resolve_left (by
      simp [Event.isFunction])
    cases heq
    have hearlier : s.Attempts earlier := fun e he ↦ hattempts e (by simp [he])
    have hreset : ∀ e ∈ earlier, e ≠ .reset :=
      fun e he heq ↦ hearlier.not_mem rfl (by simp) (heq ▸ he)
    rw [Journal.recent_append hreset, List.mem_append]
    rintro (hmem | hmem)
    · exact hearlier.not_obtained hmem
    · rw [h.obtained hmem] at hunknown
      cases hunknown
  · exact h.read hsuffix

theorem Files.orderly (h : s.Files s') (hs : s.Orderly) : s'.Orderly := by
  cases h with
  | leave events refusals log refused attempts units results =>
    have hreset : ∀ e ∈ refusals ++ events, e ≠ .reset := by
      rintro e he rfl
      rcases List.mem_append.mp he with he | he
      · exact not_mem_of_refused refused (by simp) he
      · exact attempts.not_mem rfl (by simp) he
    refine ⟨fun hmem ↦ ?_, fun {url id before} hsuffix ↦ ?_⟩
    · rw [log, Journal.recent_append hreset, List.mem_append, List.mem_append] at hmem
      rw [units]
      rcases hmem with (hmem | hmem) | hmem
      · exact absurd hmem (not_mem_of_refused refused (by simp))
      · exact absurd hmem attempts.not_obtained
      · exact hs.obtained hmem
    · rw [log, List.append_assoc] at hsuffix
      rcases suffix_append_cases hsuffix with ⟨later, earlier, heq, -⟩ | hsuffix
      · exact absurd (by simp [heq]) (not_mem_of_refused refused (e := .read url) (by simp))
      · exact hs.read_attempts attempts hsuffix
  | forget log =>
    refine ⟨fun hmem ↦ ?_, fun hsuffix ↦ ?_⟩
    · rw [log, Journal.recent_reset] at hmem
      cases hmem
    · rw [log] at hsuffix
      rcases List.suffix_cons_iff.mp hsuffix with heq | hsuffix
      · cases heq
      · exact hs.read hsuffix
  | obtain url id events log attempts agree filed kept =>
    have hreset : ∀ e ∈ .obtained url id :: events, e ≠ .reset := by
      rintro e he rfl
      exact attempts.not_mem rfl (by simp) ((List.mem_cons.mp he).resolve_left (by simp))
    refine ⟨fun {url' id'} hmem ↦ ?_, fun hsuffix ↦ ?_⟩
    · rw [log, Journal.recent_append hreset, List.mem_append, List.mem_cons] at hmem
      rcases hmem with (heq | hmem) | hmem
      · cases heq
        exact filed
      · exact absurd hmem attempts.not_obtained
      · exact kept (hs.obtained hmem)
    · rw [log] at hsuffix
      rcases List.suffix_cons_iff.mp hsuffix with heq | hsuffix
      · cases heq
      · exact hs.read_attempts attempts hsuffix

end Stock

namespace Journal

theorem recent_filter_isMaking (journal : List Event) :
    recent (journal.filter Event.isMaking) = (recent journal).filter Event.isMaking := by
  induction journal with
  | nil => rfl
  | cons e rest ih =>
    by_cases hreset : e = .reset
    · subst hreset
      rfl
    · rw [recent_cons hreset]
      cases hmaking : e.isMaking with
      | false => rw [List.filter_cons_of_neg (by simp [hmaking]), ih,
          List.filter_cons_of_neg (by simp [hmaking])]
      | true => rw [List.filter_cons_of_pos hmaking, recent_cons hreset, ih,
          List.filter_cons_of_pos hmaking]

end Journal

namespace Machine

open Loader

variable {m m₁ : Machine ω χ} {earlier machines : List (Machine ω χ)} {url : Url} {id : UnitId}

theorem Reachable.files (h : m.Reachable p) : m.loader.stock.Files (m.step p).loader.stock :=
  h.next_stock.files

theorem Reachable.orderly (h : m.Reachable p) : m.loader.stock.Orderly := by
  induction h with
  | start fresh code =>
    have hlog (l : Loader ω χ) (hl : l.IsFresh) : l.stock.log = [] := by
      rw [stock, hl.journal]
      rfl
    refine ⟨fun hmem ↦ ?_, fun hsuffix ↦ ?_⟩
    · rw [hlog _ fresh] at hmem
      cases hmem
    · rw [hlog _ fresh] at hsuffix
      cases List.suffix_nil.mp hsuffix
  | step hreachable ih => exact hreachable.files.orderly ih
  | again _ _ _ ih => exact ih

theorem log_of_journal {l l' : Loader ω χ} {events : List Event}
    (h : l'.journal = events ++ l.journal) :
    l'.stock.log = events.filter Event.isMaking ++ l.stock.log := by
  rw [stock, stock, h, List.filter_append]

section

variable (p)

/-- A unit that a machine has for a URL, or gets for it in the next step. -/
inductive Yields (m : Machine ω χ) (url : Url) (id : UnitId) : Prop
  /-- The URL has the unit: so it is found when the URL is opened, or asked for. -/
  | registered (known : m.loader.cache.unit? url = some id)
  /-- A reference has led to the unit: so it is found when the reference is searched, for a wave or
  for an import. -/
  | recalled {key s} (result : m.loader.cache.result? key = some id)
      (known : m.loader.standing? id = some s) (named : s.url = url)
  /-- A file leads to the unit: it is opened, it is handed over by code, or it is what a lookup has
  found, of a wave or of an import. -/
  | obtained {events} (journal : (m.step p).loader.journal = events ++ m.loader.journal)
      (told : .obtained url id ∈ events)

end

theorem Reachable.filed_of_result (h : m.Reachable p) {key : String}
    (hresult : m.loader.cache.result? key = some id) :
    ∃ s, m.loader.standing? id = some s ∧ m.loader.cache.unit? s.url = some id := by
  obtain ⟨url, hfiled⟩ := h.registered hresult
  obtain ⟨s, hs, rfl⟩ := h.sound.tidy.unit hfiled
  exact ⟨s, hs, hfiled⟩

/-- Before the step the URL has the unit or none, and after it the unit, unless all is
forgotten. -/
theorem Yields.cases (hyields : m.Yields p url id) (h : m.Reachable p) :
    m.loader.cache.unit? url = some id ∨
      m.loader.cache.unit? url = none ∧ (m.step p).loader.cache.unit? url = some id := by
  cases hyields with
  | registered known => exact .inl known
  | recalled result known named =>
    obtain ⟨s, hs, hfiled⟩ := h.filed_of_result result
    rw [known, Option.some.injEq] at hs
    exact .inl (named ▸ hs ▸ hfiled)
  | obtained journal told =>
    have htold : .obtained url id ∈ List.filter Event.isMaking _ :=
      List.mem_filter.mpr ⟨told, rfl⟩
    obtain ⟨hagree, hfiled⟩ := h.files.obtained (log_of_journal journal) htold
    cases hunit : m.loader.cache.unit? url with
    | none => exact .inr ⟨rfl, hfiled⟩
    | some other => exact .inl (congrArg some (hagree other hunit))

/-- A unit that is yielded is known after the step, and the URL is its own. -/
theorem Reachable.yields_own (h : m.Reachable p) :
    (∃ url, m.Yields p url id) →
      ∃ s, (m.step p).loader.standing? id = some s ∧ m.Yields p s.url id := by
  rintro ⟨url, hyields⟩
  obtain ⟨s, hs, rfl⟩ : ∃ s, (m.step p).loader.standing? id = some s ∧ s.url = url := by
    rcases hyields.cases h with hfiled | ⟨-, hfiled⟩
    · obtain ⟨s, hs, rfl⟩ := h.sound.tidy.unit hfiled
      obtain ⟨s', hs', hurl, -⟩ := (extends_step p m).2 hs
      exact ⟨s', hs', hurl⟩
    · exact h.step.sound.tidy.unit hfiled
  exact ⟨s, hs, hyields⟩

/-! ## What is yielded -/

/-- The unit that a file leads to is told last. -/
theorem exists_obtained (l : Loader ω χ) (resource : Resource)
    (h : (l.unitOfResource p resource).2 = .ok id) :
    ∃ events, (l.unitOfResource p resource).1.journal
      = (.obtained resource.url id :: events) ++ l.journal := by
  have hmakes := l.makes_createOfResource p resource
  rw [unitOfResource] at h ⊢
  cases hknown : l.cache.unit? resource.url with
  | some other =>
    rw [hknown] at h
    cases h
    exact ⟨[], rfl⟩
  | none =>
    rw [hknown] at h
    rcases hmade : l.createOfResource p resource with ⟨l', result⟩
    rw [hmade] at hmakes h
    cases hmakes with
    | failed => cases h
    | made world events unit =>
      cases h
      exact ⟨events, rfl⟩

/-- Code that hands over a file gets the unit that the file leads to. -/
theorem yields_of_resource {resource : Resource} {next : Except LoaderError UnitId → Code ω}
    (hcontrol : m.control = .running (.createFromResource resource next))
    (h : (m.loader.unitOfResource p resource).2 = .ok id) : m.Yields p resource.url id := by
  obtain ⟨events, hjournal⟩ := exists_obtained m.loader resource h
  have hstep : (m.step p).loader = (m.loader.unitOfResource p resource).1 := by
    rw [step, hcontrol]
    rfl
  exact .obtained (hstep ▸ hjournal) List.mem_cons_self

/-- Code that opens a URL gets the unit of the URL, or the one that the file leads to which is found
there. -/
theorem yields_of_openUnit {wanted : Url} {next : Awaited UnitId → Code ω}
    (hcontrol : m.control = .running (.openUnit wanted next))
    (h : (m.loader.openUnit p wanted).2 = .settled (.ok id)) : ∃ url, m.Yields p url id := by
  have hstep : (m.step p).loader = (m.loader.openUnit p wanted).1 := by
    rw [step, hcontrol]
    rfl
  rw [openUnit] at h hstep
  cases hknown : m.loader.cache.unit? wanted with
  | some other =>
    rw [hknown] at h
    cases h
    exact ⟨wanted, .registered hknown⟩
  | none =>
    simp only [hknown] at h hstep
    rcases hresolve : p.resolver.resolve m.loader.world wanted m.loader.substitutions with
      ⟨world, ticket⟩
    rcases hnext : p.resolver.next? world [ticket] with ⟨world', _ | picked⟩
    all_goals simp only [hresolve, hnext] at h hstep
    · cases h
    · rw [Awaited.settled.injEq] at h
      obtain ⟨resource, hanswer, -⟩ := exists_of_unitOfAnswer p h
      rw [hanswer] at h hstep
      obtain ⟨events, hjournal⟩ := exists_obtained _ resource h
      exact ⟨resource.url, .obtained (hstep ▸ hjournal) List.mem_cons_self⟩

/-- A reference that leads to a unit after a step has led there before, or the unit is yielded. -/
theorem Reachable.yields_of_result (h : m.Reachable p) {key : String}
    (hresult : (m.step p).loader.cache.result? key = some id) :
    ∃ url, m.Yields p url id := by
  rcases h.next_stock.results hresult with hbefore | ⟨url, events, hlog⟩
  · obtain ⟨s, hs, -⟩ := h.filed_of_result hbefore
    exact ⟨s.url, .recalled hbefore hs rfl⟩
  · obtain ⟨more, hjournal⟩ := (extends_step p m).1
    have hmore := (log_of_journal hjournal.symm).symm.trans hlog
    rw [List.append_cancel_right_eq] at hmore
    have htold : .obtained url id ∈ more.filter Event.isMaking := hmore ▸ List.mem_cons_self
    exact ⟨url, .obtained hjournal.symm (List.mem_filter.mp htold).1⟩

/-- Whatever leads to a unit yields it, and does so for the URL of the unit. -/
structure Routes (p : Platform ω χ) (m : Machine ω χ) : Prop where
  handed : ∀ {resource next id}, m.control = .running (.createFromResource resource next) →
    (m.loader.unitOfResource p resource).2 = .ok id → m.Yields p resource.url id
  opened : ∀ {wanted next id}, m.control = .running (.openUnit wanted next) →
    (m.loader.openUnit p wanted).2 = .settled (.ok id) →
    ∃ s, (m.step p).loader.standing? id = some s ∧ m.Yields p s.url id
  /-- A reference leads to the unit after the step, for a wave, for an import or for code. -/
  referred : ∀ {key id}, (m.step p).loader.cache.result? key = some id →
    ∃ s, (m.step p).loader.standing? id = some s ∧ m.Yields p s.url id

theorem Reachable.routes (h : m.Reachable p) : m.Routes p where
  handed := yields_of_resource
  opened hcontrol hopened := h.yields_own (yields_of_openUnit hcontrol hopened)
  referred hresult := h.yields_own (h.yields_of_result hresult)

namespace History

/-- **Until all is forgotten, URLs keep their units** from one step to any later machine. -/
theorem kept (h : History p (m :: earlier)) (hm₁ : m₁ ∈ earlier) :
    ∃ events, m.loader.stock.log = events ++ (m₁.step p).loader.stock.log ∧ (.reset ∉ events →
      ∀ {url id}, (m₁.step p).loader.cache.unit? url = some id →
        m.loader.cache.unit? url = some id) := by
  generalize heq : m :: earlier = machines at h
  induction h generalizing m earlier with
  | start fresh code =>
    cases heq
    cases hm₁
  | @step m' earlier' history ih =>
    cases heq
    rcases List.mem_cons.mp hm₁ with rfl | hm₁
    · exact ⟨[], rfl, fun _ _ _ hknown ↦ hknown⟩
    · obtain ⟨events, hlog, hkept⟩ := ih hm₁ rfl
      obtain ⟨events', hlog', hkept'⟩ := history.reachable.files.kept
      refine ⟨events' ++ events, by rw [hlog', hlog, List.append_assoc], fun hreset ↦ ?_⟩
      rw [List.mem_append, not_or] at hreset
      exact fun hknown ↦ hkept' hreset.1 (hkept hreset.2 hknown)
  | @again m' earlier' history halted code ih =>
    cases heq
    rcases List.mem_cons.mp hm₁ with rfl | hm₁
    · rw [step_of_isHalted halted]
      exact ⟨[], rfl, fun _ _ _ hknown ↦ hknown⟩
    · obtain ⟨events, hlog, hkept⟩ := ih (m := m') hm₁ rfl
      exact ⟨events, hlog, hkept⟩

/-- Between two resets, a URL has the same unit for all that lead to it. -/
theorem yields_unique (h : History p (m :: earlier)) (hm₁ : m₁ ∈ m :: earlier)
    {stretch : List Event} (hstretch : m.loader.journal = stretch ++ m₁.loader.journal)
    (hreset : .reset ∉ stretch) {id₁ : UnitId} (hyields₁ : m₁.Yields p url id₁)
    (hyields : m.Yields p url id) : id₁ = id := by
  have hreachable₁ := h.reachable_of_mem hm₁
  have hnow := hyields.cases h.reachable
  have hthen := hyields₁.cases hreachable₁
  rcases List.mem_cons.mp hm₁ with rfl | hm₁
  · rcases hthen with hthen | ⟨hthen, hnext₁⟩ <;> rcases hnow with hnow | ⟨hnow, hnext⟩
    · exact Option.some.inj (hthen.symm.trans hnow)
    · cases hthen.symm.trans hnow
    · cases hthen.symm.trans hnow
    · exact Option.some.inj (hnext₁.symm.trans hnext)
  · -- the unit that the URL had then it has now
    have hkept : m.loader.cache.unit? url = some id₁ := by
      obtain ⟨events, hlog, hkept⟩ := h.kept hm₁
      obtain ⟨first, hfirst, hstep⟩ := hreachable₁.files.kept
      have hevents : stretch.filter Event.isMaking = events ++ first := by
        have hboth := (log_of_journal hstretch).symm.trans hlog
        rwa [hfirst, ← List.append_assoc, List.append_cancel_right_eq] at hboth
      have hnone : .reset ∉ events ++ first := fun hmem ↦
        hreset (List.mem_filter.mp (hevents ▸ hmem)).1
      rw [List.mem_append, not_or] at hnone
      rcases hthen with hthen | ⟨-, hnext⟩
      · exact hkept hnone.1 (hstep hnone.2 hthen)
      · exact hkept hnone.1 hnext
    rcases hnow with hnow | ⟨hnow, -⟩
    · exact Option.some.inj (hkept.symm.trans hnow)
    · cases hkept.symm.trans hnow

/-- **One unit for each URL.** Each unit is filed under its own URL, and what a reference has led to
is the unit of its URL. Between two resets a URL has the same unit for all that lead to it, whether
a file is handed over, a URL is opened or a reference is searched, and the unit that its files have
led to since the last reset is the one it has now. A file is not read once it has led to a unit,
until all is forgotten; and a step in which no file leads to a unit, one in which a file is refused
above all, leaves both tables alone. -/
theorem one_unit_for_url (h : History p (m :: earlier)) :
    (∀ url id, m.loader.cache.unit? url = some id →
      ∃ s, m.loader.standing? id = some s ∧ s.url = url) ∧
    (∀ key id, m.loader.cache.result? key = some id →
      ∃ s, m.loader.standing? id = some s ∧ m.loader.cache.unit? s.url = some id) ∧
    (∀ m₁ ∈ m :: earlier, ∀ stretch, m.loader.journal = stretch ++ m₁.loader.journal →
      .reset ∉ stretch → ∀ url id₁ id, m₁.Yields p url id₁ → m.Yields p url id → id₁ = id) ∧
    m.Routes p ∧
    (∀ url id, .obtained url id ∈ Journal.recent m.loader.journal →
      m.loader.cache.unit? url = some id) ∧
    (∀ url before, .read url :: before <:+ m.loader.journal →
      ∀ id, .obtained url id ∉ Journal.recent before) ∧
    ∀ events, (m.step p).loader.journal = events ++ m.loader.journal →
      ((∀ url id, .obtained url id ∉ events) → .reset ∉ events →
        (m.step p).loader.cache.units = m.loader.cache.units ∧
          (m.step p).loader.cache.results = m.loader.cache.results) ∧
      ∀ url, .refused url ∈ events →
        (m.step p).loader.cache.units = m.loader.cache.units ∧
          (m.step p).loader.cache.results = m.loader.cache.results := by
  have hreachable := h.reachable
  refine ⟨fun _ _ hfiled ↦ hreachable.sound.tidy.unit hfiled,
    fun _ _ hresult ↦ hreachable.filed_of_result hresult,
    fun _ hm₁ _ hstretch hreset _ _ _ hyields₁ hyields ↦
      h.yields_unique hm₁ hstretch hreset hyields₁ hyields, hreachable.routes,
    fun url id hmem ↦ ?_, fun url before hsuffix id hmem ↦ ?_, fun events hjournal ↦ ?_⟩
  · have hlogged : .obtained url id ∈ Journal.recent m.loader.stock.log := by
      rw [stock, Journal.recent_filter_isMaking]
      exact List.mem_filter.mpr ⟨hmem, rfl⟩
    exact hreachable.orderly.obtained hlogged
  · have hlogged := hsuffix.filter Event.isMaking
    rw [List.filter_cons_of_pos rfl] at hlogged
    have hrecent : .obtained url id ∈ Journal.recent (before.filter Event.isMaking) := by
      rw [Journal.recent_filter_isMaking]
      exact List.mem_filter.mpr ⟨hmem, rfl⟩
    exact hreachable.orderly.read hlogged hrecent
  · obtain ⟨hsame, hrefused⟩ := hreachable.files.unchanged (log_of_journal hjournal)
    refine ⟨fun hobtained hreset ↦ hsame (fun url id hmem ↦ ?_) fun hmem ↦ ?_, fun url hmem ↦ ?_⟩
    · exact hobtained url id (List.mem_filter.mp hmem).1
    · exact hreset (List.mem_filter.mp hmem).1
    · exact hrefused url (List.mem_filter.mpr ⟨hmem, rfl⟩)

end History

theorem mem_prolong (hm₁ : m₁ ∈ machines) (count : Nat) : m₁ ∈ prolong p count machines := by
  induction count generalizing machines with
  | zero => exact hm₁
  | succ count ih =>
    cases machines with
    | nil => cases hm₁
    | cons m earlier => exact ih (List.mem_cons_of_mem _ hm₁)

def opening : Machine (List Request) Unit :=
  let file : Url := .file "/a".toList
  let done : Code (List Request) := .finish (.ok .undefined)
  let code : Code (List Request) := .openUnit file fun
    | .settled (.ok id) => .createFromResource ⟨file, ""⟩ fun _ ↦
      .loadDependencies id none fun _ ↦ .drive fun _ ↦ done
    | _ => done
  { loader := { world := [], base := .file "/".toList }, control := .running code }

/-- It is handed over by code as well, and the wave that its unit begins finds it again. -/
def reopened : List (Machine (List Request) Unit) :=
  prolong (Project.pair.platform List.head?) 16 [opening]

/-- The file that has led to a unit three times was read once, and the unit that it led to at first
is the one that it leads to at last. -/
theorem one_unit_for_url_reopened :
    (reopened.head?.any fun m ↦
      m.loader.journal.count (.obtained (.file "/a".toList) 0) = 3 &&
        m.loader.journal.count (.read (.file "/a".toList)) = 1) = true ∧
    ∀ id, opening.Yields (Project.pair.platform List.head?) (.file "/a".toList) id → id = 0 := by
  have hhistory : History (Project.pair.platform List.head?) reopened :=
    (History.start (isFresh_mk _ _) _).prolong 16
  have hopening : opening ∈ reopened := mem_prolong (List.mem_singleton_self _) 16
  have hcounts : (reopened.head?.any fun m ↦
      m.loader.journal.count (.obtained (.file "/a".toList) 0) = 3 &&
        m.loader.journal.count (.read (.file "/a".toList)) = 1) = true := by decide +kernel
  have hended : (reopened.head?.any fun m ↦ m.loader.journal.all (· ≠ .reset) &&
      m.loader.cache.unit? (.file "/a".toList) = some 0) = true := by decide +kernel
  refine ⟨hcounts, fun id hyields ↦ ?_⟩
  generalize reopened = machines at hhistory hopening hended
  obtain _ | ⟨m, earlier⟩ := machines
  · cases hhistory
  simp only [List.head?_cons, Option.any_some, Bool.and_eq_true, List.all_eq_true,
    decide_eq_true_eq] at hended
  obtain ⟨hreset, hfiled⟩ := hended
  obtain ⟨-, -, hunique, -⟩ := History.one_unit_for_url hhistory
  have hstretch : m.loader.journal = m.loader.journal ++ opening.loader.journal :=
    (List.append_nil _).symm
  exact hunique opening hopening _ hstretch (fun hmem ↦ hreset _ hmem rfl) _ id 0 hyields
    (.registered hfiled)

/-- A file is handed over twice against whose URL nothing can be resolved. -/
def handingOver : Machine (List Request) Unit :=
  let file : Resource := ⟨⟨"mailto".toList, none, "a".toList, none, none⟩, ""⟩
  let code : Code (List Request) := .createFromResource file fun _ ↦
    .createFromResource file fun _ ↦ .finish (.ok .undefined)
  { loader := { world := [], base := .file "/".toList }, control := .running code }

/-- A file may be read twice without anything being forgotten, namely when no unit can be made of
it. -/
theorem not_read_once :
    ¬∀ m : Machine (List Request) Unit, m.Reachable (Project.pair.platform List.head?) →
      ∀ url, (Journal.recent m.loader.journal).count (.read url) ≤ 1 := by
  intro honce
  have hreachable : (run (Project.pair.platform List.head?) 2 handingOver).Reachable
      (Project.pair.platform List.head?) := (Reachable.start (isFresh_mk _ _) _).run _ 2
  have htwice : (Journal.recent (run (Project.pair.platform List.head?) 2
      handingOver).loader.journal).count
        (.read ⟨"mailto".toList, none, "a".toList, none, none⟩) = 2 := by decide +kernel
  have hbound := honce _ hreachable ⟨"mailto".toList, none, "a".toList, none, none⟩
  omega

end Machine

end ScriptLoader
