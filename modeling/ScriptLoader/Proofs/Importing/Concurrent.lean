import ScriptLoader.Proofs.Importing.Answering
import ScriptLoader.Proofs.Importing.Checked

/-!
# Imports that are under way together

Imports are accepted by an idle loader, one after the other, and then it is driven. In whichever
order the lookups complete, each import is over in the end: the file is executed, and the callback
is called once, with what the body has returned. The one exception is that an import may be refused.

Accepting an import starts a lookup, unless the reference has led to a unit before: then the import
is served at once.
-/

namespace ScriptLoader

variable {ω χ : Type}

/-- An import as code asks for it: with an importer, or from the base directory of the loader. -/
structure Import (ω : Type) where
  importer : Option Operation
  reference : Reference
  deliver : Option (Outcome → Code ω)

namespace Import

/-- Asks for an import. -/
def program (i : Import ω) : Program ω (Except LoaderError Unit) :=
  match i.importer with
  | some importer => .importFile importer i.reference i.deliver
  | none => .importTopLevel i.reference i.deliver

def key (base : Url) (i : Import ω) : String :=
  i.reference.key (i.importer.elim base (·.context)).text

def errand (leads : String → Url) (base : Url) (i : Import ω) : Errand ω :=
  (leads (i.key base), i.deliver)

end Import

/-- Code that asks for imports, one after the other, and then drives the loader. -/
def importAll (next : Awaited Unit → Code ω) : List (Import ω) → Code ω
  | [] => .drive next
  | i :: rest => i.program fun
    | .ok _ => importAll next rest
    | .error e => .finish (.error e)

namespace Machine

open Loader

variable {p : Platform ω χ} {leads : String → Url} {keys : List String} {start : Machine ω χ}
  {l : Loader ω χ} {control : Control ω} {base : List (Frame ω χ)} {m : Machine ω χ}
  {total : Multiset (Errand ω)} {after : Except LoaderError Unit → Code ω}
  {next : Awaited Unit → Code ω}

/-! ## Imports are accepted -/

theorem Unhindered.not_isRefused (h : Unhindered p leads keys start) (hv : Visits p start m)
    (hrefused : IsRefused p total m (.resumeAfter after :: base)) : False := by
  obtain ⟨deliveries, l', url, deliver, rest, hshows, -⟩ := hrefused
  cases h.granted (hv.shows hshows)

/-- What accepting an import comes to. -/
theorem Unhindered.search (h : Unhindered p leads keys start) {searcher : Operation}
    {r : Reference} {origin : Option Url} {deliver : Option (Outcome → Code ω)}
    (hv : Visits p start (Machine.search p ⟨l, control, .resumeAfter after :: base⟩ searcher r
      origin (.importing deliver)))
    (hknows : l.Knows leads []) (htidy : l.Tidy) :
    ∃ l₁ : Loader ω χ, l₁.base = l.base ∧
      Settles p leads keys l₁
        (l.errands leads + {(leads (r.key searcher.context.text), deliver)})
        (Machine.search p ⟨l, control, .resumeAfter after :: base⟩ searcher r origin
          (.importing deliver)) (.resumeAfter after :: base) := by
  rcases search_cases p ⟨l, control, .resumeAfter after :: base⟩ searcher r origin
      (.importing deliver) with ⟨id, hresult, heq⟩ | ⟨-, ⟨cause, -, heq⟩ | ⟨request, -, heq⟩⟩
  -- the reference has led to a unit before
  · rw [heq] at hv ⊢
    obtain ⟨s, hs, hurl⟩ := hknows.led hresult
    rw [← hurl]
    rcases h.serve hv hknows htidy hs with hsettles | hrefused
    · exact ⟨l, rfl, hsettles⟩
    · exact (h.not_isRefused hv hrefused).elim
  -- the reference cannot be looked up
  · rw [heq] at hv
    cases h.granted hv
  · obtain ⟨world, lookup, hlists, hkey, hpurpose⟩ : ∃ world lookup,
        Machine.search p ⟨l, control, .resumeAfter after :: base⟩ searcher r origin
            (.importing deliver) =
          done ⟨l.enlist world request lookup, control, .resumeAfter after :: base⟩ ∧
        lookup.key = r.key searcher.context.text ∧ lookup.purpose = .importing deliver :=
      ⟨_, _, heq, rfl, rfl⟩
    have herrands : (l.enlist world request lookup).errands leads
        = l.errands leads + {(leads (r.key searcher.context.text), deliver)} := by
      rw [errands_enlist, Lookup.errand?, hpurpose, hkey]
      rfl
    rw [hlists, ← herrands]
    exact ⟨l.enlist world request lookup, rfl,
      .done (hknows.enlist world request lookup) (.refl keys _)⟩

/-- **An import is accepted.** -/
theorem Unhindered.importFile (h : Unhindered p leads keys start) {importer : Operation}
    {r : Reference} {deliver : Option (Outcome → Code ω)}
    (hv : Visits p start ⟨l, .running (.importFile importer r deliver after), base⟩)
    (hknows : l.Knows leads []) :
    ∃ (deliveries : List (Delivery ω)) (l' : Loader ω χ),
      Shows p ⟨l, .running (.importFile importer r deliver after), base⟩
        (deliveries.flatMap Delivery.events) ⟨l', .running (after (.ok ⟨⟩)), base⟩ ∧
      l'.Knows leads [] ∧ l'.base = l.base ∧
      (deliveries.map Delivery.errand : Multiset (Errand ω)) + l'.errands leads
        = l.errands leads + {(leads (r.key importer.context.text), deliver)} := by
  have htidy := ((hv.reachable h.reachable).sound p).tidy
  -- caching is turned on, and a searcher is made
  obtain ⟨l₁, searcher, hsearcher⟩ : ∃ l₁ searcher,
      (l.touch p.resolver.enableCaching).operation .searcher importer.context = (l₁, searcher) :=
    ⟨_, _, rfl⟩
  have hexecuted : l.Executed l₁ := by
    have hmade := (l.touch p.resolver.enableCaching).executed_operation .searcher importer.context
    rw [hsearcher] at hmade
    exact (l.executed_world _).trans hmade
  have hcontext : searcher.context.text = importer.context.text := by
    have hbound : (l.touch p.resolver.enableCaching).OperationsBound := htidy.bound
    have htext := operation_context hbound .searcher importer.context
    rwa [hsearcher] at htext
  obtain ⟨origin, hstep⟩ : ∃ origin,
      step p ⟨l, .running (.importFile importer r deliver after), base⟩ =
        Machine.search p ⟨l₁, .running (.importFile importer r deliver after),
          .resumeAfter after :: base⟩ searcher r origin (.importing deliver) := by
    refine ⟨(l₁.compiling.bind l₁.unit?).map (·.info.url), ?_⟩
    simp only [step, runCode, hknows.available, Machine.importFile, push, hsearcher]
    rfl
  have hfirst := shows_of_running hstep
  have hv₁ := hv.step
  rw [hstep] at hv₁
  obtain ⟨l₂, hbase, deliveries, l', hshows, hknows', hnears, htotal⟩ :=
    h.search hv₁ (hknows.executed hexecuted) (htidy.quiet hexecuted.quiet)
  have hback : Shows p ⟨l', .returning (.ok .undefined), .resumeAfter after :: base⟩ []
      ⟨l', .running (after (.ok ⟨⟩)), base⟩ := shows_of_step rfl rfl
  refine ⟨deliveries, l', ?_, hknows', (hnears.base.trans hbase).trans hexecuted.base, ?_⟩
  · have hall := (hfirst.trans hshows).trans hback
    rwa [List.append_nil] at hall
  · rw [htotal, hcontext, errands_quiet hexecuted.quiet]

theorem Unhindered.accept (h : Unhindered p leads keys start) {i : Import ω}
    (hv : Visits p start ⟨l, .running (i.program after), base⟩) (hknows : l.Knows leads []) :
    ∃ (deliveries : List (Delivery ω)) (l' : Loader ω χ),
      Shows p ⟨l, .running (i.program after), base⟩ (deliveries.flatMap Delivery.events)
        ⟨l', .running (after (.ok ⟨⟩)), base⟩ ∧
      l'.Knows leads [] ∧ l'.base = l.base ∧
      (deliveries.map Delivery.errand : Multiset (Errand ω)) + l'.errands leads
        = l.errands leads + {i.errand leads l.base} := by
  obtain ⟨importer, r, deliver⟩ := i
  cases importer with
  | some importer => exact h.importFile hv hknows
  | none =>
    -- an importer is made for the base directory
    obtain ⟨l₁, importer, himporter⟩ : ∃ l₁ importer,
        l.operation .importer l.base = (l₁, importer) := ⟨_, _, rfl⟩
    have hexecuted := l.executed_operation .importer l.base
    have htidy := ((hv.reachable h.reachable).sound p).tidy
    have hcontext := operation_context htidy.bound .importer l.base
    rw [himporter] at hexecuted hcontext
    have hlooks : Shows p ⟨l, .running (Import.program ⟨none, r, deliver⟩ after), base⟩ []
        ⟨l, .running (.operation .importer l.base fun importer ↦
          .importFile importer r deliver after), base⟩ := shows_of_running rfl
    have hmakes : Shows p ⟨l, .running (.operation .importer l.base fun importer ↦
        .importFile importer r deliver after), base⟩ []
        ⟨l₁, .running (.importFile importer r deliver after), base⟩ := by
      refine shows_of_running ?_
      simp only [step, runCode, himporter]
      rfl
    have hfirst := hlooks.trans hmakes
    obtain ⟨deliveries, l', hshows, hknows', hbase, htotal⟩ :=
      h.importFile (hv.shows hfirst) (hknows.executed hexecuted)
    refine ⟨deliveries, l', hfirst.trans hshows, hknows', hbase.trans hexecuted.base, ?_⟩
    rw [htotal, hcontext, errands_quiet hexecuted.quiet]
    rfl

theorem Unhindered.acceptAll (h : Unhindered p leads keys start) {imports : List (Import ω)}
    (hv : Visits p start ⟨l, .running (importAll next imports), base⟩) (hknows : l.Knows leads []) :
    ∃ (deliveries : List (Delivery ω)) (l' : Loader ω χ),
      Shows p ⟨l, .running (importAll next imports), base⟩ (deliveries.flatMap Delivery.events)
        ⟨l', .running (.drive next), base⟩ ∧
      l'.Knows leads [] ∧
      (deliveries.map Delivery.errand : Multiset (Errand ω)) + l'.errands leads
        = l.errands leads + (imports.map (Import.errand leads l.base) : List (Errand ω)) := by
  induction imports generalizing l with
  | nil =>
    refine ⟨[], l, .refl _, hknows, ?_⟩
    rw [List.map_nil, List.map_nil, Multiset.coe_nil, zero_add, add_zero]
  | cons i rest ih =>
    obtain ⟨deliveries, l₁, hshows, hknows₁, hbase, htotal⟩ := h.accept hv hknows
    obtain ⟨deliveries', l', hshows', hknows', htotal'⟩ := ih (hv.shows hshows) hknows₁
    have hfirst : (deliveries.map Delivery.errand : Multiset (Errand ω)) + (l₁.errands leads
        + (rest.map (Import.errand leads l₁.base) : List (Errand ω))) = l.errands leads
        + ((i :: rest).map (Import.errand leads l.base) : List (Errand ω)) := by
      rw [← add_assoc, htotal, hbase, add_assoc]
      rfl
    exact ⟨deliveries ++ deliveries', l', hshows.deliveries_append hshows', hknows',
      Delivery.total_append hfirst htotal'⟩

/-! ## Imports are over -/

/-- **Imports that are accepted by an idle loader are all over when it has been driven**, and the
callback of each is called once, with what the body of its file has returned, unless an import is
refused because its file has still to be loaded while the wave of another is active. -/
theorem Unhindered.imports_over {imports : List (Import ω)}
    (h : Unhindered p leads keys ⟨l, .running (importAll next imports), base⟩)
    (hknows : l.Knows leads []) (hwave : l.wave = none) (hlookups : l.lookups = []) :
    (∃ (deliveries : List (Delivery ω)) (l' : Loader ω χ),
      Shows p ⟨l, .running (importAll next imports), base⟩ (deliveries.flatMap Delivery.events)
        ⟨l', .running (next (.settled (.ok ⟨⟩))), base⟩ ∧
      (deliveries.map Delivery.errand).Perm (imports.map (Import.errand leads l.base)) ∧
      l'.wave = none ∧ l'.lookups = [] ∧ l'.Knows leads []) ∨
    ∃ (deliveries : List (Delivery ω)) (l' : Loader ω χ) (url : Url)
        (deliver : Option (Outcome → Code ω)) (rest : List (Errand ω)),
      Shows p ⟨l, .running (importAll next imports), base⟩ (deliveries.flatMap Delivery.events)
        ⟨l', .returning (.error (.reentrancyViolation url.text)), .driving next :: base⟩ ∧
      l'.Refuses url ∧
      Shows p ⟨l', .returning (.error (.reentrancyViolation url.text)), .driving next :: base⟩ []
        ⟨l'.abort p (.reentrancyViolation url.text),
          .running (next (.settled (.error (.reentrancyViolation url.text)))), base⟩ ∧
      (deliveries.map Delivery.errand ++ (url, deliver) :: rest).Perm
        (imports.map (Import.errand leads l.base)) := by
  have hstart := Visits.refl p ⟨l, .running (importAll next imports), base⟩
  obtain ⟨deliveries, l₁, haccepts, hknows₁, haccepted⟩ := h.acceptAll hstart hknows
  rw [hknows.errands_eq_zero hwave hlookups, zero_add] at haccepted
  -- all imports have been accepted, and the loader is driven
  have hv := hstart.shows haccepts
  have hready := ((hv.reachable h.reachable).sound p).ready rfl
  have hdrives := h.drives (l₁.remaining keys + 1) rfl rfl hv (h.granted hv) hready hknows₁
    (Nat.lt_succ_self _)
  cases hdrives with
  | @settled deliveries' l' hshows hknows' hover _ htotal =>
    have hall := haccepts.deliveries_append hshows
    have hready' := (((hstart.shows hall).reachable h.reachable).sound p).ready rfl
    have hnone : l'.wave = none := hready'.balanced.wave_eq_none hover
    rw [hknows'.errands_eq_zero hnone hover, add_zero] at htotal
    rw [← htotal, Multiset.coe_add, ← List.map_append] at haccepted
    exact .inl ⟨_, l', hall, Multiset.coe_eq_coe.mp haccepted, hnone, hover, hknows'⟩
  | refused hrefused =>
    obtain ⟨deliveries', l', url, deliver, rest, hshows, hrefuses, htotal⟩ := hrefused
    have hall := haccepts.deliveries_append hshows
    obtain ⟨others, rfl⟩ : ∃ others : List (Errand ω), (others : Multiset (Errand ω)) = rest :=
      Quot.exists_rep rest
    rw [← htotal, Multiset.cons_coe, Multiset.coe_add, Multiset.coe_add, ← List.append_assoc,
      ← List.map_append] at haccepted
    exact .inr ⟨_, l', url, deliver, others, hall, hrefuses, shows_of_step rfl rfl,
      Multiset.coe_eq_coe.mp haccepted⟩

/-! ## Files that refer to others -/

/-- Two files that each refer to a file of their own. -/
def branches : Project where
  target
    | .resolve url _ => some url
    | .search _ => none
  declared url :=
    if url.text = "file:///a" then [⟨"c", true⟩]
    else if url.text = "file:///b" then [⟨"d", true⟩]
    else []

/-- The file of the root directory that a local reference there is known by. -/
def rootFile (key : String) : Url := .file ('/' :: key.toList.drop "file:/// ".length)

def rootImport (name : String) : Import (List Request) :=
  ⟨none, ⟨name, true⟩, some fun _ ↦ .finish (.ok .undefined)⟩

/-- Code that ends as driving has ended. -/
def reportDriving : Awaited Unit → Code (List Request)
  | .settled result => .finish (result.map fun _ ↦ .undefined)
  | .stalled => .finish (.error .detached)

/-- A loader that is about to import files of the root directory. -/
def importing (next : Awaited Unit → Code (List Request)) (names : List String) :
    Machine (List Request) Unit where
  loader := { world := [], base := .file "/".toList }
  control := .running (importAll next (names.map rootImport))

/-- A file is imported twice, together with the one that it refers to. -/
theorem imports_over_branches :
    Unhindered (branches.platform List.head?) rootFile ["file:/// c"]
        (importing reportDriving ["a", "a", "c"]) ∧
      ∃ (deliveries : List (Delivery (List Request))) (l' : Loader (List Request) Unit),
        Shows (branches.platform List.head?) (importing reportDriving ["a", "a", "c"])
          (deliveries.flatMap Delivery.events)
          ⟨l', .running (reportDriving (.settled (.ok ⟨⟩))), []⟩ ∧
        (deliveries.map Delivery.errand).Perm
          (["a", "a", "c"].map fun name ↦ (rootImport name).errand rootFile (.file "/".toList)) ∧
        l'.wave = none ∧ l'.lookups = [] ∧ l'.Knows rootFile [] := by
  have hfresh := isFresh_mk (χ := Unit) ([] : List Request) (.file "/".toList)
  have hgranted : always (branches.platform List.head?) (fun m ↦
      m.isGranted (branches.platform List.head?) rootFile ["file:/// c"] && m.isPlain) 46
        (importing reportDriving ["a", "a", "c"]) = true := by decide +kernel
  have hunhindered := Unhindered.of_always (.start hfresh _) hgranted
  -- no import is refused
  have hsettles : always (branches.platform List.head?) (fun m ↦ !m.failsDriving) 46
      (importing reportDriving ["a", "a", "c"]) = true := by decide +kernel
  refine ⟨hunhindered, ?_⟩
  rcases Unhindered.imports_over hunhindered (.of_fresh hfresh) rfl rfl with hover | hrefused
  · exact hover
  · obtain ⟨_, _, _, _, _, hshows, -⟩ := hrefused
    cases check_of_always hsettles hshows

/-- Two files that both refer to others are imported by a fresh loader. Nothing stands in the way of
the run, but driving ends in an error, and no callback has been called. When the first of them is
imported once more, by a loader that is idle again, driving succeeds, and still no callback has been
called. -/
theorem imports_refused_branches :
    (Unhindered (branches.platform List.head?) rootFile ["file:/// c", "file:/// d"]
        (importing reportDriving ["a", "b"]) ∧
      ∃ l', Shows (branches.platform List.head?) (importing reportDriving ["a", "b"]) []
        ⟨l', .returning (.error (.reentrancyViolation "file:///b")), []⟩) ∧
    Unhindered (branches.platform List.head?) rootFile ["file:/// c", "file:/// d"]
        (importing (fun _ ↦ importAll reportDriving [rootImport "a"]) ["a", "b"]) ∧
      ∃ l', Shows (branches.platform List.head?)
        (importing (fun _ ↦ importAll reportDriving [rootImport "a"]) ["a", "b"]) []
        ⟨l', .returning (.ok .undefined), []⟩ := by
  have hrefused : always (branches.platform List.head?) (fun m ↦
      m.isGranted (branches.platform List.head?) rootFile ["file:/// c", "file:/// d"] &&
        m.isPlain) 100 (importing reportDriving ["a", "b"]) = true := by decide +kernel
  have hagain : always (branches.platform List.head?) (fun m ↦
      m.isGranted (branches.platform List.head?) rootFile ["file:/// c", "file:/// d"] &&
        m.isPlain) 100 (importing (fun _ ↦ importAll reportDriving [rootImport "a"]) ["a", "b"])
          = true := by decide +kernel
  have hshows := shows_follow (branches.platform List.head?) 16 (importing reportDriving ["a", "b"])
  have hshows' := shows_follow (branches.platform List.head?) 60
    (importing (fun _ ↦ importAll reportDriving [rootImport "a"]) ["a", "b"])
  exact ⟨⟨.of_always (.start (isFresh_mk _ _) _) hrefused, _, hshows⟩,
    .of_always (.start (isFresh_mk _ _) _) hagain, _, hshows'⟩

end Machine

end ScriptLoader
