import ScriptLoader.Proofs.Bundle.RoundTrip
import ScriptLoader.Proofs.History
import ScriptLoader.Proofs.Making.Working

/-!
# Units are rebuilt from their bundles

A unit with code can be written as a bundle, and the bundle is a file like any other. When another
loader makes a unit of it, the unit is as before, and above all its function is: the engine is asked
for the very function that it was asked for when the unit was given its code.

The code of a unit comes from a compiler, from a bundle or from whoever made the unit, and then its
source map is one that has yet to be encoded, one that is encoded already, or none. What the engine
is asked for depends on the encoded map only. So it is enough to know that a unit is never given
code without a function that was built of this code and of the map that the unit has from then on,
which `Stock.Next` says of each way in which units are made. That the step can be found in which a
unit was given its code rests on an invariant: a unit that cannot be called yet has no code.
-/

namespace ScriptLoader

variable {ω χ : Type}

/-! ## Writing a unit -/

theorem Reference.toList_segment (r : Reference) :
    r.segment.toList = (Bundle.Segment.ofReference r).write := by
  rw [segment, Bundle.segmentText, String.toList_ofList]
  rfl

theorem toList_foldl_segment (references : List Reference) (out : String) :
    (references.foldl (fun out reference ↦ out ++ reference.segment) out).toList
      = out.toList ++ (references.map Bundle.Segment.ofReference).flatMap Bundle.Segment.write := by
  induction references generalizing out with
  | nil => simp
  | cons reference rest ih => simp [ih, Reference.toList_segment]

/-- A unit with code is written as the bundle of what it declares, its source map and its code. -/
theorem UnitInfo.markedString_eq (info : UnitInfo) {code : String} (h : info.code = some code) :
    info.markedString
      = .ok (String.ofList (Bundle.write ⟨info.dependencies, info.sourceMap, code⟩)) := by
  rw [markedString, h]
  refine congrArg Except.ok (String.toList_inj.mp ?_)
  cases hmap : info.sourceMap <;>
    simp [toList_foldl_segment, Bundle.write, Bundle.segments, Bundle.segmentText,
      Bundle.Segment.write]

/-- A unit without code cannot be written, and this is the only reason why one cannot. -/
theorem UnitInfo.markedString_eq_error_iff (info : UnitInfo) (e : LoaderError) :
    info.markedString = .error e ↔ info.code = none ∧ e = .notCompiled info.url.text := by
  cases hcode : info.code with
  | none => simp [markedString, hcode, eq_comm]
  | some code => simp [info.markedString_eq hcode]

/-! ## Where code comes from -/

section

variable {p : Platform ω χ} {host : HostBindings} {script : Script} {functions : List Event}

/-- What is sound of a unit: it has a directory, and it has code only if it can be called. -/
structure Script.IsSound (script : Script) : Prop where
  located : script.IsLocated
  ready : script.code.isSome = true → script.isReady = true

theorem Script.IsSound.code_eq_none (h : script.IsSound) (hunready : script.isReady = false) :
    script.code = none :=
  Option.not_isSome_iff_eq_none.mp fun hcode ↦ by simp [h.ready hcode] at hunready

theorem Script.Built.isSound (h : script.Built p host functions) (hlocated : script.IsLocated) :
    script.IsSound :=
  ⟨hlocated, fun hcode ↦ by cases h <;> first | rfl | cases hcode⟩

theorem Script.Built.filter_isFunction (h : script.Built p host functions) :
    functions.filter Event.isFunction = functions := by
  cases h <;> rfl

/-- A unit that is made with code is made with one function, which the engine has built of it. -/
theorem Script.Built.of_code (h : script.Built p host functions) {code : String}
    (hcode : script.code = some code) :
    ∃ world source, functions = [.synthesized source] ∧
      source = .assemble host (p.engine.headerLines world) script.url code script.sourceMap ∧
      (p.engine.synthesize world source).2.isOk = true := by
  cases h with
  | pending | callable => cases hcode
  | @code _ _ _ world accepted =>
    cases hcode
    exact ⟨world, _, rfl, rfl, accepted⟩

end

namespace Stock

variable {p : Platform ω χ} {host : HostBindings} {s s' : Stock} {id : UnitId} {script : Script}

def functions (s : Stock) : List Event := s.log.filter Event.isFunction

/-- What has become of a unit: what it was, or what it has been built to be. It had no code then,
and all functions that have been asked for are its own. -/
theorem Next.origin (h : s.Next p host s') (hsound : ∀ script ∈ s.scripts, script.IsSound)
    (hscript : s'.scripts[id]? = some script) :
    s.scripts[id]? = some script ∨ (∀ old, s.scripts[id]? = some old → old.code = none) ∧
      script.IsLocated ∧
      ∃ functions, script.Built p host functions ∧ s'.functions = functions ++ s.functions := by
  -- a unit that is new had no code, and neither had one that could not be called
  have hadded {new : Script} (happended : (s.scripts ++ [new])[id]? = some script) :
      s.scripts[id]? = some script ∨ s.scripts[id]? = none ∧ new = script := by
    rcases Nat.lt_or_ge id s.scripts.length with hlt | hle
    · exact .inl (List.getElem?_append_left hlt ▸ happended)
    · rw [List.getElem?_append_right hle, List.getElem?_singleton] at happended
      split at happended
      · exact .inr ⟨List.getElem?_eq_none hle, Option.some.inj happended⟩
      · cases happended
  cases h with
  | same | forget | refuse | fail => exact .inl hscript
  | revisit => exact .inl (by rwa [scripts_learn] at hscript)
  | @file new functions reads key unknown located built read =>
    rw [scripts_learn] at hscript
    rcases hadded hscript with hbefore | ⟨hnone, rfl⟩
    · exact .inl hbefore
    · have hreads : reads.filter Event.isFunction = [] :=
        List.filter_eq_nil_iff.mpr fun e he ↦ by simp [read e he, Event.isFunction]
      refine .inr ⟨by simp [hnone], located, functions, built, ?_⟩
      simp [Stock.functions, Event.isFunction, built.filter_isFunction, hreads]
  | @make new functions located built =>
    rcases hadded hscript with hbefore | ⟨hnone, rfl⟩
    · exact .inl hbefore
    · refine .inr ⟨by simp [hnone], located, functions, built, ?_⟩
      simp [Stock.functions, built.filter_isFunction]
  | @compile other old given functions known unready built code url =>
    by_cases hid : other = id
    · subst hid
      have hlt := (List.getElem?_eq_some_iff.mp known).1
      have hold := hsound old (List.mem_of_getElem? known)
      obtain rfl : given = script := by simpa [List.getElem?_set, hlt] using hscript
      refine .inr ⟨fun before hbefore ↦ ?_, ?_, functions, built, ?_⟩
      · rw [known, Option.some.injEq] at hbefore
        exact hbefore ▸ hold.code_eq_none unready
      · rw [Script.IsLocated, url]
        exact hold.located
      · simp [Stock.functions, built.filter_isFunction]
    · exact .inl (by simpa [List.getElem?_set_ne hid] using hscript)

theorem Next.keeps_sound (h : s.Next p host s') (hsound : ∀ script ∈ s.scripts, script.IsSound) :
    ∀ script ∈ s'.scripts, script.IsSound := by
  intro script hmem
  obtain ⟨id, hscript⟩ := List.mem_iff_getElem?.mp hmem
  rcases h.origin hsound hscript with hbefore | ⟨-, hlocated, functions, hbuilt, -⟩
  · exact hsound script (List.mem_of_getElem? hbefore)
  · exact hbuilt.isSound hlocated

end Stock

namespace Machine

open Loader

variable {p : Platform ω χ} {m : Machine ω χ} {earlier : List (Machine ω χ)} {id : UnitId}

theorem Reachable.scripts_sound (h : m.Reachable p) :
    ∀ script ∈ m.loader.stock.scripts, script.IsSound := by
  induction h with
  | @start l fresh code =>
    have hnone : l.stock.scripts = [] := by rw [stock, fresh.units, List.map_nil]
    simp [hnone]
  | @step m hreachable ih => exact hreachable.next_stock.keeps_sound ih
  | again _ _ _ ih => exact ih

/-- In the step of a machine a unit is given its code: it had none before. One function is asked for
in this step, and in some world the engine has built it. -/
structure GivesCode (p : Platform ω χ) (m : Machine ω χ) (id : UnitId) (world : ω)
    (source : FunctionSource) : Prop where
  before : ∀ unit, m.loader.unit? id = some unit → unit.info.code = none
  after : ∃ unit, (m.step p).loader.unit? id = some unit ∧ unit.info.code.isSome = true
  asked : (m.step p).loader.journal.filter Event.isFunction
    = .synthesized source :: m.loader.journal.filter Event.isFunction
  built : (p.engine.synthesize world source).2.isOk = true

theorem functions_stock (l : Loader ω χ) :
    l.stock.functions = l.journal.filter Event.isFunction := by
  rw [Stock.functions, stock, List.filter_filter]
  refine List.filter_congr fun e _ ↦ ?_
  cases e <;> rfl

/-- A unit has its code from a step in which it was given the code it has, with the map it has. -/
theorem History.exists_givesCode (h : History p (m :: earlier)) {script : Script} {code : String}
    (hscript : m.loader.stock.scripts[id]? = some script) (hcode : script.code = some code) :
    ∃ m₀ ∈ earlier, ∃ world source, m₀.GivesCode p id world source ∧
      source = .assemble m₀.loader.host (p.engine.headerLines world) script.url code
        script.sourceMap := by
  generalize heq : m :: earlier = machines at h
  induction h generalizing m earlier with
  | start fresh _ =>
    cases heq
    rw [stock, fresh.units] at hscript
    cases hscript
  | @step m' earlier' history ih =>
    cases heq
    have hreachable := history.reachable
    rcases hreachable.next_stock.origin hreachable.scripts_sound hscript with
      hbefore | ⟨hbefore, -, functions, hbuilt, hasked⟩
    · obtain ⟨m₀, hm₀, hgiven⟩ := ih hbefore rfl
      exact ⟨m₀, List.mem_cons_of_mem _ hm₀, hgiven⟩
    · obtain ⟨world, source, rfl, hsource, haccepted⟩ := hbuilt.of_code hcode
      refine ⟨m', List.mem_cons_self, world, source, ⟨fun unit hunit ↦ ?_, ?_, ?_, haccepted⟩,
        hsource⟩
      · exact hbefore _ (script_of_unit? hunit)
      · rw [scripts_stock, Option.map_eq_some_iff] at hscript
        obtain ⟨unit, hunit, rfl⟩ := hscript
        exact ⟨unit, hunit, Option.isSome_iff_exists.mpr ⟨code, hcode⟩⟩
      · rwa [functions_stock, functions_stock] at hasked
  | @again m' earlier' history _ _ ih =>
    cases heq
    obtain ⟨m₀, hm₀, hgiven⟩ := ih (m := m') hscript rfl
    exact ⟨m₀, List.mem_cons_of_mem _ hm₀, hgiven⟩

end Machine

/-! ## Rebuilding -/

section

variable {ω' χ' : Type}

/-- What an engine does in a world about a function is what another does in another world: as many
lines are put above its body, and it is built by both or by none. -/
structure Engine.Agrees (engine : Engine ω) (world : ω) (engine' : Engine ω') (world' : ω')
    (source : FunctionSource) : Prop where
  lines : engine'.headerLines world' = engine.headerLines world
  verdict : (engine'.synthesize world' source).2.isOk = (engine.synthesize world source).2.isOk

/-- A unit that awaits no second pass is in all that matters for bundles like another one. -/
structure LoadedUnit.Rebuilds (rebuilt : LoadedUnit ω' χ') (unit : LoadedUnit ω χ) : Prop where
  complete : rebuilt.view.needsCompilation = false
  url : rebuilt.info.url = unit.info.url
  dependencies : rebuilt.info.dependencies = unit.info.dependencies
  code : rebuilt.info.code = unit.info.code
  sourceMap : rebuilt.info.sourceMap = unit.info.sourceMap
  markedString : rebuilt.info.markedString = unit.info.markedString

namespace Loader

variable {p : Platform ω χ} {l : Loader ω χ} {url directory : Url} {bundle : Bundle}
  {callable : Callable ω}

theorem isMarked_write (bundle : Bundle) : Bundle.isMarked bundle.write = true :=
  List.isPrefixOf_iff_prefix.mpr (List.prefix_append ..)

/-- A file that holds a bundle becomes a unit, provided that the engine builds its function. -/
theorem unitOfResource_write (hread : Bundle.read bundle.write = .ok bundle)
    (hmaps : l.config.sourceMaps = true) (hunknown : l.cache.unit? url = none)
    (hdirectory : url.directory = .ok directory) {source : FunctionSource}
    (hsource : source = .assemble l.host (p.engine.headerLines l.world) url bundle.text
      bundle.sourceMap) (hbuilt : (p.engine.synthesize l.world source).2 = .ok callable) :
    ∃ l' rebuilt, l.unitOfResource p ⟨url, String.ofList bundle.write⟩
        = (l', .ok l.units.length) ∧
      l'.unit? l.units.length = some rebuilt ∧
      l'.journal = [.obtained url l.units.length, .synthesized source, .read url] ++ l.journal ∧
      rebuilt.body = .ready callable ∧ rebuilt.info.url = url ∧
      rebuilt.info.dependencies = bundle.dependencies ∧ rebuilt.info.code = some bundle.text ∧
      rebuilt.info.sourceMap = bundle.sourceMap := by
  -- the map is encoded already, and is embedded as it is
  have hembedded : (bundle.sourceMap.map MapSource.encoded).bind MapSource.embedded?
      = bundle.sourceMap := by
    cases bundle.sourceMap <;> rfl
  obtain ⟨info, hinfo, hfields⟩ : ∃ info,
      UnitInfo.create url bundle.dependencies (some bundle.text) bundle.sourceMap = .ok info ∧
        info.url = url ∧ info.dependencies = bundle.dependencies ∧
        info.code = some bundle.text ∧ info.sourceMap = bundle.sourceMap := by
    rw [UnitInfo.create, hdirectory]
    exact ⟨_, rfl, rfl, rfl, rfl, rfl⟩
  subst hsource
  rw [unitOfResource, hunknown, createOfResource]
  simp only [String.toList_ofList, isMarked_write, if_true, createOfBundle, hread]
  rw [createOfCode, synthesize]
  simp only [record, hmaps, if_true, hembedded, hbuilt, Except.map, hinfo]
  exact ⟨_, { info, body := .ready callable }, rfl, List.getElem?_concat_length, rfl, rfl, hfields⟩

end Loader

end

namespace Machine

open Loader

variable {p : Platform ω χ} {m : Machine ω χ} {earlier : List (Machine ω χ)}

/-- **A unit is rebuilt from its bundle.** A unit with code is written as the bundle of what it
declares, its source map and its code. It was given its code in some step, and one function was
asked for then: the one that is put together of the parameters in force, the lines that the engine
puts above a body, and the URL, the code and the source map of the unit. Give the written text as a
file of the URL of the unit to a loader in which the URL has no unit, that embeds source maps, has
the further parameters that the first loader had in that step, and whose engine agrees on the
function. Then a unit is made of it without a compiler that is as before and is written as the same
text, and the same function is asked for and no other. Texts fit into memory, as all that are
written do. -/
theorem History.rebuilds_from_bundle (h : History p (m :: earlier)) {id : UnitId}
    {unit : LoadedUnit ω χ} {code : String} (hunit : m.loader.unit? id = some unit)
    (hcode : unit.info.code = some code) :
    let bundle : Bundle := ⟨unit.info.dependencies, unit.info.sourceMap, code⟩
    unit.info.markedString = .ok (String.ofList bundle.write) ∧
    ∃ m₀ ∈ earlier, ∃ world source, m₀.GivesCode p id world source ∧
      source = .assemble m₀.loader.host (p.engine.headerLines world) unit.info.url code
        unit.info.sourceMap ∧
      ∀ {ω' χ' : Type} (p' : Platform ω' χ') (l : Loader ω' χ'), bundle.FitsMemory →
        l.config.sourceMaps = true → l.host = m₀.loader.host →
        l.cache.unit? unit.info.url = none →
        p.engine.Agrees world p'.engine l.world source →
        ∃ l' id' rebuilt,
          l.unitOfResource p' ⟨unit.info.url, String.ofList bundle.write⟩ = (l', .ok id') ∧
          l'.unit? id' = some rebuilt ∧ rebuilt.Rebuilds unit ∧
          l'.journal.filter Event.isFunction
            = .synthesized source :: l.journal.filter Event.isFunction := by
  intro bundle
  have hscript := script_of_unit? hunit
  obtain ⟨directory, hdirectory⟩ :=
    (h.reachable.scripts_sound _ (List.mem_of_getElem? hscript)).located
  obtain ⟨m₀, hm₀, world, source, hgives, hsource⟩ := h.exists_givesCode hscript hcode
  refine ⟨unit.info.markedString_eq hcode, m₀, hm₀, world, source, hgives, hsource, ?_⟩
  intro ω' χ' p' l hfits hmaps hhost hunknown hagrees
  -- the first engine has built the function, so the second one does
  obtain ⟨callable, hbuilt⟩ :
      ∃ callable, (p'.engine.synthesize l.world source).2 = .ok callable := by
    have hok := hagrees.verdict.trans hgives.built
    cases hbuilt : (p'.engine.synthesize l.world source).2 with
    | error e => simp [hbuilt, Except.isOk, Except.toBool] at hok
    | ok callable => exact ⟨callable, rfl⟩
  have hsame : source = .assemble l.host (p'.engine.headerLines l.world) unit.info.url bundle.text
      bundle.sourceMap := by
    rw [hhost, hagrees.lines]
    exact hsource
  obtain ⟨l', rebuilt, hmade, hrebuilt, hjournal, hbody, hurl, hdeps, hcode', hmap⟩ :=
    unitOfResource_write ((Bundle.read_write bundle).2 hfits) hmaps hunknown hdirectory hsame hbuilt
  refine ⟨l', _, rebuilt, hmade, hrebuilt, ⟨?_, hurl, hdeps, hcode'.trans hcode.symm, hmap, ?_⟩, ?_⟩
  · rw [LoadedUnit.view, hbody]
    rfl
  · rw [rebuilt.info.markedString_eq hcode', unit.info.markedString_eq hcode, hdeps, hmap]
  · rw [hjournal]
    rfl

/-- A platform whose compiler yields code with a map and with empty lines in front, and whose engine
puts lines above a body. -/
def mapping : Platform (List Request) Unit :=
  let plain := Project.pair.platform List.head?
  { plain with
    engine := { plain.engine with headerLines := fun _ ↦ 2 }
    compiler := plain.compiler.map fun compiler ↦
      { compiler with secondPass := fun made file ↦ (made, file, ⟨"\n\nx", some (.utf8 "map")⟩) } }

def compiledPair : List (Machine (List Request) Unit) :=
  let code : Code (List Request) := .createFromResource ⟨.file "/a".toList, ""⟩ fun
    | .ok id => .loadDependencies id none fun _ ↦ .drive fun _ ↦ .execute id .finish
    | .error e => .finish (.error e)
  prolong mapping 26
    [{ loader := { world := [], base := .file "/".toList }, control := .running code }]

/-- The first of them is rebuilt without a compiler, and its function is the one that it had. -/
theorem rebuilds_compiled_pair :
    ∃ m₀ ∈ compiledPair, ∃ world source, m₀.GivesCode mapping 0 world source ∧
      source = .assemble {} 2 (.file "/a".toList) "\n\nx" (some "bWFw") ∧
      ∃ l' id rebuilt, ({ world := [], base := .file "/".toList } : Loader (List Request)
          Unit).unitOfResource { mapping with compiler := none }
            ⟨.file "/a".toList, "@STATIC;1.0;i;1;bS;4;bWFwt;3;\n\nx"⟩ = (l', .ok id) ∧
        l'.unit? id = some rebuilt ∧ rebuilt.info.code = some "\n\nx" ∧
        l'.journal.filter Event.isFunction = [.synthesized source] := by
  have hhistory : History mapping compiledPair := (History.start (isFresh_mk _ _) _).prolong 26
  have hcompiled : (compiledPair.head?.any fun m ↦ (m.loader.unit? 0).any fun unit ↦
      unit.info = ⟨.file "/a".toList, .file "/".toList, [⟨"b", true⟩], .loaded, some "\n\nx",
        some "bWFw"⟩) = true := by decide +kernel
  have hhost : ∀ m ∈ compiledPair, m.loader.host.bindings = [] := by
    simp only [← List.isEmpty_iff]
    decide +kernel
  have hfits : Bundle.FitsMemory ⟨[⟨"b", true⟩], some "bWFw", "\n\nx"⟩ := by
    unfold Bundle.FitsMemory
    decide +kernel
  have htext : String.ofList (Bundle.write ⟨[⟨"b", true⟩], some "bWFw", "\n\nx"⟩)
      = "@STATIC;1.0;i;1;bS;4;bWFwt;3;\n\nx" := by decide +kernel
  generalize compiledPair = machines at hhistory hcompiled hhost ⊢
  obtain _ | ⟨m, earlier⟩ := machines
  · cases hhistory
  simp only [List.head?_cons, Option.any_some, Option.any_eq_true, decide_eq_true_eq] at hcompiled
  obtain ⟨⟨info, body, callbacks⟩, hunit, rfl⟩ := hcompiled
  obtain ⟨-, m₀, hm₀, world, source, hgives, hsource, hrebuilds⟩ :=
    History.rebuilds_from_bundle hhistory hunit rfl
  have hnone : m₀.loader.host = {} :=
    congrArg HostBindings.mk (hhost m₀ (List.mem_cons_of_mem _ hm₀))
  obtain ⟨l', id, rebuilt, hmade, hrebuilt, hsame, hasked⟩ := hrebuilds
    { mapping with compiler := none } { world := [], base := .file "/".toList } hfits rfl
    hnone.symm rfl ⟨rfl, rfl⟩
  rw [htext] at hmade
  rw [hnone] at hsource
  exact ⟨m₀, List.mem_cons_of_mem _ hm₀, world, source, hgives, hsource, l', id, rebuilt, hmade,
    hrebuilt, hsame.code, hasked⟩

end Machine

end ScriptLoader
