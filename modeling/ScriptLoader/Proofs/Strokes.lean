import Mathlib.Logic.Relation
import ScriptLoader.Proofs.Standing

/-!
# What making units is made of

Units are made in several ways, which share most of what they do: the platform is asked for
something, an event is recorded, a name is used up, a unit is added, and the unit of a file is filed
under its URL. A second pass takes no more than that either, once it is told of, except that the
unit is given its code. These are the *strokes* of which all of it consists.

A new unit has not been loaded and can be called, or it awaits its second pass with a file that has
come from the first. So what every stroke keeps is kept however a unit is made, and the ways of
making units are followed here once for all such properties.
-/

namespace ScriptLoader

variable {ω χ : Type}

/-- Whether an event tells how units are made. -/
def Event.isStroke : Event → Bool
  | read _ | obtained .. | refused _ | synthesized _ => true
  | _ => false

/-- What becomes of the world when a platform is asked for something. Of compilers only one is
asked. -/
inductive Platform.Alters (p : Platform ω χ) (asked : Option (Compiler ω χ)) : ω → ω → Prop
  | resolve (world : ω) (url : Url) (substitutions : Substitutions) :
      Alters p asked world (p.resolver.resolve world url substitutions).1
  | next (world : ω) (tickets : List Ticket) :
      Alters p asked world (p.resolver.next? world tickets).1
  | answer (world : ω) (ticket : Ticket) : Alters p asked world (p.resolver.answer world ticket).1
  | cancel (world : ω) (tickets : List Ticket) :
      Alters p asked world (p.resolver.cancel world tickets)
  | synthesize (world : ω) (source : FunctionSource) :
      Alters p asked world (p.engine.synthesize world source).1
  | write (world : ω) (piece : String) : Alters p asked world (p.write world piece).1
  | firstPass {compiler : Compiler ω χ} (compiles : compiler ∈ asked) (view : View ω)
      (source : String) (url : Url) :
      Alters p asked view.world (compiler.firstPass view source url).1
  | leaveImport {compiler : Compiler ω χ} (compiles : compiler ∈ asked) (world : ω) (file : χ) :
      Alters p asked world (compiler.leaveImport world file).1
  | secondPass {compiler : Compiler ω χ} (compiles : compiler ∈ asked) (world : ω) (file : χ) :
      Alters p asked world (compiler.secondPass world file).1

/-- What the body of a new unit at a URL is. -/
inductive Body.Begins (p : Platform ω χ) (url : Url) : Body ω χ → Prop
  | ready (callable : Callable ω) : Begins p url (.ready callable)
  | pending {compiler : Compiler ω χ} {view : View ω} {source : String}
      {dependencies : List Reference} {file : χ} (compiles : p.compiler = some compiler)
      (reads : (compiler.firstPass view source url).2 = .ok (dependencies, file)) :
      Begins p url (.pending compiler file)

namespace Loader

/-- One of the changes that making units and running second passes are made of. -/
inductive Stroke (p : Platform ω χ) (asked : Option (Compiler ω χ)) (l : Loader ω χ) :
    Loader ω χ → Prop
  | world {world : ω} (alters : p.Alters asked l.world world) : Stroke p asked l { l with world }
  | record {e : Event} (stroke : e.isStroke = true) : Stroke p asked l (l.record e)
  | name : Stroke p asked l { l with anonymousCount := l.anonymousCount + 1 }
  | add {unit : LoadedUnit ω χ} (new : unit.standing.IsNew)
      (begins : unit.body.Begins p unit.info.url) : Stroke p asked l (l.addUnit unit).1
  | file (url : Url) (id : UnitId) :
      Stroke p asked l { l with cache := l.cache.insertUnit url id }
  | code (id : UnitId) (code map : Option String) :
      Stroke p asked l (l.modifyUnit id fun unit ↦
        { unit with info := { unit.info with code, sourceMap := map } })

def Strokes (p : Platform ω χ) (asked : Option (Compiler ω χ)) :
    Loader ω χ → Loader ω χ → Prop :=
  Relation.ReflTransGen (Stroke p asked)

variable {p : Platform ω χ} {asked : Option (Compiler ω χ)}

namespace Strokes

variable {l l' l'' : Loader ω χ}

theorem refl (l : Loader ω χ) : l.Strokes p asked l := Relation.ReflTransGen.refl

theorem trans (h : l.Strokes p asked l') (h' : l'.Strokes p asked l'') : l.Strokes p asked l'' :=
  Relation.ReflTransGen.trans h h'

theorem of_stroke (h : l.Stroke p asked l') : l.Strokes p asked l' := .single h

/-- What is kept by every stroke is kept by all of them. -/
theorem induct {R : Loader ω χ → Loader ω χ → Prop} (hrefl : ∀ l, R l l)
    (htrans : ∀ {l l' l''}, R l l' → R l' l'' → R l l'')
    (hstroke : ∀ {l l'}, l.Stroke p asked l' → R l l') (h : l.Strokes p asked l') : R l l' := by
  induction h with
  | refl => exact hrefl l
  | tail _ hlast ih => exact htrans ih (hstroke hlast)

/-- What no stroke changes is not changed. -/
theorem congr {α : Type} {f : Loader ω χ → α}
    (hf : ∀ {l l'}, l.Stroke p asked l' → f l' = f l) (h : l.Strokes p asked l') : f l' = f l :=
  h.induct (R := fun l l' ↦ f l' = f l) (fun _ ↦ rfl) (fun h h' ↦ h'.trans h) hf

end Strokes

variable (l : Loader ω χ)

theorem strokes_world {world : ω} (h : p.Alters asked l.world world) :
    l.Strokes p asked { l with world } :=
  .of_stroke (.world h)

theorem strokes_record {e : Event} (h : e.isStroke = true) : l.Strokes p asked (l.record e) :=
  .of_stroke (.record h)

theorem strokes_addUnit {url : Url} {dependencies : List Reference} {code map : Option String}
    {info : UnitInfo} (hinfo : UnitInfo.create url dependencies code map = .ok info)
    {body : Body ω χ} (hbody : body.Begins p url) :
    l.Strokes p asked (l.addUnit { info, body }).1 := by
  obtain ⟨hnew, hurl, -⟩ := LoadedUnit.standing_isNew hinfo body
  exact .of_stroke (.add hnew (hurl ▸ hbody))

theorem strokes_synthesize (url : Url) (code : String) (map : Option MapSource) :
    l.Strokes p asked (l.synthesize p url code map).1 :=
  (l.strokes_world (.synthesize l.world _)).trans (strokes_record _ rfl)

/-! ## Making units -/

variable (p)

theorem strokes_createOfCode (url : Url) (code : String) (dependencies : List Reference)
    (map : Option MapSource) :
    l.Strokes p p.compiler (l.createOfCode p url code dependencies map).1 := by
  have hsynth : l.Strokes p p.compiler _ := l.strokes_synthesize url code map
  rw [createOfCode]
  rcases h : l.synthesize p url code map with ⟨l', e | ⟨callable, embedded⟩⟩
  all_goals rw [h] at hsynth
  · exact hsynth
  · rcases hinfo : UnitInfo.create url dependencies (some code) embedded with e | info
    all_goals simp only [hinfo]
    · exact hsynth
    · exact hsynth.trans (strokes_addUnit _ hinfo (.ready callable))

theorem strokes_nameUnit (url : Option Url) : l.Strokes p p.compiler (l.nameUnit url).1 := by
  cases url with
  | none => exact .of_stroke .name
  | some url => exact .refl l

theorem strokes_createFromSource (url : Option Url) (code : String)
    (dependencies : List Reference) :
    l.Strokes p p.compiler (l.createFromSource p url code dependencies).1 := by
  have hnamed := l.strokes_nameUnit p url
  rw [createFromSource]
  rcases h : l.nameUnit url with ⟨l', e | named⟩
  all_goals rw [h] at hnamed
  · exact hnamed
  · exact hnamed.trans (l'.strokes_createOfCode p named code dependencies none)

theorem strokes_createFromFunction (url : Option Url) (callable : Callable ω)
    (dependencies : List Reference) :
    l.Strokes p p.compiler (l.createFromFunction url callable dependencies).1 := by
  have hnamed := l.strokes_nameUnit p url
  rw [createFromFunction]
  rcases h : l.nameUnit url with ⟨l', e | named⟩
  all_goals rw [h] at hnamed
  · exact hnamed
  · rcases hinfo : UnitInfo.create named dependencies none none with e | info
    all_goals simp only [hinfo]
    · exact hnamed
    · exact hnamed.trans (strokes_addUnit _ hinfo (.ready callable))

theorem strokes_createOfBundle (resource : Resource) :
    l.Strokes p p.compiler (l.createOfBundle p resource).1 := by
  rw [createOfBundle]
  split
  · exact .refl l
  · exact (l.strokes_record rfl).trans (strokes_createOfCode p _ _ _ _ _)

theorem strokes_createPending {compiler : Compiler ω χ} (hcompiler : p.compiler = some compiler)
    (resource : Resource) : l.Strokes p p.compiler (l.createPending compiler resource).1 := by
  have hworld := l.strokes_world (p := p)
    (.firstPass hcompiler l.view resource.contents resource.url)
  rw [createPending]
  rcases hread : compiler.firstPass l.view resource.contents resource.url
    with ⟨world, e | ⟨dependencies, file⟩⟩
  all_goals rw [hread] at hworld
  · exact hworld
  · have hrecorded := hworld.trans (strokes_record _ (e := .read resource.url) rfl)
    rcases hinfo : UnitInfo.create resource.url dependencies none none with e | info
    all_goals simp only [hinfo]
    · exact hrecorded
    · exact hrecorded.trans
        (strokes_addUnit _ hinfo (.pending hcompiler (congrArg Prod.snd hread)))

theorem strokes_createOfResource (resource : Resource) :
    l.Strokes p p.compiler (l.createOfResource p resource).1 := by
  rw [createOfResource]
  split
  · exact l.strokes_createOfBundle p resource
  · split
    case h_1 hcompiler => exact l.strokes_createPending p hcompiler resource
    case h_2 => exact l.strokes_createOfCode p _ _ _ _

theorem strokes_unitOfResource (resource : Resource) :
    l.Strokes p p.compiler (l.unitOfResource p resource).1 := by
  have hmade := l.strokes_createOfResource p resource
  rw [unitOfResource]
  split
  · exact l.strokes_record rfl
  · rcases h : l.createOfResource p resource with ⟨l', e | id⟩
    all_goals rw [h] at hmade
    · exact hmade.trans (strokes_record _ rfl)
    · exact (hmade.trans (.of_stroke (.file resource.url id))).trans (strokes_record _ rfl)

theorem strokes_unitOfAnswer (locator : String) (origin : Option Url)
    (answer : Except LoaderError (Option Resource)) :
    l.Strokes p p.compiler (l.unitOfAnswer p locator origin answer).1 := by
  rcases answer with e | _ | resource
  · exact .refl l
  · exact .refl l
  · exact l.strokes_unitOfResource p resource

theorem strokes_openUnit (url : Url) : l.Strokes p p.compiler (l.openUnit p url).1 := by
  rw [openUnit]
  split
  · exact .refl l
  · have hresolved : l.Strokes p p.compiler _ :=
      l.strokes_world (.resolve l.world url l.substitutions)
    rcases hresolve : p.resolver.resolve l.world url l.substitutions with ⟨world, ticket⟩
    rw [hresolve] at hresolved
    have hpicked := hresolved.trans (strokes_world _ (.next world [ticket]))
    rcases hnext : p.resolver.next? world [ticket] with ⟨world', _ | _⟩
    all_goals
      rw [hnext] at hpicked
      simp only [hnext]
    · exact hpicked.trans (strokes_world _ (.cancel world' [ticket]))
    · exact (hpicked.trans (strokes_world _ (.answer world' ticket))).trans
        (strokes_unitOfAnswer p _ _ _ _)

/-! ## Second passes -/

theorem strokes_writeAll (pieces : List String) : l.Strokes p asked (l.writeAll p pieces).1 := by
  induction pieces generalizing l with
  | nil => exact .refl l
  | cons piece rest ih =>
    have hworld : l.Strokes p asked _ := l.strokes_world (.write l.world piece)
    rw [writeAll]
    rcases h : p.write l.world piece with ⟨world, _ | _⟩
    all_goals rw [h] at hworld
    · exact hworld
    · exact hworld.trans (ih _)

theorem strokes_report (compiler : Compiler ω χ) (url : Url) (file : χ) :
    l.Strokes p asked (l.report p compiler url file).1 := by
  have hwritten : l.Strokes p asked _ := l.strokes_writeAll p
    (reportPieces l.config.format (compiler.wording file) (compiler.diagnostics file))
  rw [report]
  rcases h : l.writeAll p
    (reportPieces l.config.format (compiler.wording file) (compiler.diagnostics file))
    with ⟨l', _ | _⟩
  all_goals rw [h] at hwritten; exact hwritten

/-- The second pass of a unit is run, which is told of, and the rest takes no more than strokes. -/
theorem strokes_compileUnit (pass : SecondPass ω χ) :
    (l.record (.compiled pass.unit)).Strokes p (some pass.compiler) (l.compileUnit p pass).1 := by
  have hleft := Platform.Alters.leaveImport (p := p) (Option.mem_some_self pass.compiler) l.world
    pass.file
  rcases hleave : pass.compiler.leaveImport l.world pass.file with ⟨left, file⟩
  have hpassed := Platform.Alters.secondPass (p := p) (Option.mem_some_self pass.compiler) left file
  rcases hsecond : pass.compiler.secondPass left file with ⟨world, file', output⟩
  rw [hleave] at hleft
  rw [hsecond] at hpassed
  simp only [compileUnit, hleave, hsecond]
  have hrun : (l.record (.compiled pass.unit)).Strokes p (some pass.compiler)
      ({ l with world }.record (.compiled pass.unit)) :=
    ((l.record _).strokes_world hleft).trans (strokes_world _ hpassed)
  have hreport := hrun.trans (strokes_report p _ pass.compiler pass.url file')
  split
  case h_1 h => rw [h] at hreport; exact hreport
  case h_2 l' _ h =>
    rw [h] at hreport
    have hsynth := hreport.trans
      (l'.strokes_synthesize pass.url output.code (output.sourceMap.map MapSource.text))
    split
    case h_1 h => rw [h] at hsynth; exact hsynth
    case h_2 h =>
      rw [h] at hsynth
      exact hsynth.trans (.of_stroke (.code pass.unit _ _))

end Loader

end ScriptLoader
