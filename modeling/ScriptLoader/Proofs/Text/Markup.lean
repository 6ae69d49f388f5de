import Mathlib.Data.List.Basic
import Mathlib.Tactic.MkIffOfInductiveProp

/-!
# Markup is read back

Content is characters and elements, in order. An element is written with a start tag and an end tag
around what it holds, and a character that would be taken for markup as an entity. There are no
comments, sections, declarations or tags of empty elements here. Attributes are kept as written, and
so are all characters of text but those of entities, line ends included.

## The reader

The reader takes one character at a time. It holds the content of the innermost element that is
open and, for every open element, what stood before it in the element around it. A stretch of markup
that is complete in itself adds its content to what is held and changes nothing else; that is the
invariant in one direction. In the other it is that what has been read is, for every open element,
markup of what stood before it and a start tag, then markup of what is held.
-/

namespace ScriptLoader.Markup

inductive Item where
  | char (c : Char)
  | element (name attributes : List Char) (content : List Item)

/-- The character that a predefined entity stands for. -/
def entity? : List Char → Option Char
  | ['l', 't'] => some '<'
  | ['g', 't'] => some '>'
  | ['a', 'm', 'p'] => some '&'
  | ['a', 'p', 'o', 's'] => some '\''
  | ['q', 'u', 'o', 't'] => some '"'
  | _ => none

/-- What stands in a start tag: a name, then nothing or a space and attributes. -/
@[mk_iff]
structure IsTag (name attributes : List Char) : Prop where
  ne_nil : name ≠ []
  isAlpha : name.all Char.isAlpha = true
  space : attributes = [] ∨ attributes.head? = some ' '
  mark : '<' ∉ attributes ∧ '>' ∉ attributes
  slash : attributes.getLast? ≠ some '/'

instance (name attributes : List Char) : Decidable (IsTag name attributes) :=
  decidable_of_iff' _ (isTag_iff name attributes)

/-! ## How content is written -/

/-- The text is markup of the content. -/
inductive Spells : List Char → List Item → Prop where
  | nil : Spells [] []
  | char {c : Char} {cs : List Char} {items : List Item} :
      c ≠ '<' → c ≠ '&' → Spells cs items → Spells (c :: cs) (.char c :: items)
  | entity {name : List Char} {c : Char} {cs : List Char} {items : List Item} :
      entity? name = some c → Spells cs items →
        Spells ('&' :: (name ++ ';' :: cs)) (.char c :: items)
  | element {name attributes inside cs : List Char} {content items : List Item} :
      IsTag name attributes → Spells inside content → Spells cs items →
        Spells ('<' :: (name ++ attributes ++ '>' :: (inside ++ '<' :: '/' :: (name ++ '>' :: cs))))
          (.element name attributes content :: items)

/-! ## The reader -/

/-- What is taken off the text in one piece. -/
inductive Mark where
  | tag
  | entity

def Mark.start : Mark → Char
  | tag => '<'
  | entity => '&'

def Mark.stop : Mark → Char
  | tag => '>'
  | entity => ';'

/-- An open element, and what stood before it in the element around it. -/
structure Frame where
  before : List Item
  name : List Char
  attributes : List Char

/-- What a reader holds. -/
structure Reader where
  /-- The mark that is being read, and what has been read of it after its first character. -/
  pending : Option (Mark × List Char)
  /-- The content of the innermost open element so far. -/
  content : List Item
  /-- The open elements, from the innermost one outwards. -/
  outer : List Frame

namespace Reader

/-- A mark has been read. -/
def finish (content : List Item) (outer : List Frame) : Mark → List Char → Option Reader
  | .entity, name => (entity? name).map fun c ↦ ⟨none, content ++ [.char c], outer⟩
  | .tag, '/' :: name =>
    match outer with
    | [] => none
    | f :: outer =>
      if name = f.name then
        some ⟨none, f.before ++ [.element f.name f.attributes content], outer⟩
      else none
  | .tag, inside =>
    let name := inside.takeWhile Char.isAlpha
    let attributes := inside.dropWhile Char.isAlpha
    if IsTag name attributes then some ⟨none, [], ⟨content, name, attributes⟩ :: outer⟩ else none

def step : Reader → Char → Option Reader
  | ⟨none, content, outer⟩, c =>
    if c = '<' then some ⟨some (.tag, []), content, outer⟩
    else if c = '&' then some ⟨some (.entity, []), content, outer⟩
    else some ⟨none, content ++ [.char c], outer⟩
  | ⟨some (mark, read), content, outer⟩, c =>
    if c = mark.stop then finish content outer mark read
    else some ⟨some (mark, read ++ [c]), content, outer⟩

end Reader

/-- The content that a text is markup of. -/
def read? (cs : List Char) : Option (List Item) :=
  match cs.foldlM Reader.step ⟨none, [], []⟩ with
  | some ⟨none, content, []⟩ => some content
  | _ => none

variable {c : Char} {cs more inside name attributes read : List Char} {items others : List Item}
  {content : List Item} {outer : List Frame} {mark : Mark} {r r' : Reader}

/-! ## Markup is read -/

theorem notMem_semicolon_of_entity? (h : entity? name = some c) : ';' ∉ name := by
  rw [entity?.eq_def] at h
  split at h
  case h_6 => cases h
  all_goals decide

namespace IsTag

variable (h : IsTag name attributes)

include h

theorem isAlpha_of_mem (hmem : c ∈ name) : c.isAlpha = true :=
  List.all_eq_true.mp h.isAlpha c hmem

theorem takeWhile_isAlpha : (name ++ attributes).takeWhile Char.isAlpha = name := by
  rw [List.takeWhile_append_of_pos fun _ ↦ h.isAlpha_of_mem]
  rcases h.space with rfl | hspace
  · exact List.append_nil name
  · obtain ⟨rest, rfl⟩ := List.head?_eq_some_iff.mp hspace
    exact List.append_nil name

theorem dropWhile_isAlpha : (name ++ attributes).dropWhile Char.isAlpha = attributes := by
  rw [List.dropWhile_append_of_pos fun _ ↦ h.isAlpha_of_mem]
  rcases h.space with rfl | hspace
  · rfl
  · obtain ⟨rest, rfl⟩ := List.head?_eq_some_iff.mp hspace
    rfl

theorem notMem_stop : '>' ∉ name ++ attributes := by
  rw [List.mem_append, not_or]
  exact ⟨fun hmem ↦ absurd (h.isAlpha_of_mem hmem) (by decide), h.mark.2⟩

theorem notMem_stop_end : '>' ∉ '/' :: name := by
  rw [List.mem_cons, not_or]
  exact ⟨by decide, fun hmem ↦ absurd (h.isAlpha_of_mem hmem) (by decide)⟩

theorem ne_slash_cons : name ++ attributes ≠ '/' :: cs := by
  obtain ⟨c, name, rfl⟩ := List.exists_cons_of_ne_nil h.ne_nil
  intro heq
  obtain ⟨rfl, -⟩ := List.cons.inj heq
  exact absurd (h.isAlpha_of_mem List.mem_cons_self) (by decide)

end IsTag

namespace Reader

theorem finish_entity (h : entity? name = some c) :
    finish content outer .entity name = some ⟨none, content ++ [.char c], outer⟩ := by
  rw [finish, h]
  rfl

theorem finish_start (h : IsTag name attributes) : finish content outer .tag (name ++ attributes)
    = some ⟨none, [], ⟨content, name, attributes⟩ :: outer⟩ := by
  rw [finish]
  · simp only [h.takeWhile_isAlpha, h.dropWhile_isAlpha, if_pos h]
  · exact fun _ heq ↦ h.ne_slash_cons heq

theorem finish_end (before : List Item) (name attributes : List Char) :
    finish content (⟨before, name, attributes⟩ :: outer) .tag ('/' :: name)
      = some ⟨none, before ++ [.element name attributes content], outer⟩ := by
  rw [finish]
  exact if_pos rfl

/-- Up to the character a mark stops with, it is only taken down. -/
theorem foldlM_step_pending (h : mark.stop ∉ cs) (read : List Char) :
    cs.foldlM step ⟨some (mark, read), content, outer⟩
      = some ⟨some (mark, read ++ cs), content, outer⟩ := by
  induction cs generalizing read with
  | nil =>
    rw [List.append_nil]
    rfl
  | cons c cs ih =>
    rw [List.mem_cons, not_or] at h
    have hstep : step ⟨some (mark, read), content, outer⟩ c
        = some ⟨some (mark, read ++ [c]), content, outer⟩ := if_neg (Ne.symm h.1)
    rw [List.foldlM_cons, hstep]
    refine (ih h.2 _).trans ?_
    rw [List.append_assoc]
    rfl

/-- A mark is read as a whole. -/
theorem foldlM_step_mark (mark : Mark) (h : mark.stop ∉ cs)
    (hfinish : finish content outer mark cs = some r) :
    (mark.start :: (cs ++ mark.stop :: more)).foldlM step ⟨none, content, outer⟩
      = more.foldlM step r := by
  have hstart : step ⟨none, content, outer⟩ mark.start
      = some ⟨some (mark, []), content, outer⟩ := by
    cases mark <;> rfl
  have hstop : step ⟨some (mark, cs), content, outer⟩ mark.stop = some r :=
    (if_pos rfl).trans hfinish
  rw [List.foldlM_cons, hstart]
  change (cs ++ mark.stop :: more).foldlM step _ = _
  rw [List.foldlM_append, foldlM_step_pending h]
  change (mark.stop :: more).foldlM step ⟨some (mark, cs), _, _⟩ = _
  rw [List.foldlM_cons, hstop]
  rfl

/-- **Complete markup adds its content** to what a reader holds. -/
theorem foldlM_step_of_spells (h : Spells cs items) (content : List Item) (outer : List Frame) :
    cs.foldlM step ⟨none, content, outer⟩ = some ⟨none, content ++ items, outer⟩ := by
  induction h generalizing content outer with
  | nil =>
    rw [List.append_nil]
    rfl
  | char htag hentity _ ih =>
    rw [List.foldlM_cons, step, if_neg htag, if_neg hentity]
    refine (ih _ outer).trans ?_
    rw [List.append_assoc]
    rfl
  | entity hname _ ih =>
    refine (foldlM_step_mark .entity (notMem_semicolon_of_entity? hname)
      (finish_entity hname)).trans ((ih _ outer).trans ?_)
    rw [List.append_assoc]
    rfl
  | element htag _ _ ihinside ih =>
    -- what the element holds is read on top of a frame, and the end tag takes the frame off again
    refine (foldlM_step_mark .tag htag.notMem_stop (finish_start htag)).trans ?_
    rw [List.foldlM_append, ihinside]
    refine (foldlM_step_mark .tag htag.notMem_stop_end (finish_end _ _ _)).trans
      ((ih _ outer).trans ?_)
    rw [List.append_assoc]
    rfl

end Reader

/-! ## What is read is markup -/

theorem Spells.append (h : Spells cs items) (hmore : Spells more others) :
    Spells (cs ++ more) (items ++ others) := by
  induction h with
  | nil => exact hmore
  | char htag hentity _ ih => exact .char htag hentity ih
  | entity hname _ ih =>
    rw [List.cons_append, List.append_assoc]
    exact .entity hname ih
  | element htag hinside _ _ ih =>
    simpa only [List.cons_append, List.append_assoc] using Spells.element htag hinside ih

theorem spells_flatMap {α : Type} {f : α → List Char} {g : α → List Item} {xs : List α}
    (h : ∀ x ∈ xs, Spells (f x) (g x)) : Spells (xs.flatMap f) (xs.flatMap g) := by
  induction xs with
  | nil => exact .nil
  | cons x xs ih =>
    rw [List.forall_mem_cons] at h
    exact h.1.append (ih h.2)

/-- The text is what stands before the content of the innermost open element. -/
inductive Opens : List Char → List Frame → Prop where
  | nil : Opens [] []
  | cons {cs inside name attributes : List Char} {before : List Item} {outer : List Frame} :
      Opens cs outer → Spells inside before → IsTag name attributes →
        Opens (cs ++ (inside ++ '<' :: (name ++ attributes ++ ['>'])))
          (⟨before, name, attributes⟩ :: outer)

namespace Reader

/-- What has been read of a mark. -/
def pendingText (r : Reader) : List Char :=
  match r.pending with
  | none => []
  | some (mark, read) => mark.start :: read

/-- A reader holds what a text says, if the text is all that it has read. -/
def Holds (r : Reader) (cs : List Char) : Prop :=
  ∃ opening inside, cs = opening ++ (inside ++ r.pendingText) ∧
    Opens opening r.outer ∧ Spells inside r.content

theorem holds_finish {opening : List Char} (hopens : Opens opening outer)
    (hspells : Spells inside content) (hfinish : finish content outer mark read = some r) :
    r.Holds (opening ++ (inside ++ mark.start :: (read ++ [mark.stop]))) := by
  rw [finish.eq_def] at hfinish
  split at hfinish
  case h_1 =>
    obtain ⟨c, hc, rfl⟩ := Option.map_eq_some_iff.mp hfinish
    refine ⟨opening, inside ++ '&' :: (read ++ [';']), ?_, hopens, hspells.append (.entity hc .nil)⟩
    rw [pendingText, List.append_nil]
    rfl
  case h_2 =>
    cases hopens with
    | nil => cases hfinish
    | @cons cs before name' attributes items outer hopens hbefore htag =>
      -- the start tag ends the opening, so the element goes after what stood before it
      obtain ⟨rfl, hr⟩ := Option.ite_none_right_eq_some.mp hfinish
      obtain rfl := Option.some.inj hr
      refine ⟨cs, _, ?_, hopens, hbefore.append (.element htag hspells .nil)⟩
      simp [pendingText, Mark.start, Mark.stop]
  case h_3 =>
    obtain ⟨htag, hr⟩ := Option.ite_none_right_eq_some.mp hfinish
    obtain rfl := Option.some.inj hr
    refine ⟨_, [], ?_, .cons hopens hspells htag, .nil⟩
    simp [pendingText, Mark.start, Mark.stop]

theorem Holds.step (h : r.Holds cs) (hstep : r.step c = some r') : r'.Holds (cs ++ [c]) := by
  obtain ⟨pending, content, outer⟩ := r
  obtain ⟨opening, inside, rfl, hopens, hspells⟩ := h
  cases pending with
  | none =>
    rw [Reader.step] at hstep
    split_ifs at hstep with htag hentity
    · obtain rfl := Option.some.inj hstep
      refine ⟨opening, inside, ?_, hopens, hspells⟩
      simp [pendingText, Mark.start, htag]
    · obtain rfl := Option.some.inj hstep
      refine ⟨opening, inside, ?_, hopens, hspells⟩
      simp [pendingText, Mark.start, hentity]
    · obtain rfl := Option.some.inj hstep
      refine ⟨opening, inside ++ [c], ?_, hopens, hspells.append (.char htag hentity .nil)⟩
      simp [pendingText]
  | some mark =>
    obtain ⟨mark, read⟩ := mark
    rw [Reader.step] at hstep
    split_ifs at hstep with hstop
    · subst hstop
      simpa [pendingText] using holds_finish hopens hspells hstep
    · obtain rfl := Option.some.inj hstep
      refine ⟨opening, inside, ?_, hopens, hspells⟩
      simp [pendingText]

/-- **A reader holds what it has read.** -/
theorem Holds.foldlM_step (h : r.Holds more) (hfold : cs.foldlM Reader.step r = some r') :
    r'.Holds (more ++ cs) := by
  induction cs generalizing r more with
  | nil =>
    obtain rfl := Option.some.inj hfold
    rwa [List.append_nil]
  | cons c cs ih =>
    rw [List.foldlM_cons] at hfold
    obtain ⟨next, hstep, hfold⟩ := Option.bind_eq_some_iff.mp hfold
    rw [List.append_cons]
    exact ih (h.step hstep) hfold

end Reader

/-- **Exactly markup is read**, and as the content that it is markup of. -/
theorem read?_eq_some_iff : read? cs = some items ↔ Spells cs items := by
  constructor
  · intro h
    have hholds : Reader.Holds ⟨none, [], []⟩ [] := ⟨[], [], rfl, .nil, .nil⟩
    rw [read?] at h
    split at h
    case h_1 content hfold =>
      obtain rfl := Option.some.inj h
      obtain ⟨opening, inside, hcs, hopens, hspells⟩ := hholds.foldlM_step hfold
      cases hopens
      obtain rfl : cs = inside := hcs.trans (List.append_nil inside)
      exact hspells
    case h_2 => cases h
  · intro h
    rw [read?, Reader.foldlM_step_of_spells h]
    rfl

example : read? "<b>&lt;i&gt;</b>".toList
    = some [.element ['b'] [] [.char '<', .char 'i', .char '>']] := by rfl

/-! ## Views of content -/

def text (cs : List Char) : List Item := cs.map .char

mutual

/-- The elements in an item of content, the item among them, without any text. -/
def Item.outline : Item → List Item
  | .char _ => []
  | .element name attributes content => [.element name attributes (outline content)]

/-- The elements of content, at every depth, without any text. -/
def outline : List Item → List Item
  | [] => []
  | item :: items => item.outline ++ outline items

end

/-- The characters of content that has no elements. -/
def characters? : List Item → Option (List Char)
  | [] => some []
  | .char c :: items => (characters? items).map (c :: ·)
  | .element _ _ _ :: _ => none

/-- The elements of content that has nothing but white space beside them. -/
def elements? : List Item → Option (List Item)
  | [] => some []
  | .char c :: items => if c.isWhitespace then elements? items else none
  | .element name attributes content :: items =>
    (elements? items).map (.element name attributes content :: ·)

theorem spells_text (h : ∀ c ∈ cs, c ≠ '<' ∧ c ≠ '&') : Spells cs (text cs) := by
  induction cs with
  | nil => exact .nil
  | cons c cs ih =>
    rw [List.forall_mem_cons] at h
    exact .char h.1.1 h.1.2 (ih h.2)

theorem characters?_text (cs : List Char) : characters? (text cs) = some cs := by
  induction cs with
  | nil => rfl
  | cons c cs ih =>
    change (characters? (text cs)).map (c :: ·) = _
    rw [ih]
    rfl

theorem elements?_text (h : ∀ c ∈ cs, c.isWhitespace = true) : elements? (text cs) = some [] := by
  induction cs with
  | nil => rfl
  | cons c cs ih =>
    rw [List.forall_mem_cons] at h
    exact (if_pos h.1).trans (ih h.2)

theorem elements?_append {first second : List Item} (h : elements? items = some first)
    (hothers : elements? others = some second) :
    elements? (items ++ others) = some (first ++ second) := by
  fun_induction elements? items generalizing first with
  | case1 =>
    obtain rfl := Option.some.inj h
    exact hothers
  | case2 c items hc ih => exact (if_pos hc).trans (ih h)
  | case3 => cases h
  | case4 name attributes content items ih =>
    obtain ⟨rest, hrest, rfl⟩ := Option.map_eq_some_iff.mp h
    change (elements? (items ++ others)).map _ = _
    rw [ih hrest]
    rfl

theorem elements?_flatMap {α : Type} {f g : α → List Item} {xs : List α}
    (h : ∀ x ∈ xs, elements? (f x) = some (g x)) :
    elements? (xs.flatMap f) = some (xs.flatMap g) := by
  induction xs with
  | nil => rfl
  | cons x xs ih =>
    rw [List.forall_mem_cons] at h
    exact elements?_append h.1 (ih h.2)

theorem outline_eq_flatMap (items : List Item) : outline items = items.flatMap Item.outline := by
  induction items with
  | nil => rfl
  | cons item items ih => rw [outline, ih, List.flatMap_cons]

theorem outline_append (items others : List Item) :
    outline (items ++ others) = outline items ++ outline others := by
  simp only [outline_eq_flatMap, List.flatMap_append]

theorem outline_text (cs : List Char) : outline (text cs) = [] := by
  rw [outline_eq_flatMap, text, List.flatMap_map]
  exact List.flatMap_eq_nil_iff.mpr fun _ _ ↦ rfl

end ScriptLoader.Markup
