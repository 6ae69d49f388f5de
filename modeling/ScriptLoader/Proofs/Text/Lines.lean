import ScriptLoader.Directive
import ScriptLoader.Proofs.Bundle.Targets

/-!
# Lines are read back

Lines have no line feeds, so the fields between line feeds are the lines that were joined. To be
read as lines they must not end with a carriage return either, and the last one must be ended or
have something in it.
-/

namespace ScriptLoader

variable {line cs rest : List Char} {ls : List (List Char)} {c : Char}

/-! ## Reading -/

theorem lines_cons (hc : c ≠ '\n') (hend : c = '\r' → rest.head? ≠ some '\n') :
    lines (c :: rest) =
      match lines rest with
      | [] => [[c]]
      | line :: more => (c :: line) :: more := by
  refine lines.eq_4 c rest hc ?_
  rintro more hreturn rfl
  exact hend hreturn rfl

theorem newline_notMem_of_mem_lines (h : line ∈ lines cs) : '\n' ∉ line := by
  fun_induction lines cs generalizing line with
  | case1 => cases h
  | case2 rest ih =>
    rcases List.mem_cons.mp h with rfl | hmem
    · exact List.not_mem_nil
    · exact ih hmem
  | case3 rest ih =>
    rcases List.mem_cons.mp h with rfl | hmem
    · exact List.not_mem_nil
    · exact ih hmem
  | case4 c rest hc _ _ _ =>
    rw [List.mem_singleton.mp h, List.mem_singleton]
    exact Ne.symm hc
  | case5 c rest hc _ first more heq ih =>
    rw [heq] at ih
    rcases List.mem_cons.mp h with rfl | hmem
    · rw [List.mem_cons, not_or]
      exact ⟨Ne.symm hc, ih List.mem_cons_self⟩
    · exact ih (List.mem_cons_of_mem _ hmem)

/-- What stands before the first line feed is a line, unless a carriage return ends it. -/
theorem lines_append_newline (hline : '\n' ∉ line) (hlast : line.getLast? ≠ some '\r') :
    lines (line ++ '\n' :: rest) = line :: lines rest := by
  induction line with
  | nil => rw [List.nil_append, lines]
  | cons c line ih =>
    rw [List.mem_cons, not_or] at hline
    cases line with
    | nil =>
      have hreturn : c ≠ '\r' := by simpa using hlast
      rw [List.singleton_append, lines_cons (Ne.symm hline.1) fun heq ↦ absurd heq hreturn, lines]
    | cons d line =>
      rw [List.cons_append, lines_cons (Ne.symm hline.1), ih hline.2 (by simpa using hlast)]
      intro _ hhead
      obtain rfl : d = '\n' := by simpa using hhead
      exact hline.2 List.mem_cons_self

theorem lines_of_notMem (hline : '\n' ∉ line) (hne : line ≠ []) : lines line = [line] := by
  induction line with
  | nil => exact absurd rfl hne
  | cons c line ih =>
    rw [List.mem_cons, not_or] at hline
    have hhead : line.head? ≠ some '\n' := fun heq ↦ hline.2 (List.mem_of_mem_head? heq)
    rw [lines_cons (Ne.symm hline.1) fun _ ↦ hhead]
    cases line with
    | nil => rfl
    | cons d line => rw [ih hline.2 (by simp)]

/-! ## Joining -/

def endLines (ls : List (List Char)) : List Char := ls.flatMap (· ++ ['\n'])

theorem endLines_cons (line : List Char) (ls : List (List Char)) :
    endLines (line :: ls) = line ++ '\n' :: endLines ls := by
  rw [endLines, List.flatMap_cons, List.append_assoc]
  rfl

namespace Directive

open File (joinLines)

theorem fieldsAt_joinLines (hne : ls ≠ []) (h : ∀ line ∈ ls, '\n' ∉ line) :
    fieldsAt '\n' (joinLines ls) = ls := by
  fun_induction joinLines ls with
  | case1 => exact absurd rfl hne
  | case2 line => exact fieldsAt_of_not_mem (h line List.mem_cons_self)
  | case3 line rest hrest ih =>
    rw [List.forall_mem_cons] at h
    rw [fieldsAt_append, fieldsAt_of_not_mem h.1, ih (by simpa using hrest) h.2]
    rfl

/-- Lines that are not empty are read back, with line feeds between them or one after each. -/
theorem lines_joinLines (h : ∀ line ∈ ls, line ≠ [] ∧ '\n' ∉ line ∧ line.getLast? ≠ some '\r') :
    lines (joinLines ls) = ls ∧ lines (endLines ls) = ls := by
  constructor
  · fun_induction joinLines ls with
    | case1 => rfl
    | case2 line =>
      obtain ⟨hne, hline, -⟩ := h line List.mem_cons_self
      exact lines_of_notMem hline hne
    | case3 line rest _ ih =>
      rw [List.forall_mem_cons] at h
      rw [lines_append_newline h.1.2.1 h.1.2.2, ih h.2]
  · induction ls with
    | nil => rfl
    | cons line ls ih =>
      rw [List.forall_mem_cons] at h
      rw [endLines_cons, lines_append_newline h.1.2.1 h.1.2.2, ih h.2]

end Directive

end ScriptLoader
