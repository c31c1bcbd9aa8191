import Mathlib.Data.List.Basic

namespace Library
set_option autoImplicit true

variable {α : Type*} {sep : α} {l : List α}

/-- The text with these lines, each of them ended. -/
def unlines (sep : α) (ls : List (List α)) : List α := ls.flatMap fun l => l ++ [sep]

theorem unlines_cons (sep : α) (l : List α) (ls : List (List α)) :
    unlines sep (l :: ls) = l ++ sep :: unlines sep ls := by
  rw [unlines, List.flatMap_cons, List.append_assoc, List.singleton_append, unlines]

variable [DecidableEq α]

/-- The lines of a text, one after another. The last one need not be ended, and a text that ends
with a separator has no empty line behind it. -/
def lines (sep : α) : List α → List (List α)
  | [] => []
  | c :: cs =>
    if c = sep then [] :: lines sep cs
    else
      match lines sep cs with
      | [] => [[c]]
      | l :: ls => (c :: l) :: ls

theorem lines_append (h : sep ∉ l) (cs : List α) :
    lines sep (l ++ sep :: cs) = l :: lines sep cs := by
  induction l with
  | nil => rw [List.nil_append, lines, if_pos rfl]
  | cons c l ih =>
    rw [List.mem_cons, not_or] at h
    rw [List.cons_append, lines, if_neg (Ne.symm h.1), ih h.2]

theorem lines_unlines {ls : List (List α)} (h : ∀ l ∈ ls, sep ∉ l) :
    lines sep (unlines sep ls) = ls := by
  induction ls with
  | nil => rfl
  | cons l ls ih =>
    rw [List.forall_mem_cons] at h
    rw [unlines_cons, lines_append h.1, ih h.2]

theorem sep_notMem_lines {cs : List α} (h : l ∈ lines sep cs) : sep ∉ l := by
  induction cs generalizing l with
  | nil => cases h
  | cons c cs ih =>
    rw [lines] at h
    by_cases hc : c = sep
    · rw [if_pos hc, List.mem_cons] at h
      rcases h with rfl | h
      · exact List.not_mem_nil
      · exact ih h
    · rw [if_neg hc] at h
      have hne : sep ≠ c := Ne.symm hc
      cases hl : lines sep cs with
      | nil =>
        rw [hl, List.mem_singleton] at h
        rw [h, List.mem_singleton]
        exact hne
      | cons l' ls =>
        rw [hl] at h ih
        rcases List.mem_cons.1 h with rfl | h
        · rw [List.mem_cons, not_or]
          exact ⟨hne, ih List.mem_cons_self⟩
        · exact ih (List.mem_cons_of_mem _ h)

end Library
