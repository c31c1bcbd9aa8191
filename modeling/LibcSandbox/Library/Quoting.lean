import Mathlib.Data.List.Basic

namespace Library
set_option autoImplicit true

variable {α : Type*} {quote close mark : α}

/-- A text that is quoted where it holds a quote or the closing letter, with a tail behind it. -/
inductive Quoting (quote close : α) : List α → Prop
  | plain : quote ∉ text → close ∉ text → Quoting quote close text
  | quoted : quote ∉ text → quote ∉ tail → close ∉ tail →
    Quoting quote close (quote :: (text ++ quote :: tail))

theorem Quoting.append (h : Quoting quote close text) (hq : quote ∉ tail) (hc : close ∉ tail) :
    Quoting quote close (text ++ tail) := by
  cases h with
  | plain hq' hc' =>
    refine .plain ?_ ?_
    · simp only [List.mem_append, hq', hq, or_self, not_false_eq_true]
    · simp only [List.mem_append, hc', hc, or_self, not_false_eq_true]
  | @quoted text tail' htext hq' hc' =>
    rw [List.cons_append, List.append_assoc, List.cons_append]
    refine .quoted htext ?_ ?_
    · simp only [List.mem_append, hq', hq, or_self, not_false_eq_true]
    · simp only [List.mem_append, hc', hc, or_self, not_false_eq_true]

/-- A text cut in two, where the first two letters are known. -/
theorem cons_cons_eq_append (h : a :: b :: rest = (front : List α) ++ back) :
    (front = [] ∧ back = a :: b :: rest) ∨ (front = [a] ∧ back = b :: rest) ∨
      ∃ front', front = a :: b :: front' ∧ rest = front' ++ back := by
  rcases List.cons_eq_append_iff.1 h with ⟨hfront, hback⟩ | ⟨front₁, rfl, h₁⟩
  · exact .inl ⟨hfront, hback⟩
  · rcases List.cons_eq_append_iff.1 h₁ with ⟨rfl, hback⟩ | ⟨front', rfl, hrest⟩
    · exact .inr (.inl ⟨rfl, hback⟩)
    · exact .inr (.inr ⟨front', rfl, hrest⟩)

theorem not_quoting (h : quote ∉ before) (hq : quote ∉ tail) :
    ¬Quoting quote close (before ++ quote :: tail) := by
  intro h'
  generalize hx : before ++ quote :: tail = x at h'
  cases h' with
  | plain hno => exact hno (hx ▸ List.mem_append_right _ List.mem_cons_self)
  | quoted htext _ _ =>
    cases before with
    | nil =>
      rw [List.nil_append, List.cons.injEq] at hx
      exact hq (hx.2 ▸ List.mem_append_right _ List.mem_cons_self)
    | cons c before =>
      rw [List.cons_append, List.cons.injEq] at hx
      exact h (hx.1 ▸ List.mem_cons_self)

theorem Quoting.no_mark (h : Quoting quote close (before ++ close :: mark :: rest))
    (hc : close ≠ quote) (hm : mark ≠ quote) : ¬Quoting quote close rest := by
  intro hrest
  generalize hx : before ++ close :: mark :: rest = x at h
  cases h with
  | plain _ hno => exact hno (hx ▸ List.mem_append_right _ List.mem_cons_self)
  | @quoted text tail htext hq hno =>
    cases before with
    | nil =>
      rw [List.nil_append, List.cons.injEq] at hx
      exact hc hx.1
    | cons c before =>
      rw [List.cons_append, List.cons.injEq] at hx
      rcases List.append_eq_append_iff.1 hx.2 with
        ⟨between, htext', hbetween⟩ | ⟨between, -, hbetween⟩
      · -- the letter stands inside the quotation, and so does the mark
        rcases cons_cons_eq_append hbetween with ⟨-, hback⟩ | ⟨-, hback⟩ | ⟨front, rfl, hback⟩
        · rw [List.cons.injEq] at hback
          exact hc hback.1.symm
        · rw [List.cons.injEq] at hback
          exact hm hback.1.symm
        · refine not_quoting (fun hmem => htext ?_) hq (hback ▸ hrest)
          rw [htext']
          exact List.mem_append_right _ (List.mem_cons_of_mem _ (List.mem_cons_of_mem _ hmem))
      · rcases List.cons_eq_append_iff.1 hbetween with ⟨rfl, hback⟩ | ⟨front, rfl, hback⟩
        · rw [List.cons.injEq] at hback
          exact hc hback.1
        · exact hno (hback ▸ List.mem_append_right _ List.mem_cons_self)

/-- What stands before the closing letter, the mark and a quoting can be told from the whole. -/
theorem Quoting.front_inj (h : Quoting quote close rest) (h' : Quoting quote close rest')
    (hc : close ≠ quote) (hm : mark ≠ quote) (hcm : close ≠ mark)
    (heq : front ++ close :: mark :: rest = front' ++ close :: mark :: rest') :
    front = front' := by
  have hshorter {front front' rest rest' between : List α} (h : Quoting quote close rest)
      (h' : Quoting quote close rest') (hfront : front' = front ++ between)
      (hrest : close :: mark :: rest = between ++ close :: mark :: rest') : front = front' := by
    rcases cons_cons_eq_append hrest with ⟨rfl, -⟩ | ⟨-, hback⟩ | ⟨between', -, hback⟩
    · rw [hfront, List.append_nil]
    · rw [List.cons.injEq] at hback
      exact absurd hback.1 hcm
    · exact absurd h' ((hback ▸ h).no_mark hc hm)
  rcases List.append_eq_append_iff.1 heq with ⟨between, hfront, hrest⟩ | ⟨between, hfront, hrest⟩
  · exact hshorter h h' hfront hrest
  · exact (hshorter h' h hfront hrest).symm

end Library
