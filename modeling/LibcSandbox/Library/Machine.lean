import Mathlib.Data.List.Basic

namespace Library
set_option autoImplicit true

variable {σ τ α β : Type*} {step : σ → α → σ} {P Q : σ → α → Prop} {I : σ → Prop}

/-- Every step of a run of a machine has the property, in the state it is made in. -/
def EveryStep (step : σ → α → σ) (P : σ → α → Prop) : σ → List α → Prop
  | _, [] => True
  | s, a :: w => P s a ∧ EveryStep step P (step s a) w

instance EveryStep.decidable [∀ s a, Decidable (P s a)] :
    (s : σ) → (w : List α) → Decidable (EveryStep step P s w)
  | _, [] => isTrue trivial
  | s, a :: w =>
    have := EveryStep.decidable (step s a) w
    inferInstanceAs (Decidable (P s a ∧ EveryStep step P (step s a) w))

/-- Every state of a run has the property, the first and the last included. -/
def EveryState (step : σ → α → σ) (I : σ → Prop) : σ → List α → Prop
  | s, [] => I s
  | s, a :: w => I s ∧ EveryState step I (step s a) w

theorem EveryState.head (h : EveryState step I s w) : I s := by
  cases w with
  | nil => exact h
  | cons => exact h.1

theorem EveryState.everyStep (h : EveryState step I s w) (himp : ∀ s a, I s → P s a) :
    EveryStep step P s w := by
  induction w generalizing s with
  | nil => trivial
  | cons a w ih => exact ⟨himp s a h.1, ih h.2⟩

/-- An invariant that steps with a property keep holds in every state of a run of such steps, and
what it implies of each step holds of every step. -/
theorem EveryStep.invariant (hs : I s) (hstep : ∀ s a, I s → P s a → I (step s a) ∧ Q s a)
    (h : EveryStep step P s w) : EveryState step I s w ∧ EveryStep step Q s w := by
  induction w generalizing s with
  | nil => exact ⟨hs, trivial⟩
  | cons a w ih =>
    obtain ⟨hI, hQ⟩ := hstep s a hs h.1
    obtain ⟨h₁, h₂⟩ := ih hI h.2
    exact ⟨⟨hs, h₁⟩, hQ, h₂⟩

theorem everyState_iff (hs : I s) (hstep : ∀ s a, I s → (I (step s a) ↔ P s a)) :
    EveryState step I s w ↔ EveryStep step P s w := by
  apply Iff.intro
  · intro h
    induction w generalizing s with
    | nil => trivial
    | cons a w ih =>
      have hI : I (step s a) := h.2.head
      exact ⟨(hstep s a hs).1 hI, ih hI h.2⟩
  · intro h
    exact (h.invariant (Q := fun _ _ => True) hs fun s a hI hP => ⟨(hstep s a hI).2 hP, trivial⟩).1

/-- The same where the steps of the run have another property, which keeps a second invariant. -/
theorem everyState_iff_of {J : σ → Prop} (hJ : ∀ s a, J s → Q s a → J (step s a))
    (hstep : ∀ s a, J s → Q s a → I s → (I (step s a) ↔ P s a)) (hs : J s)
    (hQ : EveryStep step Q s w) :
    EveryState step I s w ↔ I s ∧ EveryStep step P s w := by
  induction w generalizing s with
  | nil => exact (and_iff_left trivial).symm
  | cons a w ih =>
    rw [EveryState, EveryStep, ih (hJ s a hs hQ.1) hQ.2]
    apply and_congr_right
    intro hI
    rw [hstep s a hs hQ.1 hI]

/-- A property that no step brings about holds at the end of a run if and only if it does at the
start and every step keeps it. -/
theorem foldl_iff_of {J : σ → Prop} (hJ : ∀ s a, J s → Q s a → J (step s a))
    (hstep : ∀ s a, J s → Q s a → (I (step s a) ↔ I s ∧ P s a)) (hs : J s)
    (hQ : EveryStep step Q s w) : I (w.foldl step s) ↔ I s ∧ EveryStep step P s w := by
  induction w generalizing s with
  | nil => exact (and_iff_left trivial).symm
  | cons a w ih =>
    rw [List.foldl_cons, EveryStep, ih (hJ s a hs hQ.1) hQ.2, hstep s a hs hQ.1, and_assoc]

theorem everyState_of_scanl {J : σ → Prop} (hJ : ∀ s a, J s → J (step s a)) (hs : J s)
    (h : ∀ x ∈ w.scanl step s, J x → I x) : EveryState step I s w := by
  induction w generalizing s with
  | nil => exact h s (by simp) hs
  | cons a w ih =>
    rw [List.scanl_cons, List.forall_mem_cons] at h
    exact ⟨h.1 hs, ih (hJ s a hs) h.2⟩

theorem EveryState.mono {J : σ → Prop} (h : EveryState step I s w) (himp : ∀ s, I s → J s) :
    EveryState step J s w := by
  induction w generalizing s with
  | nil => exact himp s h
  | cons a w ih => exact ⟨himp s h.1, ih h.2⟩

theorem EveryState.last (h : EveryState step I s w) : I (w.foldl step s) := by
  induction w generalizing s with
  | nil => exact h
  | cons a w ih => exact ih h.2

theorem EveryStep.and (h : EveryStep step P s w) (h' : EveryStep step Q s w) :
    EveryStep step (fun s a => P s a ∧ Q s a) s w := by
  induction w generalizing s with
  | nil => trivial
  | cons a w ih => exact ⟨⟨h.1, h'.1⟩, ih h.2 h'.2⟩

theorem EveryStep.mono (h : EveryStep step P s w) (himp : ∀ s a, P s a → Q s a) :
    EveryStep step Q s w := by
  induction w generalizing s with
  | nil => trivial
  | cons a w ih => exact ⟨himp s a h.1, ih h.2⟩

theorem everyStep_append {w w' : List α} :
    EveryStep step P s (w ++ w') ↔ EveryStep step P s w ∧ EveryStep step P (w.foldl step s) w' := by
  induction w generalizing s with
  | nil => simp only [List.nil_append, EveryStep, List.foldl_nil, true_and]
  | cons a w ih => simp only [List.cons_append, EveryStep, List.foldl_cons, ih, and_assoc]

theorem EveryStep.comap {step' : τ → α → τ} {P' : τ → α → Prop} (f : σ → τ)
    (hf : ∀ s a, f (step s a) = step' (f s) a) (h : EveryStep step' P' (f s) w) :
    EveryStep step (fun s a => P' (f s) a) s w := by
  induction w generalizing s with
  | nil => trivial
  | cons a w ih =>
    refine ⟨h.1, ih ?_⟩
    rw [hf]
    exact h.2

/-- What a run puts out, step after step. -/
def outputs (step : σ → α → σ) (out : σ → α → List β) : σ → List α → List β
  | _, [] => []
  | s, a :: w => out s a ++ outputs step out (step s a) w

variable {step' : τ → α → τ} {out : σ → α → List β} {out' : τ → α → List β}

/-- What is added to a machine without being looked at does not change its output. -/
theorem outputs_map (f : σ → τ) (hf : ∀ s a, f (step s a) = step' (f s) a)
    (hout : ∀ s a, out s a = out' (f s) a) (s : σ) (w : List α) :
    outputs step out s w = outputs step' out' (f s) w := by
  induction w generalizing s with
  | nil => rfl
  | cons a w ih => rw [outputs, outputs, hout, ih, hf]

/-- A machine that only makes the kept steps of another puts out the same, if the steps left out
put out nothing and keep the relation between the two. -/
theorem outputs_filter {R : σ → τ → Prop} {P' : τ → α → Prop} (keep : α → Bool)
    (hkeep : ∀ s t a, R s t → keep a = true → P s a → P' t a →
      out s a = out' t a ∧ R (step s a) (step' t a))
    (hskip : ∀ s t a, R s t → keep a = false → P s a → out s a = [] ∧ R (step s a) t)
    (hR : R s t) (h : EveryStep step P s w) (h' : EveryStep step' P' t (w.filter keep)) :
    outputs step out s w = outputs step' out' t (w.filter keep) := by
  induction w generalizing s t with
  | nil => rfl
  | cons a w ih =>
    cases hk : keep a with
    | true =>
      rw [List.filter_cons_of_pos hk] at h' ⊢
      obtain ⟨ho, hR'⟩ := hkeep s t a hR hk h.1 h'.1
      rw [outputs, outputs, ho, ih hR' h.2 h'.2]
    | false =>
      have hna : ¬keep a = true := by rw [hk]; exact Bool.false_ne_true
      rw [List.filter_cons_of_neg hna] at h' ⊢
      obtain ⟨ho, hR'⟩ := hskip s t a hR hk h.1
      rw [outputs, ho, List.nil_append, ih hR' h.2 h']

section stuck

variable {step : σ → α → Option σ} {w : List α}

theorem foldlM_cons_some (h : (a :: w).foldlM step s = some s') :
    ∃ s₁, step s a = some s₁ ∧ w.foldlM step s₁ = some s' := by
  rw [List.foldlM_cons] at h
  exact Option.bind_eq_some_iff.1 h

theorem foldlM_invariant (hI : ∀ s, ∀ a ∈ w, ∀ s', I s → step s a = some s' → I s') (hs : I s)
    (h : w.foldlM step s = some s') : I s' := by
  induction w generalizing s with
  | nil =>
    cases h
    exact hs
  | cons a w ih =>
    obtain ⟨s₁, h₁, hw⟩ := foldlM_cons_some h
    exact ih (fun s b hb => hI s b (List.mem_cons_of_mem a hb))
      (hI s a List.mem_cons_self s₁ hs h₁) hw

/-- What holds at the end of a run and not at its start has come about in one of the steps. -/
theorem foldlM_origin {Q : σ → Prop}
    (hI : ∀ s, ∀ a ∈ w, ∀ s', I s → step s a = some s' → I s') (hs : I s)
    (h : w.foldlM step s = some s') (hQ : Q s') (hnot : ¬Q s) :
    ∃ s₁, ∃ a ∈ w, ∃ s₂, I s₁ ∧ step s₁ a = some s₂ ∧ ¬Q s₁ ∧ Q s₂ := by
  induction w generalizing s with
  | nil =>
    cases h
    exact absurd hQ hnot
  | cons a w ih =>
    obtain ⟨s₁, h₁, hw⟩ := foldlM_cons_some h
    by_cases hfirst : Q s₁
    · exact ⟨s, a, List.mem_cons_self, s₁, hs, h₁, hnot, hfirst⟩
    · obtain ⟨s₂, b, hb, hx⟩ := ih (fun s b hb => hI s b (List.mem_cons_of_mem a hb))
        (hI s a List.mem_cons_self s₁ hs h₁) hw hfirst
      exact ⟨s₂, b, List.mem_cons_of_mem a hb, hx⟩

end stuck

end Library
