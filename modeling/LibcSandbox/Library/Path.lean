import Mathlib.Data.List.Basic

namespace Library
set_option autoImplicit true

variable {σ τ α : Type*} {E E' : σ → α → σ → Prop} {step : σ → α → Option σ}

/-- Two places in a list are the same, or one comes before the other. -/
theorem append_cons_cases {u v u' v' : List α} (h : u ++ a :: v = u' ++ b :: v') :
    (u = u' ∧ a = b ∧ v = v') ∨ a ∈ u' ∧ b ∈ v ∨ b ∈ u ∧ a ∈ v' := by
  rcases List.append_eq_append_iff.1 h with ⟨w, rfl, hw⟩ | ⟨w, rfl, hw⟩
  · rcases List.cons_eq_append_iff.1 hw with ⟨rfl, hcons⟩ | ⟨w, rfl, rfl⟩
    · rw [List.cons.injEq] at hcons
      exact .inl ⟨(List.append_nil _).symm, hcons.1.symm, hcons.2.symm⟩
    · right
      left
      exact ⟨List.mem_append_right _ List.mem_cons_self, List.mem_append_right _ List.mem_cons_self⟩
  · rcases List.cons_eq_append_iff.1 hw with ⟨rfl, hcons⟩ | ⟨w, rfl, rfl⟩
    · rw [List.cons.injEq] at hcons
      exact .inl ⟨List.append_nil _, hcons⟩
    · right
      right
      exact ⟨List.mem_append_right _ List.mem_cons_self, List.mem_append_right _ List.mem_cons_self⟩

/-- A path of labelled edges, with the word of its labels. -/
inductive Path (E : σ → α → σ → Prop) : σ → List α → σ → Prop
  | nil (s : σ) : Path E s [] s
  | cons : E s a t → Path E t w u → Path E s (a :: w) u

theorem Path.append (h : Path E s w t) (h' : Path E t w' u) : Path E s (w ++ w') u := by
  induction h with
  | nil => exact h'
  | cons he _ ih => exact .cons he (ih h')

theorem Path.snoc (h : Path E s w t) (he : E t a u) : Path E s (w ++ [a]) u :=
  h.append (.cons he (.nil u))

theorem Path.mono (h : Path E s w t) (hsub : ∀ s a t, E s a t → E' s a t) : Path E' s w t := by
  induction h with
  | nil => exact .nil _
  | cons he _ ih => exact .cons (hsub _ _ _ he) ih

theorem Path.invariant {I : σ → Prop} (hI : ∀ s a t, I s → E s a t → I t) (h : Path E s w t)
    (hs : I s) : I t := by
  induction h with
  | nil => exact hs
  | cons he _ ih => exact ih (hI _ _ _ hs he)

/-- Some path leads from the first state to the second. -/
def Reaches (E : σ → α → σ → Prop) (s t : σ) : Prop := ∃ w, Path E s w t

theorem Reaches.refl (s : σ) : Reaches E s s := ⟨[], .nil s⟩

theorem Reaches.snoc (h : Reaches E s t) (he : E t a u) : Reaches E s u := by
  obtain ⟨w, hw⟩ := h
  exact ⟨_, hw.snoc he⟩

/-- A partial machine reads a word; it gets stuck at the first letter it refuses. -/
def run (step : σ → α → Option σ) : σ → List α → Option σ
  | s, [] => some s
  | s, a :: w => (step s a).bind fun t => run step t w

theorem run_eq_some_iff : run step s w = some t ↔ Path (fun s a t => step s a = some t) s w t := by
  induction w generalizing s with
  | nil =>
    apply Iff.intro
    · intro h
      cases h
      exact .nil _
    · intro h
      cases h
      rfl
  | cons a w ih =>
    simp only [run, Option.bind_eq_some_iff, ih]
    apply Iff.intro
    · intro hx
      obtain ⟨u, hu, h⟩ := hx
      exact .cons hu h
    · intro h
      cases h with
      | cons hu h => exact ⟨_, hu, h⟩

theorem run_append (w w' : List α) :
    run step s (w ++ w') = (run step s w).bind (run step · w') := by
  induction w generalizing s with
  | nil => rfl
  | cons a w ih =>
    cases h : step s a with
    | none => simp only [List.cons_append, run, h, Option.bind_none]
    | some t => simp only [List.cons_append, run, h, Option.bind_some, ih]

theorem run_map {β : Type*} {step : σ → β → Option σ} (f : α → β) (w : List α) :
    run step s (w.map f) = run (fun s a => step s (f a)) s w := by
  induction w generalizing s with
  | nil => rfl
  | cons a w ih => simp only [List.map_cons, run, ih]

/-- A machine follows another one, if in related states both take a letter, to related states, or
both refuse it. -/
theorem run_rel {step' : τ → α → Option τ} {R : σ → τ → Prop}
    (hR : ∀ s t, R s t → ∀ a ∈ w, Option.Rel R (step s a) (step' t a)) (h : R s t) :
    Option.Rel R (run step s w) (run step' t w) := by
  induction w generalizing s t with
  | nil => exact .some h
  | cons a w ih =>
    have ha := hR s t h a List.mem_cons_self
    have hw : ∀ s t, R s t → ∀ b ∈ w, Option.Rel R (step s b) (step' t b) :=
      fun s t h b hb => hR s t h b (List.mem_cons_of_mem a hb)
    rw [run, run]
    generalize step s a = x at ha ⊢
    generalize step' t a = y at ha ⊢
    cases ha with
    | some h' => exact ih hw h'
    | none => exact .none

theorem isSome_of_rel {x : Option σ} {y : Option τ} {R : σ → τ → Prop} (h : Option.Rel R x y) :
    x.isSome ↔ y.isSome := by
  cases h with
  | some _ => exact Iff.rfl
  | none => exact Iff.rfl

/-- A machine that takes exactly the edges with some property accepts every path if and only if
every edge that a path can reach has the property. -/
theorem run_complete_iff {P : σ → α → σ → Prop}
    (hstep : ∀ s a t, step s a = some t ↔ E s a t ∧ P s a t) (s : σ) :
    (∀ w t, Path E s w t → run step s w = some t) ↔
      ∀ u, Reaches E s u → ∀ a t, E u a t → P u a t := by
  apply Iff.intro
  · intro h u hx a t he
    obtain ⟨w, hw⟩ := hx
    have hu := h w u hw
    have ht := h (w ++ [a]) t (hw.snoc he)
    rw [run_append, hu, Option.bind_some] at ht
    simp only [run, Option.bind_eq_some_iff] at ht
    obtain ⟨t', ht', he'⟩ := ht
    cases he'
    exact ((hstep u a t).1 ht').2
  · intro h w t hw
    rw [run_eq_some_iff]
    induction hw with
    | nil s => exact .nil s
    | cons he hw ih =>
      refine .cons ((hstep _ _ _).2 ⟨he, h _ (.refl _) _ _ he⟩) (ih fun u hu => h u ?_)
      obtain ⟨w', hw'⟩ := hu
      exact ⟨_, .cons he hw'⟩

theorem run_simulation {step' : τ → α → Option τ} {R : σ → τ → Prop}
    (hstep : ∀ s s' a, R s s' →
      (∀ t, step s a = some t → ∃ t', step' s' a = some t' ∧ R t t') ∧
      (∀ t', step' s' a = some t' → ∃ t, step s a = some t ∧ R t t'))
    (h : R s s') (w : List α) :
    (∀ t, run step s w = some t → ∃ t', run step' s' w = some t' ∧ R t t') ∧
      (∀ t', run step' s' w = some t' → ∃ t, run step s w = some t ∧ R t t') := by
  induction w generalizing s s' with
  | nil =>
    constructor
    · intro t ht
      cases ht
      exact ⟨s', rfl, h⟩
    · intro t' ht'
      cases ht'
      exact ⟨s, rfl, h⟩
  | cons a w ih =>
    obtain ⟨hf, hb⟩ := hstep s s' a h
    simp only [run, Option.bind_eq_some_iff]
    constructor
    · intro t hx
      obtain ⟨u, hu, ht⟩ := hx
      obtain ⟨u', hu', hr⟩ := hf u hu
      obtain ⟨t', ht', hr'⟩ := (ih hr).1 t ht
      exact ⟨t', ⟨u', hu', ht'⟩, hr'⟩
    · intro t' hx
      obtain ⟨u', hu', ht'⟩ := hx
      obtain ⟨u, hu, hr⟩ := hb u' hu'
      obtain ⟨t, ht, hr'⟩ := (ih hr).2 t' ht'
      exact ⟨t, ⟨u, hu, ht⟩, hr'⟩

/-- A partial machine and a relation that read the same word side by side. -/
def Beside (step : σ → α → Option σ) (E : τ → α → τ → Prop) (x : σ × τ) (a : α) (y : σ × τ) :
    Prop :=
  step x.1 a = some y.1 ∧ E x.2 a y.2

theorem Path.of_beside {E : τ → α → τ → Prop} (h : Path (Beside step E) x w y) :
    run step x.1 w = some y.1 ∧ Path E x.2 w y.2 := by
  induction h with
  | nil x => exact ⟨rfl, .nil _⟩
  | cons he _ ih =>
    obtain ⟨hs, ht⟩ := he
    refine ⟨?_, .cons ht ih.2⟩
    rw [run, hs, Option.bind_some, ih.1]

/-- A machine takes every word of a relation if and only if, wherever the two get on one word,
it takes every letter that the relation goes on with. -/
theorem run_covers_iff {E : τ → α → τ → Prop} (s : σ) (t : τ) :
    (∀ w, (∃ u, Path E t w u) → ∃ s', run step s w = some s') ↔
      ∀ x, Reaches (Beside step E) (s, t) x → ∀ a u, E x.2 a u → ∃ s', step x.1 a = some s' := by
  apply Iff.intro
  · intro h x hx a u hu
    obtain ⟨w, hw⟩ := hx
    obtain ⟨hs, ht⟩ := hw.of_beside
    obtain ⟨s', hs'⟩ := h (w ++ [a]) ⟨u, ht.snoc hu⟩
    rw [run_append, hs, Option.bind_some] at hs'
    simp only [run, Option.bind_eq_some_iff] at hs'
    obtain ⟨q, hq, -⟩ := hs'
    exact ⟨q, hq⟩
  · intro h w hx
    obtain ⟨u, hw⟩ := hx
    induction hw generalizing s with
    | nil => exact ⟨s, rfl⟩
    | @cons t a v w u he hw ih =>
      obtain ⟨q, hq⟩ := h (s, t) (.refl _) a v he
      have hstep : Beside step E (s, t) a (q, v) := ⟨hq, he⟩
      obtain ⟨s', hs'⟩ := ih q fun x hx => by
        obtain ⟨w', hw'⟩ := hx
        exact h x ⟨_, .cons hstep hw'⟩
      exact ⟨s', by rw [run, hq, Option.bind_some, hs']⟩

/-- What is seen of a word that has a silent letter. -/
def visible [DecidableEq α] (silent : α) (w : List α) : List α := w.filter fun a => a ≠ silent

theorem visible_cons_silent [DecidableEq α] (silent : α) (w : List α) :
    visible silent (silent :: w) = visible silent w := by
  simp only [visible, ne_eq, decide_not, List.filter_cons, decide_true, Bool.not_true,
    Bool.false_eq_true, ↓reduceIte]

theorem Path.visible_eq_self [DecidableEq α] {silent : α} (hE : ∀ s a t, E s a t → a ≠ silent)
    (h : Path E s w t) : visible silent w = w := by
  induction h with
  | nil => rfl
  | cons he _ ih =>
    rw [visible, List.filter_cons_of_pos (by simpa using hE _ _ _ he), ← visible, ih]

theorem visible_cons_congr [DecidableEq α] {silent : α} (a : α)
    (h : visible silent w = visible silent w') :
    visible silent (a :: w) = visible silent (a :: w') := by
  rw [visible, visible, List.filter_cons, List.filter_cons]
  unfold visible at h
  rw [h]

/-- A map of the states that keeps every edge, or collapses a silent one, keeps what is seen of
every path. -/
theorem Path.visible_map {E' : τ → α → τ → Prop} [DecidableEq α] {silent : α} {f : σ → τ}
    (hE : ∀ s a t, Reaches E e s → E s a t → E' (f s) a (f t) ∨ a = silent ∧ f s = f t)
    (h : Path E e w t) : ∃ w', Path E' (f e) w' (f t) ∧ visible silent w' = visible silent w := by
  induction h with
  | nil e => exact ⟨[], .nil _, rfl⟩
  | @cons e a s w t he hw ih =>
    obtain ⟨w', hw', hv⟩ := ih fun s b t hr hb => by
      obtain ⟨u, hu⟩ := hr
      exact hE s b t ⟨_, .cons he hu⟩ hb
    rcases hE e a s (.refl e) he with hs | ⟨hs, hf⟩
    · exact ⟨a :: w', .cons hs hw', visible_cons_congr a hv⟩
    · subst hs
      rw [hf, visible_cons_silent]
      exact ⟨w', hw', hv⟩

end Library
