import LibcSandbox.Library.Path

namespace Library
set_option autoImplicit true

variable {σ τ α : Type*} {E K : σ → α → σ → Prop} {E' : τ → α → τ → Prop} {f : σ → τ} {a b : σ}

theorem Reaches.trans (h : Reaches E s t) (h' : Reaches E t u) : Reaches E s u := by
  obtain ⟨w, hw⟩ := h
  obtain ⟨w', hw'⟩ := h'
  exact ⟨_, hw.append hw'⟩

theorem Reaches.closed {S : σ → Prop} (h : Reaches E s t) (hS : ∀ s l t, S s → E s l t → S t)
    (hs : S s) : S t := by
  obtain ⟨w, hw⟩ := h
  induction hw with
  | nil => exact hs
  | cons he _ ih => exact ih (hS _ _ _ hs he)

theorem Path.edge_of_mem (h : Path E s w t) (hl : l ∈ w) : ∃ u v, E u l v := by
  induction h with
  | nil => cases hl
  | cons he _ ih =>
    rcases List.mem_cons.1 hl with rfl | hl
    · exact ⟨_, _, he⟩
    · exact ih hl

theorem path_restrict_iff {P : α → Prop} :
    Path (fun s l t => E s l t ∧ P l) s w t ↔ Path E s w t ∧ ∀ l ∈ w, P l := by
  apply Iff.intro
  · intro h
    induction h with
    | nil s => exact ⟨.nil s, fun l hl => by cases hl⟩
    | cons he _ ih => exact ⟨.cons he.1 ih.1, List.forall_mem_cons.2 ⟨he.2, ih.2⟩⟩
  · intro h
    obtain ⟨h, hw⟩ := h
    induction h with
    | nil s => exact .nil s
    | cons he _ ih =>
      rw [List.forall_mem_cons] at hw
      exact .cons ⟨he, hw.1⟩ (ih hw.2)

/-- A relation whose silent edges may be taken backwards too. -/
def Both (E : σ → α → σ → Prop) (silent : α) (s : σ) (x : α) (t : σ) : Prop :=
  E s x t ∨ x = silent ∧ E t silent s

/-- A word is read again in the states that a map takes to those of its path, if silent paths lead
from each of these states to those that become the same one. -/
theorem Path.visible_lift [DecidableEq α] {silent : α}
    (hE : ∀ x l y, E' x l y → ∃ s t, f s = x ∧ f t = y ∧ E s l t)
    (hf : ∀ s t, f s = f t → ∃ w, Path E s w t ∧ visible silent w = [])
    (h : Path E' (f s) w y) :
    ∃ w' t, Path E s w' t ∧ f t = y ∧ visible silent w' = visible silent w := by
  generalize hx : f s = x at h
  induction h generalizing s with
  | nil x => exact ⟨[], s, .nil s, hx, rfl⟩
  | @cons x l y w z he hw ih =>
    obtain ⟨s', t, hs', ht, he⟩ := hE x l y he
    obtain ⟨w₁, hw₁, hv₁⟩ := hf s s' (hx.trans hs'.symm)
    obtain ⟨w₂, u, hw₂, hu, hv₂⟩ := ih ht
    refine ⟨w₁ ++ l :: w₂, u, hw₁.append (.cons he hw₂), hu, ?_⟩
    have happend : visible silent (w₁ ++ l :: w₂) = visible silent w₁ ++ visible silent (l :: w₂) :=
      List.filter_append ..
    rw [happend, hv₁, List.nil_append]
    exact visible_cons_congr l hv₂

/-- Some path, which may take silent edges backwards, shows the word. -/
def Shows [DecidableEq α] (E : σ → α → σ → Prop) (silent : α) (s : σ) (w : List α) : Prop :=
  ∃ w' t, Path (Both E silent) s w' t ∧ visible silent w' = w

section shows

variable [DecidableEq α] {silent : α}

theorem Shows.mono {E E' : σ → α → σ → Prop} (h : Shows E silent s w)
    (hsub : ∀ s l t, E s l t → E' s l t) : Shows E' silent s w := by
  obtain ⟨w', t, hw, hv⟩ := h
  refine ⟨w', t, hw.mono fun u l v he => ?_, hv⟩
  exact he.imp (hsub u l v) fun hx => ⟨hx.1, hsub v silent u hx.2⟩

theorem shows_iff_path (h : ∀ s l t, E s l t → l ≠ silent) :
    Shows E silent s w ↔ ∃ t, Path E s w t := by
  have hvisible {w : List α} {t : σ} (hw : Path E s w t) : visible silent w = w := by
    rw [visible, List.filter_eq_self]
    intro l hl
    obtain ⟨u, v, he⟩ := hw.edge_of_mem hl
    exact decide_eq_true (h u l v he)
  apply Iff.intro
  · intro hx
    obtain ⟨w', t, hw, hv⟩ := hx
    have hw : Path E s w' t := hw.mono fun u l v he =>
      he.resolve_right fun hx => h v silent u hx.2 rfl
    exact ⟨t, hv ▸ (hvisible hw).symm ▸ hw⟩
  · intro hx
    obtain ⟨t, hw⟩ := hx
    exact ⟨w, t, hw.mono fun u l v he => .inl he, hvisible hw⟩

/-- A map of the states that keeps every edge, or collapses a silent one, keeps the words shown. -/
theorem Shows.map (hE : ∀ s l t, Reaches (Both E silent) e s → E s l t →
      E' (f s) l (f t) ∨ l = silent ∧ f s = f t)
    (h : Shows E silent e w) : Shows E' silent (f e) w := by
  obtain ⟨w', t, hw, hv⟩ := h
  have hboth : ∀ s l t, Reaches (Both E silent) e s → Both E silent s l t →
      Both E' silent (f s) l (f t) ∨ l = silent ∧ f s = f t := by
    intro s l t hr he
    rcases he with he | ⟨rfl, he⟩
    · exact (hE s l t hr he).imp_left .inl
    · rcases hE t l s (hr.snoc (.inr ⟨rfl, he⟩)) he with he' | ⟨-, hf⟩
      · exact .inl (.inr ⟨rfl, he'⟩)
      · exact .inr ⟨rfl, hf.symm⟩
  obtain ⟨w'', hw', hv'⟩ := hw.visible_map hboth
  exact ⟨w'', f t, hw', hv'.trans hv⟩

/-- A map that only makes one what silent edges join shows no more words. -/
theorem shows_map_iff (hdown : ∀ s l t, E s l t → E' (f s) l (f t) ∨ l = silent ∧ f s = f t)
    (hup : ∀ x l y, E' x l y → ∃ s t, f s = x ∧ f t = y ∧ E s l t)
    (hf : ∀ s t, f s = f t → ∃ w, Path (Both E silent) s w t ∧ visible silent w = []) :
    Shows E' silent (f s) w ↔ Shows E silent s w := by
  apply Iff.intro
  · intro h
    obtain ⟨w', y, hw, hv⟩ := h
    have hboth : ∀ x l y, Both E' silent x l y →
        ∃ s t, f s = x ∧ f t = y ∧ Both E silent s l t := by
      intro x l y he
      rcases he with he | ⟨rfl, he⟩
      · obtain ⟨s, t, hs, ht, he⟩ := hup x l y he
        exact ⟨s, t, hs, ht, .inl he⟩
      · obtain ⟨s, t, hs, ht, he⟩ := hup y l x he
        exact ⟨t, s, ht, hs, .inr ⟨rfl, he⟩⟩
    obtain ⟨w'', t, hw', -, hv'⟩ := hw.visible_lift hboth hf
    exact ⟨w'', t, hw', hv'.trans hv⟩
  · exact Shows.map fun s l t _ he => hdown s l t he

end shows

/-- Two states that a map makes one. -/
structure Collapses (f : σ → τ) (a b : σ) : Prop where
  same : f a = f b
  only : ∀ s t, f s = f t → s = t ∨ s = a ∧ t = b ∨ s = b ∧ t = a

/-- What the collapsed states are reached from, and what is reached from them. -/
def Passes (E : σ → α → σ → Prop) (a b s t : σ) : Prop :=
  (Reaches E s a ∨ Reaches E s b) ∧ (Reaches E a t ∨ Reaches E b t)

theorem Passes.snoc (h : Passes E a b s t) (he : E t x u) : Passes E a b s u :=
  ⟨h.1, h.2.imp (·.snoc he) (·.snoc he)⟩

/-- A state is reached in the collapsed relation if it was before, or by way of the states that
are one now. -/
theorem reaches_collapse_iff (hf : Collapses f a b)
    (hdown : ∀ s l t, K s l t → E' (f s) l (f t) ∨ f s = f t)
    (hup : ∀ x l y, E' x l y → ∃ s t, f s = x ∧ f t = y ∧ K s l t) :
    Reaches E' (f s) (f t) ↔ Reaches K s t ∨ Passes K a b s t := by
  have hmap {s t : σ} (h : Reaches K s t) : Reaches E' (f s) (f t) := by
    obtain ⟨w, hw⟩ := h
    induction hw with
    | nil s => exact .refl _
    | cons he _ ih =>
      rcases hdown _ _ _ he with he | he
      · exact (Reaches.snoc (.refl _) he).trans ih
      · exact he ▸ ih
  have hsame {s t t' : σ} (ht : f t = f t') (h : Reaches K s t ∨ Passes K a b s t) :
      Reaches K s t' ∨ Passes K a b s t' := by
    rcases hf.only t t' ht with rfl | ⟨rfl, rfl⟩ | ⟨rfl, rfl⟩
    · exact h
    · exact .inr ⟨h.elim .inl And.left, .inr (.refl _)⟩
    · exact .inr ⟨h.elim .inr And.left, .inl (.refl _)⟩
  have hrun {x y : τ} {w : List α} (h : Path E' x w y)
      (hx : ∀ u, f u = x → Reaches K s u ∨ Passes K a b s u) :
      ∀ u, f u = y → Reaches K s u ∨ Passes K a b s u := by
    induction h with
    | nil => exact hx
    | cons he _ ih =>
      apply ih
      intro u hu
      obtain ⟨u₁, u₂, hu₁, hu₂, hk⟩ := hup _ _ _ he
      exact hsame (hu₂.trans hu.symm) ((hx u₁ hu₁).imp (·.snoc hk) (·.snoc hk))
  apply Iff.intro
  · intro h
    obtain ⟨w, hw⟩ := h
    exact hrun hw (fun u hu => hsame hu.symm (.inl (.refl s))) t rfl
  · intro h
    rcases h with h | ⟨hin, hout⟩
    · exact hmap h
    · have hin : Reaches E' (f s) (f a) :=
        hin.elim hmap fun h => hf.same ▸ hmap h
      have hout : Reaches E' (f a) (f t) :=
        hout.elim hmap fun h => hf.same ▸ hmap h
      exact hin.trans hout

end Library
