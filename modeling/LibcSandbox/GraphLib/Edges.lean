import LibcSandbox.GraphLib.LibcCallgraph

namespace LibcSandbox
set_option autoImplicit true

variable {G : Graaf} {g : LibcCallgraph G}

theorem LibcCallgraph.label_eq (hs : g.vertexIdMap s = some i) (ht : g.vertexIdMap t = some j) :
    g.label s t = G.getEdge g.graph i j := by
  rw [label, hs, ht]
  rfl

theorem LibcCallgraph.label_absent (h : g.vertexIdMap s = none ∨ g.vertexIdMap t = none) :
    g.label s t = none := by
  rw [label]
  rcases h with h | h
  · rw [h]
    rfl
  · rw [h]
    cases g.vertexIdMap s <;> rfl

theorem LibcCallgraph.vertexIdMap_addVertex (g : LibcCallgraph G) (s : String) (b : Bool)
    (t : String) :
    ((g.addVertex s b).2.vertexIdMap t).isSome ↔ t = s ∨ (g.vertexIdMap t).isSome := by
  cases hs : g.vertexIdMap s with
  | some i =>
    simp only [addVertex, hs]
    apply Iff.intro
    · exact .inr
    · intro h
      rcases h with rfl | h
      · rw [hs]
        rfl
      · exact h
  | none =>
    simp only [addVertex, hs]
    by_cases ht : t = s
    · simp only [ht, Function.update_self, Option.isSome_some, true_or]
    · simp only [Function.update_of_ne ht, ht, false_or]

theorem LibcCallgraph.vertexIdMap_addEdge (g : LibcCallgraph G) (s t l : String) :
    (g.addEdge s t l).vertexIdMap = g.vertexIdMap := by
  rw [addEdge]
  split <;> rfl

theorem LibcCallgraph.vertexIdMap_removeEdge (g : LibcCallgraph G) (s t : String) :
    (g.removeEdge s t).vertexIdMap = g.vertexIdMap := by
  rw [removeEdge]
  split <;> rfl

theorem LibcCallgraph.Inv.label_addVertex (h : g.Inv) (s : String) (b : Bool) (u v : String) :
    (g.addVertex s b).2.label u v = g.label u v := by
  cases hs : g.vertexIdMap s with
  | some i =>
    have hsame : (g.addVertex s b).2 = g := by simp only [LibcCallgraph.addVertex, hs]
    rw [hsame]
  | none =>
    have hfresh := G.addVertex_fresh g.graph s
    have hno : ∀ i j, i = (G.addVertex g.graph s).1 ∨ j = (G.addVertex g.graph s).1 →
        G.getEdge g.graph i j = none := by
      intro i j hij
      rw [Option.eq_none_iff_forall_ne_some]
      intro l hl
      obtain ⟨hi, hj⟩ := h.ends _ _ _ hl
      rcases hij with rfl | rfl
      · rw [hfresh] at hi
        cases hi
      · rw [hfresh] at hj
        cases hj
    have hedge (i j : Nat) :
        G.getEdge (g.addVertex s b).2.graph i j = G.getEdge g.graph i j := by
      simp only [LibcCallgraph.addVertex, hs, G.getEdge_addVertex]
    have hmap : (g.addVertex s b).2.vertexIdMap =
        Function.update g.vertexIdMap s (some (G.addVertex g.graph s).1) := by
      simp only [LibcCallgraph.addVertex, hs]
    simp only [LibcCallgraph.label, hmap, hedge]
    by_cases hu : u = s
    · rw [hu, Function.update_self, hs, Option.bind_eq_bind, Option.bind_some, Option.bind_none]
      cases Function.update g.vertexIdMap s (some (G.addVertex g.graph s).1) v with
      | none => rfl
      | some j => exact hno _ j (.inl rfl)
    · rw [Function.update_of_ne hu]
      cases g.vertexIdMap u with
      | none => rfl
      | some i =>
        by_cases hv : v = s
        · rw [hv, Function.update_self, hs]
          exact hno i _ (.inr rfl)
        · rw [Function.update_of_ne hv]

theorem LibcCallgraph.Inv.same_ends (h : g.Inv) (hu : g.vertexIdMap u = some a)
    (hs : g.vertexIdMap s = some i) (hv : g.vertexIdMap v = some b)
    (ht : g.vertexIdMap t = some j) : (a = i ∧ b = j) ↔ u = s ∧ v = t := by
  apply Iff.intro
  · rintro ⟨rfl, rfl⟩
    exact ⟨h.name_eq hu hs, h.name_eq hv ht⟩
  · rintro ⟨rfl, rfl⟩
    exact ⟨Option.some.inj (hu.symm.trans hs), Option.some.inj (hv.symm.trans ht)⟩

theorem LibcCallgraph.Inv.label_addEdge (h : g.Inv) (hs : (g.vertexIdMap s).isSome)
    (ht : (g.vertexIdMap t).isSome) (l u v : String) :
    (g.addEdge s t l).label u v =
      if u = s ∧ v = t then some ((g.label s t).getD l) else g.label u v := by
  obtain ⟨i, hi⟩ := Option.isSome_iff_exists.1 hs
  obtain ⟨j, hj⟩ := Option.isSome_iff_exists.1 ht
  have hgraph : g.addEdge s t l = { g with graph := G.addEdge g.graph i j l } := by
    simp only [LibcCallgraph.addEdge, hi, hj]
  have hedge := G.getEdge_addEdge g.graph i j l (by rw [(h.names s i).1 hi]; rfl)
    (by rw [(h.names t j).1 hj]; rfl)
  rw [hgraph]
  cases hu : g.vertexIdMap u with
  | none =>
    have hne : u ≠ s := fun he => by rw [he, hi] at hu; cases hu
    rw [if_neg fun he => hne he.1, LibcCallgraph.label_absent (.inl hu)]
    exact LibcCallgraph.label_absent (.inl hu)
  | some a =>
    cases hv : g.vertexIdMap v with
    | none =>
      have hne : v ≠ t := fun he => by rw [he, hj] at hv; cases hv
      rw [if_neg fun he => hne he.2, LibcCallgraph.label_absent (.inr hv)]
      exact LibcCallgraph.label_absent (.inr hv)
    | some b =>
      rw [LibcCallgraph.label_eq hi hj, LibcCallgraph.label_eq hu hv]
      have hlabel : LibcCallgraph.label { g with graph := G.addEdge g.graph i j l } u v =
          G.getEdge (G.addEdge g.graph i j l) a b :=
        LibcCallgraph.label_eq hu hv
      rw [hlabel, hedge]
      simp only [h.same_ends hu hi hv hj]

theorem LibcCallgraph.Inv.label_removeEdge (h : g.Inv) (s t u v : String) :
    (g.removeEdge s t).label u v = if u = s ∧ v = t then none else g.label u v := by
  cases hs : g.vertexIdMap s with
  | none =>
    have hsame : g.removeEdge s t = g := by simp only [LibcCallgraph.removeEdge, hs]
    rw [hsame]
    split
    next he => rw [he.1, LibcCallgraph.label_absent (.inl hs)]
    next => rfl
  | some i =>
    cases ht : g.vertexIdMap t with
    | none =>
      have hsame : g.removeEdge s t = g := by simp only [LibcCallgraph.removeEdge, hs, ht]
      rw [hsame]
      split
      next he => rw [he.2, LibcCallgraph.label_absent (.inr ht)]
      next => rfl
    | some j =>
      have hgraph : g.removeEdge s t = { g with graph := G.removeEdge g.graph i j } := by
        simp only [LibcCallgraph.removeEdge, hs, ht]
      rw [hgraph]
      cases hu : g.vertexIdMap u with
      | none =>
        rw [LibcCallgraph.label_absent (.inl hu), ite_self]
        exact LibcCallgraph.label_absent (.inl hu)
      | some a =>
        cases hv : g.vertexIdMap v with
        | none =>
          rw [LibcCallgraph.label_absent (.inr hv), ite_self]
          exact LibcCallgraph.label_absent (.inr hv)
        | some b =>
          have hlabel : LibcCallgraph.label { g with graph := G.removeEdge g.graph i j } u v =
              G.getEdge (G.removeEdge g.graph i j) a b := LibcCallgraph.label_eq hu hv
          rw [hlabel, G.getEdge_removeEdge, LibcCallgraph.label_eq hu hv]
          simp only [h.same_ends hu hs hv ht]

end LibcSandbox
