import LibcSandbox.GraphLib.LibcCallgraph

namespace LibcSandbox
set_option autoImplicit true

variable {G : Graaf}

theorem lookup_eq_of_mem_iff [BEq α] [LawfulBEq α] {l : List (α × β)} {v : Option β}
    (h : ∀ b, (a, b) ∈ l ↔ v = some b) : l.lookup a = v := by
  cases hl : l.lookup a with
  | none =>
    cases v with
    | none => rfl
    | some b =>
      have hn := List.lookup_eq_none_iff.1 hl (a, b) ((h b).2 rfl)
      simp only [bne_self_eq_false, Bool.false_eq_true] at hn
  | some b =>
    obtain ⟨l₁, l₂, rfl, -⟩ := List.lookup_eq_some_iff.1 hl
    exact ((h b).1 (List.mem_append_right _ List.mem_cons_self)).symm

/-- Of edges that are added one after another the first one counts, unless there was one before. -/
theorem getEdge_foldl_addEdge (ms : List ((Nat × Nat) × String)) (g : G.Graph)
    (hp : ∀ x ∈ ms, (G.getVertex g x.1.1).isSome ∧ (G.getVertex g x.1.2).isSome) :
    let h := ms.foldl (fun h x => G.addEdge h x.1.1 x.1.2 x.2) g
    (G.Ends g → G.Ends h) ∧ (∀ i, G.getVertex h i = G.getVertex g i) ∧
      ∀ a b, G.getEdge h a b = (G.getEdge g a b).or (ms.lookup (a, b)) := by
  induction ms generalizing g with
  | nil => exact ⟨id, fun _ => rfl, fun _ _ => Option.or_none.symm⟩
  | cons x ms ih =>
    obtain ⟨⟨i, j⟩, l⟩ := x
    obtain ⟨hi, hj⟩ := hp _ List.mem_cons_self
    obtain ⟨hends, hv, he⟩ := ih (G.addEdge g i j l) fun y hy => by
      rw [G.getVertex_addEdge, G.getVertex_addEdge]
      exact hp y (List.mem_cons_of_mem _ hy)
    refine ⟨fun h => hends (h.addEdge hi hj l),
      fun k => (hv k).trans (G.getVertex_addEdge _ _ _ _ _), fun a b => (he a b).trans ?_⟩
    rw [G.getEdge_addEdge g i j l hi hj, List.lookup_cons]
    by_cases hab : a = i ∧ b = j
    · obtain ⟨rfl, rfl⟩ := hab
      simp only [and_self, ↓reduceIte, BEq.rfl, Option.some_or]
      cases G.getEdge g a b <;> rfl
    · have hb : ((a, b) == (i, j)) = false := by
        rw [beq_eq_false_iff_ne, ne_eq, Prod.mk.injEq]
        exact hab
      simp only [if_neg hab, hb]

/-- The edges that the loop of `combine_vertex` adds for an edge. -/
def movedEdges (lhs rhs : Nat) (edge : (Nat × Nat) × String) : List ((Nat × Nat) × String) :=
  (if edge.1.1 = rhs then [((lhs, edge.1.2), edge.2)] else []) ++
    if edge.1.2 = rhs ∧ edge.1.1 ≠ lhs then [((edge.1.1, lhs), edge.2)] else []

theorem foldl_combineEdge (lhs rhs : Nat) (es : List ((Nat × Nat) × String)) (g : G.Graph) :
    es.foldl (combineEdge lhs rhs) g =
      (es.flatMap (movedEdges lhs rhs)).foldl (fun h x => G.addEdge h x.1.1 x.1.2 x.2) g := by
  induction es generalizing g with
  | nil => rfl
  | cons e es ih =>
    rw [List.foldl_cons, ih, List.flatMap_cons, List.foldl_append]
    congr 1
    rw [combineEdge, movedEdges, List.foldl_append]
    have hfirst : (if e.1.1 = rhs then [((lhs, e.1.2), e.2)] else []).foldl
        (fun h x => G.addEdge h x.1.1 x.1.2 x.2) g =
          if e.1.1 = rhs then G.addEdge g lhs e.1.2 e.2 else g := by split <;> rfl
    rw [hfirst]
    generalize (if e.1.1 = rhs then G.addEdge g lhs e.1.2 e.2 else g) = g'
    by_cases h₂ : e.1.2 = rhs
    · by_cases h₁ : e.1.1 = lhs
      · rw [if_pos h₂, if_pos h₁, if_neg fun h => h.2 h₁, List.foldl_nil]
      · rw [if_pos h₂, if_neg h₁, if_pos ⟨h₂, h₁⟩, List.foldl_cons, List.foldl_nil]
    · rw [if_neg h₂, if_neg fun h => h₂ h.1, List.foldl_nil]

theorem mem_movedEdges (lhs rhs : Nat) (g : G.Graph) (a b : Nat) (l : String) :
    ((a, b), l) ∈ (G.getEdges g).flatMap (movedEdges lhs rhs) ↔
      (if a = lhs then G.getEdge g rhs b else if b = lhs then G.getEdge g a rhs else none) =
        some l := by
  rw [List.mem_flatMap]
  apply Iff.intro
  · intro hx
    obtain ⟨⟨⟨i, j⟩, m⟩, he, hm⟩ := hx
    rw [G.mem_getEdges] at he
    rcases List.mem_append.1 hm with hm | hm
    · split at hm
      next hi =>
        cases List.mem_singleton.1 hm
        subst hi
        rw [if_pos rfl, he]
      next => cases hm
    · split at hm
      next hj =>
        cases List.mem_singleton.1 hm
        obtain ⟨rfl, hne⟩ := hj
        rw [if_neg hne, if_pos rfl, he]
      next => cases hm
  · intro h
    by_cases ha : a = lhs
    · subst ha
      rw [if_pos rfl] at h
      refine ⟨((rhs, b), l), (G.mem_getEdges _ _ _ _).2 h, List.mem_append_left _ ?_⟩
      simp only [↓reduceIte, List.mem_singleton]
    · by_cases hb : b = lhs
      · subst hb
        rw [if_neg ha, if_pos rfl] at h
        refine ⟨((a, rhs), l), (G.mem_getEdges _ _ _ _).2 h, List.mem_append_right _ ?_⟩
        simp only [ne_eq, ha, not_false_eq_true, and_self, ↓reduceIte, List.mem_singleton]
      · rw [if_neg ha, if_neg hb] at h
        cases h

/-- What the loop of `combine_vertex` makes of a graph. -/
theorem getEdge_combine (lhs rhs : Nat) (g : G.Graph) (hg : G.Ends g)
    (hl : (G.getVertex g lhs).isSome) :
    let h := (G.getEdges g).foldl (combineEdge lhs rhs) g
    G.Ends h ∧ (∀ i, G.getVertex h i = G.getVertex g i) ∧
      ∀ a b, G.getEdge h a b = (G.getEdge g a b).or
        (if a = lhs then G.getEdge g rhs b else if b = lhs then G.getEdge g a rhs else none) := by
  rw [foldl_combineEdge]
  have hp : ∀ x ∈ (G.getEdges g).flatMap (movedEdges lhs rhs),
      (G.getVertex g x.1.1).isSome ∧ (G.getVertex g x.1.2).isSome := by
    intro x hx
    obtain ⟨⟨a, b⟩, l⟩ := x
    rw [mem_movedEdges] at hx
    split at hx
    next ha =>
      rw [ha]
      exact ⟨hl, (hg _ _ _ hx).2⟩
    next =>
      split at hx
      next hb =>
        rw [hb]
        exact ⟨(hg _ _ _ hx).1, hl⟩
      next => cases hx
  obtain ⟨hends, hv, he⟩ := getEdge_foldl_addEdge _ g hp
  refine ⟨hends hg, hv, fun a b => ?_⟩
  rw [he, lookup_eq_of_mem_iff fun l => mem_movedEdges lhs rhs g a b l]

theorem LibcCallgraph.combineVertex_eq {g : LibcCallgraph G} (hl : g.vertexIdMap lhs = some i)
    (hr : g.vertexIdMap rhs = some j) :
    g.combineVertex lhs rhs =
      g.eraseVertex ((G.getEdges g.graph).foldl (combineEdge i j) g.graph) rhs j := by
  simp only [LibcCallgraph.combineVertex, hl, hr]

theorem LibcCallgraph.Inv.combineVertex {g : LibcCallgraph G} (h : g.Inv) (lhs rhs : String) :
    (g.combineVertex lhs rhs).Inv := by
  cases hl : g.vertexIdMap lhs with
  | none => simpa only [LibcCallgraph.combineVertex, hl] using h
  | some i =>
    cases hr : g.vertexIdMap rhs with
    | none => simpa only [LibcCallgraph.combineVertex, hl, hr] using h
    | some j =>
      rw [LibcCallgraph.combineVertex_eq hl hr]
      obtain ⟨hends, hv, -⟩ := getEdge_combine i j g.graph h.ends (h.isSome hl)
      exact h.eraseVertex hv hends hr

theorem LibcCallgraph.combineVertex_absent {g : LibcCallgraph G}
    (h : g.vertexIdMap lhs = none ∨ g.vertexIdMap rhs = none) : g.combineVertex lhs rhs = g := by
  rw [LibcCallgraph.combineVertex]
  split
  next hl hr =>
    rw [hl, hr] at h
    rcases h with h | h <;> cases h
  next => rfl

theorem LibcCallgraph.vertexIdMap_combineVertex {g : LibcCallgraph G}
    (hl : (g.vertexIdMap lhs).isSome) (hr : (g.vertexIdMap rhs).isSome) :
    (g.combineVertex lhs rhs).vertexIdMap = Function.update g.vertexIdMap rhs none := by
  obtain ⟨i, hi⟩ := Option.isSome_iff_exists.1 hl
  obtain ⟨j, hj⟩ := Option.isSome_iff_exists.1 hr
  rw [LibcCallgraph.combineVertex_eq hi hj]
  rfl

theorem LibcCallgraph.Inv.getVertices_combineVertex {g : LibcCallgraph G} (h : g.Inv)
    (hl : (g.vertexIdMap lhs).isSome) (hr : (g.vertexIdMap rhs).isSome) :
    g.getVertices.Perm (rhs :: (g.combineVertex lhs rhs).getVertices) := by
  have h' := h.combineVertex lhs rhs
  have hm := LibcCallgraph.vertexIdMap_combineVertex hl hr
  have hno : rhs ∉ (g.combineVertex lhs rhs).getVertices := by
    rw [LibcCallgraph.mem_getVertices h', hm, Function.update_self]
    exact Bool.false_ne_true
  rw [List.perm_ext_iff_of_nodup (LibcCallgraph.nodup_getVertices h)
    (List.nodup_cons.2 ⟨hno, LibcCallgraph.nodup_getVertices h'⟩)]
  intro s
  rw [List.mem_cons, LibcCallgraph.mem_getVertices h, LibcCallgraph.mem_getVertices h', hm]
  by_cases hs : s = rhs
  · subst hs
    simp only [hr, true_or]
  · simp only [Function.update_of_ne hs, hs, false_or]

/-- The edges after `combine_vertex`: those that do not touch the removed vertex, and where there
was none between two vertices, the one that was moved there. -/
theorem LibcCallgraph.Inv.edge_combineVertex {g : LibcCallgraph G} (h : g.Inv)
    (hl : (g.vertexIdMap lhs).isSome) (hr : (g.vertexIdMap rhs).isSome) (s l t : String) :
    (g.combineVertex lhs rhs).Edge s l t ↔ s ≠ rhs ∧ t ≠ rhs ∧ (g.Edge s l t ∨
      (∀ l', ¬g.Edge s l' t) ∧
        (s = lhs ∧ g.Edge rhs l t ∨ s ≠ lhs ∧ t = lhs ∧ g.Edge s l rhs)) := by
  obtain ⟨i, hi⟩ := Option.isSome_iff_exists.1 hl
  obtain ⟨j, hj⟩ := Option.isSome_iff_exists.1 hr
  obtain ⟨-, -, hc⟩ := getEdge_combine i j g.graph h.ends (h.isSome hi)
  rw [LibcCallgraph.combineVertex_eq hi hj]
  by_cases hs : s = rhs
  · subst hs
    simp [LibcCallgraph.Edge, LibcCallgraph.eraseVertex]
  by_cases ht : t = rhs
  · subst ht
    simp [LibcCallgraph.Edge, LibcCallgraph.eraseVertex]
  simp only [ne_eq, hs, ht, not_false_eq_true, true_and]
  cases hsa : g.vertexIdMap s with
  | none =>
    have hne : s ≠ lhs := fun he => by rw [← he, hsa] at hl; cases hl
    simp [LibcCallgraph.Edge, LibcCallgraph.eraseVertex, hsa, Function.update_of_ne hs, hne]
  | some a =>
    cases htb : g.vertexIdMap t with
    | none =>
      have hne : t ≠ lhs := fun he => by rw [← he, htb] at hl; cases hl
      simp [LibcCallgraph.Edge, LibcCallgraph.eraseVertex, htb, Function.update_of_ne ht, hne]
    | some b =>
      have haj : a ≠ j := fun he => hs (h.name_eq hsa (he ▸ hj))
      have hbj : b ≠ j := fun he => ht (h.name_eq htb (he ▸ hj))
      have hai : a = i ↔ s = lhs :=
        ⟨fun he => h.name_eq hsa (he ▸ hi), fun he => Option.some.inj (hsa.symm.trans (he ▸ hi))⟩
      have hbi : b = i ↔ t = lhs :=
        ⟨fun he => h.name_eq htb (he ▸ hi), fun he => Option.some.inj (htb.symm.trans (he ▸ hi))⟩
      rw [LibcCallgraph.edge_iff (i := a) (j := b)]
      · simp only [LibcCallgraph.eraseVertex, G.getEdge_removeVertex, haj, hbj, or_self, ↓reduceIte,
          hc, LibcCallgraph.edge_iff hsa htb, LibcCallgraph.edge_iff hj htb,
          LibcCallgraph.edge_iff hsa hj, ← hai, ← hbi, Option.or_eq_some_iff,
          Option.eq_none_iff_forall_ne_some]
        by_cases ha : a = i
        · simp [ha]
        · by_cases hb : b = i <;> simp [ha, hb]
      · simp only [LibcCallgraph.eraseVertex, Function.update_of_ne hs, hsa]
      · simp only [LibcCallgraph.eraseVertex, Function.update_of_ne ht, htb]

end LibcSandbox
