import LibcSandbox.GraphLib.Combine

namespace LibcSandbox
set_option autoImplicit true

variable {G : Graaf} {g g' : LibcCallgraph G} {m : String × String}

/-- Where a vertex is after a merge. -/
def rename (m : String × String) (u : String) : String := if u = m.2 then m.1 else u

theorem rename_self (m : String × String) : rename m m.2 = m.1 := if_pos rfl

theorem rename_of_ne (h : u ≠ m.2) : rename m u = u := if_neg h

/-- Of the edges other than those from the first to the second vertex, no two with different labels
are sent to the same place. -/
def NoConflict (g : LibcCallgraph G) (m : String × String) : Prop :=
  ∀ u l v u' l' v', g.Edge u l v → g.Edge u' l' v' → (u, v) ≠ m → (u', v') ≠ m →
    rename m u = rename m u' → rename m v = rename m v' → l = l'

/-- The second graph is the first one with two vertices made one. -/
structure IsQuotient (g : LibcCallgraph G) (m : String × String) (g' : LibcCallgraph G) : Prop where
  vertices : ∀ v, (g'.vertexIdMap v).isSome ↔ v ≠ m.2 ∧ (g.vertexIdMap v).isSome
  edges : ∀ x l y, g'.Edge x l y ↔
    ∃ u v, g.Edge u l v ∧ (u, v) ≠ m ∧ rename m u = x ∧ rename m v = y

theorem IsQuotient.loop (h : IsQuotient g m g') (hne : m.1 ≠ m.2)
    (he : g.Edge m.2 l m.2 ∨ g.Edge m.2 l m.1) : g'.Edge m.1 l m.1 := by
  have hm (v : String) : (m.2, v) ≠ m := fun hm => hne (congrArg Prod.fst hm).symm
  rw [h.edges]
  rcases he with he | he
  · exact ⟨m.2, m.2, he, hm m.2, rename_self m, rename_self m⟩
  · exact ⟨m.2, m.1, he, hm m.1, rename_self m, rename_of_ne hne⟩

theorem edge_of_combineVertex (hI : g.Inv) (hl : (g.vertexIdMap m.1).isSome)
    (hr : (g.vertexIdMap m.2).isSome) (he : (g.combineVertex m.1 m.2).Edge x l y) :
    ∃ u v, g.Edge u l v ∧ (u, v) ≠ m ∧ rename m u = x ∧ rename m v = y := by
  rw [hI.edge_combineVertex hl hr] at he
  obtain ⟨hx, hy, he⟩ := he
  rcases he with he | ⟨-, ⟨rfl, he⟩ | ⟨hne, rfl, he⟩⟩
  · exact ⟨x, y, he, fun hm => hy (congrArg Prod.snd hm), rename_of_ne hx, rename_of_ne hy⟩
  · exact ⟨m.2, y, he, fun hm => hx (congrArg Prod.fst hm).symm, rename_self m, rename_of_ne hy⟩
  · exact ⟨x, m.2, he, fun hm => hne (congrArg Prod.fst hm), rename_of_ne hx, rename_self m⟩

theorem LibcCallgraph.edge_or_free (h : ∀ l', g.Edge u l' v → l = l') :
    g.Edge u l v ∨ ∀ l', ¬g.Edge u l' v := by
  by_cases hold : ∃ l', g.Edge u l' v
  · obtain ⟨l', he⟩ := hold
    exact .inl (h l' he ▸ he)
  · exact .inr (not_exists.1 hold)

theorem combineVertex_of_edge (hI : g.Inv) (hne : m.1 ≠ m.2) (hl : (g.vertexIdMap m.1).isSome)
    (hr : (g.vertexIdMap m.2).isSome) (hc : NoConflict g m)
    (hloop : (∃ l, g.Edge m.2 l m.2) → (∃ l, g.Edge m.1 l m.1) ∨ ∃ l, g.Edge m.2 l m.1)
    (he : g.Edge u l v) (hm : (u, v) ≠ m) :
    (g.combineVertex m.1 m.2).Edge (rename m u) l (rename m v) := by
  have hsnd (w : String) : (m.2, w) ≠ m := fun hm => hne (congrArg Prod.fst hm).symm
  have hfst (w : String) (hw : w ≠ m.2) : (m.1, w) ≠ m := fun hm => hw (congrArg Prod.snd hm)
  have hsame : rename m m.2 = rename m m.1 := (rename_self m).trans (rename_of_ne hne).symm
  rw [hI.edge_combineVertex hl hr]
  by_cases hu : u = m.2
  · subst hu
    rw [rename_self]
    by_cases hv : v = m.2
    · -- A loop of the vertex that goes.
      subst hv
      rw [rename_self]
      refine ⟨hne, hne, ?_⟩
      by_cases hold : ∃ l', g.Edge m.1 l' m.1
      · obtain ⟨l', he'⟩ := hold
        have hl' : l = l' := hc _ _ _ _ _ _ he he' hm (hfst m.1 hne) hsame hsame
        exact .inl (hl' ▸ he')
      · obtain ⟨l', he'⟩ := (hloop ⟨l, he⟩).resolve_left hold
        have hl' : l = l' := hc _ _ _ _ _ _ he he' hm (hsnd m.1) rfl hsame
        exact .inr ⟨not_exists.1 hold, .inl ⟨rfl, hl' ▸ he'⟩⟩
    · rw [rename_of_ne hv]
      have hplace := LibcCallgraph.edge_or_free fun l' he' =>
        hc _ _ _ _ _ _ he he' hm (hfst v hv) hsame rfl
      exact ⟨hne, hv, hplace.imp_right fun hno => ⟨hno, .inl ⟨rfl, he⟩⟩⟩
  · rw [rename_of_ne hu]
    by_cases hv : v = m.2
    · subst hv
      rw [rename_self]
      have hu' : u ≠ m.1 := fun hu' => hm (Prod.ext hu' rfl)
      have hplace := LibcCallgraph.edge_or_free fun l' he' =>
        hc _ _ _ _ _ _ he he' hm (fun hm => hu' (congrArg Prod.fst hm)) rfl hsame
      exact ⟨hu, hne, hplace.imp_right fun hno => ⟨hno, .inr ⟨hu', rfl, he⟩⟩⟩
    · rw [rename_of_ne hv]
      exact ⟨hu, hv, .inl he⟩

/-- `combine_vertex` makes two vertices one, except that it forgets the loops of the second one. -/
theorem combineVertex_isQuotient_iff (hI : g.Inv) (lhs rhs : String) (hne : lhs ≠ rhs)
    (hl : (g.vertexIdMap lhs).isSome) (hr : (g.vertexIdMap rhs).isSome)
    (hc : NoConflict g (lhs, rhs)) :
    IsQuotient g (lhs, rhs) (g.combineVertex lhs rhs) ↔
      ((∃ l, g.Edge rhs l rhs) → (∃ l, g.Edge lhs l lhs) ∨ ∃ l, g.Edge rhs l lhs) := by
  apply Iff.intro
  · intro h hloop
    obtain ⟨l, he⟩ := hloop
    have hkept := h.loop hne (.inl he)
    rw [hI.edge_combineVertex hl hr] at hkept
    obtain ⟨-, -, hkept | ⟨-, ⟨-, hkept⟩ | ⟨hno, -⟩⟩⟩ := hkept
    · exact .inl ⟨l, hkept⟩
    · exact .inr ⟨l, hkept⟩
    · exact absurd rfl hno
  · intro hloop
    constructor
    · intro v
      rw [LibcCallgraph.vertexIdMap_combineVertex hl hr]
      by_cases hv : v = rhs
      · simp only [hv, Function.update_self, Option.isSome_none, Bool.false_eq_true, ne_eq,
          not_true_eq_false, false_and]
      · simp only [Function.update_of_ne hv, ne_eq, hv, not_false_eq_true, true_and]
    · intro x l y
      apply Iff.intro
      · exact edge_of_combineVertex (m := (lhs, rhs)) hI hl hr
      · intro hx
        obtain ⟨u, v, he, hm, rfl, rfl⟩ := hx
        exact combineVertex_of_edge (m := (lhs, rhs)) hI hne hl hr hc hloop he hm

theorem noConflict_of_single (h : ∀ u l v, g.Edge u l v → (u, v) ≠ m → l = k) :
    NoConflict g m := by
  intro u l v u' l' v' he he' hm hm' _ _
  rw [h u l v he hm, h u' l' v' he' hm']

/-- A vertex that is merged with the one its edge leads to. -/
def chainGraph : LibcCallgraph listGraaf :=
  .ofLists ["a", "b", "c"] [("a", "control", "b"), ("b", "libc:puts", "c")]

theorem chainGraph_isQuotient :
    IsQuotient chainGraph ("a", "b") (chainGraph.combineVertex "a" "b") := by
  have hI : chainGraph.Inv := LibcCallgraph.ofLists_inv _ _
  have hedges : chainGraph.edges = [("b", "libc:puts", "c"), ("a", "control", "b")] := by
    decide +kernel
  have he := hI.edge_of_edges hedges
  refine (combineVertex_isQuotient_iff hI "a" "b" (by decide) (by decide +kernel)
    (by decide +kernel) (noConflict_of_single (k := "libc:puts") ?_)).2 ?_
  · intro u l v hedge hm
    simp only [he, List.mem_cons, Prod.mk.injEq, List.not_mem_nil, or_false] at hedge
    rcases hedge with ⟨rfl, rfl, rfl⟩ | ⟨rfl, rfl, rfl⟩
    · rfl
    · exact absurd rfl hm
  · intro hx
    obtain ⟨l, hloop⟩ := hx
    simp [he] at hloop

/-- A call that can be made again and again, after an edge without a call. -/
def loopGraph : LibcCallgraph listGraaf :=
  .ofLists ["a", "b"] [("a", "control", "b"), ("b", "libc:puts", "b")]

theorem loopGraph_not_isQuotient :
    loopGraph.Inv ∧ (loopGraph.vertexIdMap "a").isSome ∧ (loopGraph.vertexIdMap "b").isSome ∧
      NoConflict loopGraph ("a", "b") ∧
      ¬IsQuotient loopGraph ("a", "b") (loopGraph.combineVertex "a" "b") := by
  have hI : loopGraph.Inv := LibcCallgraph.ofLists_inv _ _
  have hedges : loopGraph.edges = [("b", "libc:puts", "b"), ("a", "control", "b")] := by
    decide +kernel
  have he := hI.edge_of_edges hedges
  have hnone : (loopGraph.combineVertex "a" "b").edges = [] := by decide +kernel
  refine ⟨hI, by decide +kernel, by decide +kernel, noConflict_of_single (k := "libc:puts") ?_, ?_⟩
  · intro u l v hedge hm
    simp only [he, List.mem_cons, Prod.mk.injEq, List.not_mem_nil, or_false] at hedge
    rcases hedge with ⟨rfl, rfl, rfl⟩ | ⟨rfl, rfl, rfl⟩
    · rfl
    · exact absurd rfl hm
  · intro h
    have hloop : loopGraph.Edge "b" "libc:puts" "b" := (he _ _ _).2 List.mem_cons_self
    have hkept := h.loop (by decide) (.inl hloop)
    rw [← (hI.combineVertex "a" "b").mem_edges, hnone] at hkept
    cases hkept

end LibcSandbox
