import Mathlib.Data.List.Nodup

namespace LibcSandbox
set_option autoImplicit true

/-- The operations of `graaf::directed_graph<std::string, std::string>` that are used, with what
is relied on. The order in which vertices, edges and neighbours are listed is left open. -/
structure Graaf where
  Graph : Type
  empty : Graph
  addVertex : Graph → String → Nat × Graph
  addEdge : Graph → Nat → Nat → String → Graph
  removeEdge : Graph → Nat → Nat → Graph
  removeVertex : Graph → Nat → Graph
  getVertex : Graph → Nat → Option String
  getEdge : Graph → Nat → Nat → Option String
  getVertices : Graph → List (Nat × String)
  getEdges : Graph → List ((Nat × Nat) × String)
  getNeighbors : Graph → Nat → List Nat
  getVertex_empty : ∀ i, getVertex empty i = none
  getEdge_empty : ∀ i j, getEdge empty i j = none
  addVertex_fresh : ∀ g s, getVertex g (addVertex g s).1 = none
  getVertex_addVertex : ∀ g s i,
    getVertex (addVertex g s).2 i = if i = (addVertex g s).1 then some s else getVertex g i
  getEdge_addVertex : ∀ g s i j, getEdge (addVertex g s).2 i j = getEdge g i j
  getVertex_addEdge : ∀ g i j l k, getVertex (addEdge g i j l) k = getVertex g k
  /-- Where there is an edge already, its label stays. -/
  getEdge_addEdge : ∀ g i j l, (getVertex g i).isSome → (getVertex g j).isSome → ∀ a b,
    getEdge (addEdge g i j l) a b =
      if a = i ∧ b = j then some ((getEdge g i j).getD l) else getEdge g a b
  getVertex_removeEdge : ∀ g i j k, getVertex (removeEdge g i j) k = getVertex g k
  getEdge_removeEdge : ∀ g i j a b,
    getEdge (removeEdge g i j) a b = if a = i ∧ b = j then none else getEdge g a b
  getVertex_removeVertex : ∀ g i k,
    getVertex (removeVertex g i) k = if k = i then none else getVertex g k
  /-- The edges of a removed vertex go with it. -/
  getEdge_removeVertex : ∀ g i a b,
    getEdge (removeVertex g i) a b = if a = i ∨ b = i then none else getEdge g a b
  mem_getVertices : ∀ g i s, (i, s) ∈ getVertices g ↔ getVertex g i = some s
  nodup_getVertices : ∀ g, (getVertices g).Nodup
  mem_getEdges : ∀ g i j l, ((i, j), l) ∈ getEdges g ↔ getEdge g i j = some l
  mem_getNeighbors : ∀ g i j, j ∈ getNeighbors g i ↔ (getEdge g i j).isSome
  nodup_getNeighbors : ∀ g i, (getNeighbors g i).Nodup

/-- Every edge joins vertices that are there. -/
def Graaf.Ends (G : Graaf) (g : G.Graph) : Prop :=
  ∀ i j l, G.getEdge g i j = some l → (G.getVertex g i).isSome ∧ (G.getVertex g j).isSome

variable {G : Graaf} {g : G.Graph}

theorem Graaf.Ends.empty : G.Ends G.empty := by
  intro i j l h
  rw [G.getEdge_empty] at h
  cases h

theorem Graaf.Ends.addVertex (h : G.Ends g) (s : String) : G.Ends (G.addVertex g s).2 := by
  intro i j l he
  rw [G.getEdge_addVertex] at he
  obtain ⟨hi, hj⟩ := h i j l he
  rw [G.getVertex_addVertex, G.getVertex_addVertex]
  constructor
  · split
    · rfl
    · exact hi
  · split
    · rfl
    · exact hj

theorem Graaf.Ends.addEdge (h : G.Ends g) (hi : (G.getVertex g i).isSome)
    (hj : (G.getVertex g j).isSome) (l : String) : G.Ends (G.addEdge g i j l) := by
  intro a b l' he
  rw [G.getVertex_addEdge, G.getVertex_addEdge]
  rw [G.getEdge_addEdge g i j l hi hj] at he
  split at he
  next hab =>
    rw [hab.1, hab.2]
    exact ⟨hi, hj⟩
  next => exact h a b l' he

theorem Graaf.Ends.removeEdge (h : G.Ends g) (i j : Nat) : G.Ends (G.removeEdge g i j) := by
  intro a b l he
  rw [G.getVertex_removeEdge, G.getVertex_removeEdge]
  rw [G.getEdge_removeEdge] at he
  split at he
  next => cases he
  next => exact h a b l he

theorem Graaf.Ends.removeVertex (h : G.Ends g) (i : Nat) : G.Ends (G.removeVertex g i) := by
  intro a b l he
  rw [G.getEdge_removeVertex] at he
  split at he
  next => cases he
  next hne =>
    rw [not_or] at hne
    rw [G.getVertex_removeVertex, G.getVertex_removeVertex, if_neg hne.1, if_neg hne.2]
    exact h a b l he

theorem lookup_eq_some_iff_mem [BEq α] [LawfulBEq α] {l : List (α × β)}
    (h : (l.map Prod.fst).Nodup) : l.lookup a = some b ↔ (a, b) ∈ l := by
  induction l with
  | nil => simp only [List.lookup_nil, reduceCtorEq, List.not_mem_nil]
  | cons x l ih =>
    obtain ⟨c, d⟩ := x
    rw [List.map_cons, List.nodup_cons] at h
    rw [List.lookup_cons, List.mem_cons]
    by_cases hc : a = c
    · subst hc
      have hno : (a, b) ∉ l := fun hm => h.1 (List.mem_map.2 ⟨_, hm, rfl⟩)
      simp only [BEq.rfl, Option.some.injEq, Prod.mk.injEq, true_and, hno, or_false]
      exact eq_comm
    · have hb : (a == c) = false := beq_false_of_ne hc
      simp only [hb, ih h.2, Prod.mk.injEq, hc, false_and, false_or]

theorem mem_of_lookup [BEq α] [LawfulBEq α] {l : List (α × β)} (h : l.lookup a = some b) :
    (a, b) ∈ l := by
  obtain ⟨before, after, rfl, -⟩ := List.lookup_eq_some_iff.1 h
  exact List.mem_append_right _ List.mem_cons_self

/-- A graph as two association lists, newest entries first. -/
structure ListGraph where
  vertices : List (Nat × String)
  edges : List ((Nat × Nat) × String)
  next : Nat
  fresh : ∀ v ∈ vertices, v.1 < next
  nodupVertices : (vertices.map Prod.fst).Nodup
  nodupEdges : (edges.map Prod.fst).Nodup
  ends : ∀ e ∈ edges, e.1.1 ∈ vertices.map Prod.fst ∧ e.1.2 ∈ vertices.map Prod.fst

def ListGraph.empty : ListGraph :=
  ⟨[], [], 0, by simp, by simp, by simp, by simp⟩

def ListGraph.addVertex (g : ListGraph) (s : String) : Nat × ListGraph :=
  (g.next, {
    vertices := (g.next, s) :: g.vertices
    edges := g.edges
    next := g.next + 1
    fresh := by
      intro v hv
      rcases List.mem_cons.1 hv with rfl | hv
      · exact Nat.lt_add_one _
      · exact Nat.lt_succ_of_lt (g.fresh v hv)
    nodupVertices := by
      rw [List.map_cons, List.nodup_cons]
      refine ⟨fun hm => ?_, g.nodupVertices⟩
      obtain ⟨v, hv, he⟩ := List.mem_map.1 hm
      have hlt := g.fresh v hv
      omega
    nodupEdges := g.nodupEdges
    ends := fun e he => by
      rw [List.map_cons]
      exact ⟨List.mem_cons_of_mem _ (g.ends e he).1, List.mem_cons_of_mem _ (g.ends e he).2⟩ })

def ListGraph.addEdge (g : ListGraph) (i j : Nat) (l : String) : ListGraph :=
  if h : (i ∈ g.vertices.map Prod.fst ∧ j ∈ g.vertices.map Prod.fst) ∧
      (i, j) ∉ g.edges.map Prod.fst then
    { g with
      edges := ((i, j), l) :: g.edges
      nodupEdges := by
        rw [List.map_cons, List.nodup_cons]
        exact ⟨h.2, g.nodupEdges⟩
      ends := fun e he => by
        rcases List.mem_cons.1 he with rfl | he
        · exact h.1
        · exact g.ends e he }
  else g

def ListGraph.removeEdge (g : ListGraph) (i j : Nat) : ListGraph :=
  { g with
    edges := g.edges.filter fun e => e.1 ≠ (i, j)
    nodupEdges := g.nodupEdges.sublist (List.filter_sublist.map _)
    ends := fun e he => g.ends e (List.mem_of_mem_filter he) }

def ListGraph.removeVertex (g : ListGraph) (i : Nat) : ListGraph where
  vertices := g.vertices.filter fun v => v.1 ≠ i
  edges := g.edges.filter fun e => e.1.1 ≠ i ∧ e.1.2 ≠ i
  next := g.next
  fresh := fun v hv => g.fresh v (List.mem_of_mem_filter hv)
  nodupVertices := g.nodupVertices.sublist (List.filter_sublist.map _)
  nodupEdges := g.nodupEdges.sublist (List.filter_sublist.map _)
  ends := by
    intro e he
    obtain ⟨he, hne⟩ := List.mem_filter.1 he
    have hne := of_decide_eq_true hne
    obtain ⟨h₁, h₂⟩ := g.ends e he
    obtain ⟨v, hv, hv'⟩ := List.mem_map.1 h₁
    obtain ⟨w, hw, hw'⟩ := List.mem_map.1 h₂
    have hvi : v.1 ≠ i := by rw [hv']; exact hne.1
    have hwi : w.1 ≠ i := by rw [hw']; exact hne.2
    exact ⟨List.mem_map.2 ⟨v, List.mem_filter.2 ⟨hv, decide_eq_true hvi⟩, hv'⟩,
      List.mem_map.2 ⟨w, List.mem_filter.2 ⟨hw, decide_eq_true hwi⟩, hw'⟩⟩

theorem ListGraph.vertex_iff (g : ListGraph) : g.vertices.lookup i = some s ↔ (i, s) ∈ g.vertices :=
  lookup_eq_some_iff_mem g.nodupVertices

theorem ListGraph.edge_iff (g : ListGraph) : g.edges.lookup x = some l ↔ (x, l) ∈ g.edges :=
  lookup_eq_some_iff_mem g.nodupEdges

theorem ListGraph.vertex_isSome (g : ListGraph) :
    (g.vertices.lookup i).isSome ↔ i ∈ g.vertices.map Prod.fst := by
  rw [Option.isSome_iff_exists, List.mem_map]
  simp only [g.vertex_iff, Prod.exists, exists_and_right, exists_eq_right]

theorem ListGraph.edge_isSome (g : ListGraph) :
    (g.edges.lookup x).isSome ↔ x ∈ g.edges.map Prod.fst := by
  rw [Option.isSome_iff_exists, List.mem_map]
  simp only [g.edge_iff, Prod.exists, exists_and_right, exists_eq_right]

theorem ListGraph.lookup_addVertex (g : ListGraph) (s : String) (i : Nat) :
    (g.addVertex s).2.vertices.lookup i =
      if i = (g.addVertex s).1 then some s else g.vertices.lookup i := by
  simp only [ListGraph.addVertex, List.lookup_cons]
  by_cases hi : i = g.next
  · simp only [hi, BEq.rfl, ↓reduceIte]
  · simp only [hi, beq_false_of_ne hi, ↓reduceIte]

theorem ListGraph.vertices_addEdge (g : ListGraph) (i j : Nat) (l : String) :
    (g.addEdge i j l).vertices = g.vertices := by
  rw [ListGraph.addEdge]
  split <;> rfl

theorem ListGraph.lookup_addEdge (g : ListGraph) (i j : Nat) (l : String)
    (hi : (g.vertices.lookup i).isSome) (hj : (g.vertices.lookup j).isSome) (a b : Nat) :
    (g.addEdge i j l).edges.lookup (a, b) =
      if a = i ∧ b = j then some ((g.edges.lookup (i, j)).getD l) else g.edges.lookup (a, b) := by
  rw [g.vertex_isSome] at hi hj
  by_cases he : (i, j) ∈ g.edges.map Prod.fst
  · have hg : g.addEdge i j l = g := dif_neg fun h => h.2 he
    rw [hg]
    split
    next hab =>
      obtain ⟨m, hm⟩ := Option.isSome_iff_exists.1 (g.edge_isSome.2 he)
      rw [hab.1, hab.2, hm, Option.getD_some]
    next => rfl
  · have hg : (g.addEdge i j l).edges = ((i, j), l) :: g.edges := by
      rw [ListGraph.addEdge, dif_pos ⟨⟨hi, hj⟩, he⟩]
    have hn : g.edges.lookup (i, j) = none := by
      rwa [← Option.not_isSome_iff_eq_none, g.edge_isSome]
    rw [hg, List.lookup_cons, hn, Option.getD_none]
    by_cases hab : a = i ∧ b = j
    · simp only [hab, BEq.rfl, and_self, ↓reduceIte]
    · have hb : ((a, b) == (i, j)) = false := by
        rw [beq_eq_false_iff_ne, ne_eq, Prod.mk.injEq]
        exact hab
      simp only [hb, hab, ↓reduceIte]

theorem lookup_filter [BEq α] [LawfulBEq α] (l : List (α × β)) (keep : α → Bool) (a : α) :
    (l.filter fun x => keep x.1).lookup a = if keep a then l.lookup a else none := by
  induction l with
  | nil => simp only [List.filter_nil, List.lookup_nil, ite_self]
  | cons x l ih =>
    obtain ⟨c, d⟩ := x
    rw [List.filter_cons, List.lookup_cons]
    by_cases hc : a = c
    · subst hc
      cases hk : keep a with
      | true => simp only [↓reduceIte, List.lookup_cons, BEq.rfl]
      | false => simp only [hk, Bool.false_eq_true, ↓reduceIte, ih]
    · have hb : (a == c) = false := beq_false_of_ne hc
      cases hk : keep c with
      | true => simp only [↓reduceIte, List.lookup_cons, hb, ih]
      | false => simp only [Bool.false_eq_true, ↓reduceIte, hb, ih]

def listGraaf : Graaf where
  Graph := ListGraph
  empty := .empty
  addVertex := ListGraph.addVertex
  addEdge := ListGraph.addEdge
  removeEdge := ListGraph.removeEdge
  removeVertex := ListGraph.removeVertex
  getVertex := fun g i => g.vertices.lookup i
  getEdge := fun g i j => g.edges.lookup (i, j)
  getVertices := ListGraph.vertices
  getEdges := ListGraph.edges
  getNeighbors := fun g i => (g.edges.filter fun e => e.1.1 = i).map fun e => e.1.2
  getVertex_empty := fun _ => rfl
  getEdge_empty := fun _ _ => rfl
  addVertex_fresh := by
    intro g s
    rw [← Option.not_isSome_iff_eq_none, g.vertex_isSome, List.mem_map]
    intro h
    obtain ⟨v, hv, he⟩ := h
    exact Nat.lt_irrefl _ (he ▸ g.fresh v hv)
  getVertex_addVertex := ListGraph.lookup_addVertex
  getEdge_addVertex := fun _ _ _ _ => rfl
  getVertex_addEdge := fun g i j l k => by rw [g.vertices_addEdge]
  getEdge_addEdge := ListGraph.lookup_addEdge
  getVertex_removeEdge := fun _ _ _ _ => rfl
  getEdge_removeEdge := by
    intro g i j a b
    have h := lookup_filter g.edges (fun x => decide (x ≠ (i, j))) (a, b)
    exact h.trans (by by_cases hab : a = i ∧ b = j <;> simp [hab])
  getVertex_removeVertex := by
    intro g i k
    have h := lookup_filter g.vertices (fun x => decide (x ≠ i)) k
    exact h.trans (by by_cases hk : k = i <;> simp [hk])
  getEdge_removeVertex := by
    intro g i a b
    have h := lookup_filter g.edges (fun x => decide (x.1 ≠ i ∧ x.2 ≠ i)) (a, b)
    exact h.trans (by by_cases ha : a = i <;> by_cases hb : b = i <;> simp [ha, hb])
  mem_getVertices := fun g i s => g.vertex_iff.symm
  nodup_getVertices := fun g => List.Nodup.of_map Prod.fst g.nodupVertices
  mem_getEdges := fun g i j l => g.edge_iff.symm
  mem_getNeighbors := by
    intro g i j
    simp only [g.edge_isSome, List.mem_map, List.mem_filter, decide_eq_true_eq, Prod.exists,
      exists_and_right, exists_eq_right]
  nodup_getNeighbors := by
    intro g i
    have hn : (g.edges.filter fun e => e.1.1 = i).Nodup :=
      (List.Nodup.of_map Prod.fst g.nodupEdges).filter _
    apply hn.map_on
    intro x hx y hy hxy
    obtain ⟨hx, hxi⟩ := List.mem_filter.1 hx
    obtain ⟨hy, hyi⟩ := List.mem_filter.1 hy
    refine List.inj_on_of_nodup_map g.nodupEdges hx hy (Prod.ext ?_ hxy)
    exact (of_decide_eq_true hxi).trans (of_decide_eq_true hyi).symm

end LibcSandbox
