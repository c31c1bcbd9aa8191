import LibcSandbox.GraphLib.Combine
import LibcSandbox.GraphLib.Edges

namespace LibcSandbox
set_option autoImplicit true

variable {G : Graaf} {g other : LibcCallgraph G}

/-- The bodies of the two loops of `insert_graph`. Nothing comes out where a lookup throws. -/
def insertVertex (other g : LibcCallgraph G) (vertex : Nat × String) :
    Option (LibcCallgraph G) := do
  let hasFuncCall ← other.funcCallMap vertex.2
  return (g.addVertex vertex.2 hasFuncCall).2

def insertEdge (other g : LibcCallgraph G) (edge : (Nat × Nat) × String) :
    Option (LibcCallgraph G) := do
  let vertexLhs ← G.getVertex other.graph edge.1.1
  let vertexRhs ← G.getVertex other.graph edge.1.2
  return g.addEdge vertexLhs vertexRhs edge.2

def LibcCallgraph.insertGraph (g other : LibcCallgraph G) (_entry _exit : String) :
    Option (LibcCallgraph G) := do
  let g ← (G.getVertices other.graph).foldlM (insertVertex other) g
  (G.getEdges other.graph).foldlM (insertEdge other) g

/-- What `insert_graph` makes of a graph: it keeps its own labels, and takes those of the other
graph where it has none. -/
structure Inserted (g other g' : LibcCallgraph G) : Prop where
  inv : g'.Inv
  vertices : ∀ v, (g'.vertexIdMap v).isSome ↔
    (g.vertexIdMap v).isSome ∨ (other.vertexIdMap v).isSome
  labels : ∀ s t, g'.label s t = (g.label s t).or (other.label s t)

theorem Inserted.edge_of_edge (h : Inserted g other g') (he : g.Edge s l t) : g'.Edge s l t := by
  rw [← LibcCallgraph.label_eq_some_iff] at he
  rw [← LibcCallgraph.label_eq_some_iff, h.labels, he, Option.some_or]

theorem insertVertices_some (h : g.Inv) (other : LibcCallgraph G) (vertices : List (Nat × String))
    (hcalls : ∀ v ∈ vertices, (other.funcCallMap v.2).isSome) :
    ∃ g', vertices.foldlM (insertVertex other) g = some g' ∧ g'.Inv ∧
      (∀ v, (g'.vertexIdMap v).isSome ↔ (g.vertexIdMap v).isSome ∨ v ∈ vertices.map Prod.snd) ∧
      ∀ s t, g'.label s t = g.label s t := by
  induction vertices generalizing g with
  | nil => exact ⟨g, rfl, h, fun v => by simp, fun _ _ => rfl⟩
  | cons vertex vertices ih =>
    rw [List.forall_mem_cons] at hcalls
    obtain ⟨hasFuncCall, hcall⟩ := Option.isSome_iff_exists.1 hcalls.1
    obtain ⟨g', hg', hInv, hvertices, hlabels⟩ := ih (h.addVertex vertex.2 hasFuncCall) hcalls.2
    refine ⟨g', ?_, hInv, ?_, ?_⟩
    · rw [List.foldlM_cons, insertVertex, hcall]
      exact hg'
    · intro v
      rw [hvertices, LibcCallgraph.vertexIdMap_addVertex, List.map_cons, List.mem_cons]
      exact or_assoc.trans or_left_comm
    · intro s t
      rw [hlabels, h.label_addVertex]

theorem insertEdges_eq (h : other.Inv) (edges : List ((Nat × Nat) × String))
    (hedges : ∀ e ∈ edges, G.getEdge other.graph e.1.1 e.1.2 = some e.2) (g : LibcCallgraph G) :
    ∃ named : List ((String × String) × String),
      edges.foldlM (insertEdge other) g =
        some (named.foldl (fun g e => g.addEdge e.1.1 e.1.2 e.2) g) ∧
      ∀ s t l, ((s, t), l) ∈ named ↔ ∃ i j, ((i, j), l) ∈ edges ∧
        other.vertexIdMap s = some i ∧ other.vertexIdMap t = some j := by
  induction edges generalizing g with
  | nil => exact ⟨[], rfl, by simp⟩
  | cons edge edges ih =>
    obtain ⟨⟨i, j⟩, l⟩ := edge
    rw [List.forall_mem_cons] at hedges
    obtain ⟨hi, hj⟩ := h.ends _ _ _ hedges.1
    obtain ⟨s, hs⟩ := Option.isSome_iff_exists.1 hi
    obtain ⟨t, ht⟩ := Option.isSome_iff_exists.1 hj
    obtain ⟨named, heq, hmem⟩ := ih hedges.2 (g.addEdge s t l)
    refine ⟨((s, t), l) :: named, ?_, ?_⟩
    · have hfirst : insertEdge other g ((i, j), l) = some (g.addEdge s t l) := by
        rw [insertEdge, hs, ht]
        rfl
      rw [List.foldlM_cons, hfirst]
      exact heq
    · intro s' t' l'
      rw [List.mem_cons, hmem]
      apply Iff.intro
      · intro hx
        rcases hx with hx | ⟨i', j', he, hs', ht'⟩
        · cases hx
          exact ⟨i, j, List.mem_cons_self, (h.names s i).2 hs, (h.names t j).2 ht⟩
        · exact ⟨i', j', List.mem_cons_of_mem _ he, hs', ht'⟩
      · intro hx
        obtain ⟨i', j', he, hs', ht'⟩ := hx
        rcases List.mem_cons.1 he with he | he
        · cases he
          rw [h.names, hs] at hs'
          rw [h.names, ht] at ht'
          cases hs'
          cases ht'
          exact .inl rfl
        · exact .inr ⟨i', j', he, hs', ht'⟩

theorem LibcCallgraph.Inv.label_foldl_addEdge (h : g.Inv)
    (named : List ((String × String) × String))
    (hends : ∀ e ∈ named, (g.vertexIdMap e.1.1).isSome ∧ (g.vertexIdMap e.1.2).isSome) :
    let g' := named.foldl (fun g e => g.addEdge e.1.1 e.1.2 e.2) g
    g'.Inv ∧ g'.vertexIdMap = g.vertexIdMap ∧
      ∀ s t, g'.label s t = (g.label s t).or (named.lookup (s, t)) := by
  induction named generalizing g with
  | nil => exact ⟨h, rfl, fun s t => Option.or_none.symm⟩
  | cons e named ih =>
    obtain ⟨⟨u, v⟩, l⟩ := e
    rw [List.forall_mem_cons] at hends
    have hmap := g.vertexIdMap_addEdge u v l
    obtain ⟨hInv, hmap', hlabels⟩ := ih (h.addEdge u v l) (by rw [hmap]; exact hends.2)
    refine ⟨hInv, hmap'.trans hmap, fun s t => ?_⟩
    rw [List.foldl_cons, hlabels, h.label_addEdge hends.1.1 hends.1.2, List.lookup_cons]
    by_cases hst : s = u ∧ t = v
    · obtain ⟨rfl, rfl⟩ := hst
      rw [if_pos ⟨rfl, rfl⟩, BEq.rfl, Option.some_or]
      cases g.label s t <;> rfl
    · have hne : ((s, t) == (u, v)) = false := by
        rw [beq_eq_false_iff_ne, ne_eq, Prod.mk.injEq]
        exact hst
      rw [if_neg hst, hne]

theorem LibcCallgraph.Inv.insertGraph (h : g.Inv) (h' : other.Inv) (entry exit : String) :
    ∃ g', g.insertGraph other entry exit = some g' ∧ Inserted g other g' := by
  have hnames (v : String) :
      v ∈ (G.getVertices other.graph).map Prod.snd ↔ (other.vertexIdMap v).isSome := by
    rw [← LibcCallgraph.mem_getVertices h', LibcCallgraph.getVertices, List.mem_reverse]
  obtain ⟨g₁, h₁, hInv₁, hvertices, hlabels₁⟩ := insertVertices_some h other
    (G.getVertices other.graph) (fun v hv => by
      rw [h'.calls, ← hnames]
      exact List.mem_map_of_mem hv)
  obtain ⟨named, heq, hmem⟩ := insertEdges_eq h' (G.getEdges other.graph)
    (fun e he => (G.mem_getEdges _ _ _ _).1 he) g₁
  have hnamed (s t l : String) : ((s, t), l) ∈ named ↔ other.label s t = some l := by
    rw [hmem, LibcCallgraph.label_eq_some_iff]
    apply Iff.intro
    · intro hx
      obtain ⟨i, j, he, hs, ht⟩ := hx
      exact ⟨i, j, hs, ht, (G.mem_getEdges _ _ _ _).1 he⟩
    · intro hx
      obtain ⟨i, j, hs, ht, he⟩ := hx
      exact ⟨i, j, (G.mem_getEdges _ _ _ _).2 he, hs, ht⟩
  obtain ⟨hInv, hmap, hlabels⟩ := hInv₁.label_foldl_addEdge named fun e he => by
    obtain ⟨⟨s, t⟩, l⟩ := e
    have hedge := LibcCallgraph.label_eq_some_iff.1 ((hnamed s t l).1 he)
    rw [hvertices, hvertices, hnames, hnames]
    exact ⟨.inr hedge.isSome.1, .inr hedge.isSome.2⟩
  refine ⟨_, ?_, hInv, ?_, ?_⟩
  · rw [LibcCallgraph.insertGraph, h₁]
    exact heq
  · intro v
    rw [hmap, hvertices, hnames]
  · intro s t
    rw [hlabels, hlabels₁, lookup_eq_of_mem_iff (hnamed s t)]

end LibcSandbox
