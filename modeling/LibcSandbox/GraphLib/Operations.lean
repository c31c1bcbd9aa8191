import LibcSandbox.GraphLib.Insert
import LibcSandbox.Library.Path

namespace LibcSandbox
open Library
set_option autoImplicit true

variable {G : Graaf} {g : LibcCallgraph G}

/-- The calls that change a graph. -/
inductive GraphCall (G : Graaf)
  | addVertex (vertex : String) (hasFuncCall : Bool)
  | addEdge (vertexLhs vertexRhs edge : String)
  | removeEdge (vertexLhs vertexRhs : String)
  | removeVertex (vertex : String)
  | combineVertex (vertexLhs vertexRhs : String)
  | insertGraph (other : LibcCallgraph G) (h : other.Inv) (entry exit : String)

def LibcCallgraph.call (g : LibcCallgraph G) : GraphCall G → Option (LibcCallgraph G)
  | .addVertex vertex hasFuncCall => some (g.addVertex vertex hasFuncCall).2
  | .addEdge vertexLhs vertexRhs edge => some (g.addEdge vertexLhs vertexRhs edge)
  | .removeEdge vertexLhs vertexRhs => some (g.removeEdge vertexLhs vertexRhs)
  | .removeVertex vertex => some (g.removeVertex vertex)
  | .combineVertex vertexLhs vertexRhs => some (g.combineVertex vertexLhs vertexRhs)
  | .insertGraph other _ entry exit => g.insertGraph other entry exit

theorem LibcCallgraph.Inv.call (h : g.Inv) (c : GraphCall G) :
    ∃ g', g.call c = some g' ∧ g'.Inv := by
  cases c with
  | addVertex vertex hasFuncCall => exact ⟨_, rfl, h.addVertex vertex hasFuncCall⟩
  | addEdge vertexLhs vertexRhs edge => exact ⟨_, rfl, h.addEdge vertexLhs vertexRhs edge⟩
  | removeEdge vertexLhs vertexRhs => exact ⟨_, rfl, h.removeEdge vertexLhs vertexRhs⟩
  | removeVertex vertex => exact ⟨_, rfl, h.removeVertex vertex⟩
  | combineVertex vertexLhs vertexRhs => exact ⟨_, rfl, h.combineVertex vertexLhs vertexRhs⟩
  | insertGraph other h' entry exit =>
    obtain ⟨g', hg', hins⟩ := h.insertGraph h' entry exit
    exact ⟨g', hg', hins.inv⟩

theorem LibcCallgraph.Inv.calls_some (h : g.Inv) (cs : List (GraphCall G)) :
    ∃ g', run LibcCallgraph.call g cs = some g' ∧ g'.Inv := by
  induction cs generalizing g with
  | nil => exact ⟨g, rfl, h⟩
  | cons c cs ih =>
    obtain ⟨g₁, h₁, hI₁⟩ := h.call c
    obtain ⟨g₂, h₂, hI₂⟩ := ih hI₁
    refine ⟨g₂, ?_, hI₂⟩
    rw [run, h₁, Option.bind_some, h₂]

/-- The two maps and the graph tell the same, and nothing is looked up in vain. -/
structure LibcCallgraph.Consistent (g : LibcCallgraph G) : Prop where
  names : ∀ s i, g.vertexIdMap s = some i ↔ G.getVertex g.graph i = some s
  bijection : ∀ i, (G.getVertex g.graph i).isSome → ∃! s, g.vertexIdMap s = some i
  keys : ∀ s, (g.funcCallMap s).isSome ↔ (g.vertexIdMap s).isSome
  ends : ∀ i j l, G.getEdge g.graph i j = some l →
    ∃ s t, g.vertexIdMap s = some i ∧ g.vertexIdMap t = some j
  vertices : g.getVertices.Nodup ∧ ∀ s, s ∈ g.getVertices ↔ (g.vertexIdMap s).isSome
  queries : ∀ s, (g.getOutgoingEdges s).isSome ∧ (g.getNeighbors s).isSome ∧
    (g.getControlEdgeNeighbors s).isSome ∧ (g.getUserEdgeNeighbors s).isSome
  inserts : ∀ other : LibcCallgraph G, other.Inv → ∀ entry exit,
    (g.insertGraph other entry exit).isSome ∧ (other.insertGraph g entry exit).isSome

theorem LibcCallgraph.Inv.consistent (h : g.Inv) : g.Consistent where
  names := h.names
  bijection := by
    intro i hi
    obtain ⟨s, hs⟩ := Option.isSome_iff_exists.1 hi
    have hid := (h.names s i).2 hs
    exact ⟨s, hid, fun t ht => h.name_eq ht hid⟩
  keys := fun s => by rw [h.calls]
  ends := by
    intro i j l he
    obtain ⟨hi, hj⟩ := h.ends i j l he
    obtain ⟨s, hs⟩ := Option.isSome_iff_exists.1 hi
    obtain ⟨t, ht⟩ := Option.isSome_iff_exists.1 hj
    exact ⟨s, t, (h.names s i).2 hs, (h.names t j).2 ht⟩
  vertices := ⟨nodup_getVertices h, fun _ => mem_getVertices h⟩
  queries := by
    intro s
    obtain ⟨hout, hneighbors, -⟩ := h.outgoing s
    obtain ⟨ts, hcontrol, -⟩ := h.getEdgeNeighbors isControl s
    obtain ⟨us, huser, -⟩ := h.getEdgeNeighbors isUser s
    rw [hout, hneighbors]
    exact ⟨rfl, rfl, Option.isSome_of_eq_some hcontrol, Option.isSome_of_eq_some huser⟩
  inserts := by
    intro other h' entry exit
    obtain ⟨g₁, h₁, -⟩ := h.insertGraph h' entry exit
    obtain ⟨g₂, h₂, -⟩ := h'.insertGraph h entry exit
    exact ⟨Option.isSome_of_eq_some h₁, Option.isSome_of_eq_some h₂⟩

/-- Whatever calls are made, with whatever arguments, the graph stays consistent. -/
theorem graphCalls_consistent (cs : List (GraphCall G)) :
    ∃ g, run LibcCallgraph.call .empty cs = some g ∧ g.Consistent := by
  obtain ⟨g, hg, hI⟩ := LibcCallgraph.Inv.empty.calls_some cs
  exact ⟨g, hg, hI.consistent⟩

end LibcSandbox
