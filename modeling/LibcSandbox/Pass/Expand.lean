import LibcSandbox.GraphLib.LibcCallgraph

namespace LibcSandbox
set_option autoImplicit true

variable {G : Graaf}

/-- The record of a function. The map from blocks to calls is listed in the order of its keys. -/
structure FuncBBGraphMeta (G : Graaf) where
  entryNode : String
  exitNode : String
  bbToLibcMap : List (String × List String)
  bbGraph : LibcCallgraph G
  bbExpandedGraph : LibcCallgraph G
  libcCallGraph : LibcCallgraph G

/-- The loop over the calls of a block. It ends with `prevVertex`, `vertexName` and the graph. -/
def expandCalls (bbName : String) :
    List String → Nat → String → String → LibcCallgraph G → String × String × LibcCallgraph G
  | [], _, prevVertex, vertexName, g => (prevVertex, vertexName, g)
  | libCall :: libCalls, counter, prevVertex, _, g =>
    let vertexName := bbName ++ (if foundAtStart libCall "user:" then "-user_" else "-libc_") ++
      toString counter
    let g := (g.addVertex vertexName false).2
    let g := g.addEdge prevVertex vertexName libCall
    expandCalls bbName libCalls (counter + 1) vertexName vertexName g

/-- The loop over the neighbours a block had. -/
def moveNeighbors (bbName prevVertex : String) (neighbors : List String) (g : LibcCallgraph G) :
    LibcCallgraph G :=
  neighbors.foldl
    (fun g vertex => (g.removeEdge bbName vertex).addEdge prevVertex vertex "control") g

def expandBlock (m : FuncBBGraphMeta G) (bbEntry : String × List String) :
    Option (FuncBBGraphMeta G) := do
  let neighbors ← m.bbExpandedGraph.getNeighbors bbEntry.1
  let (prevVertex, vertexName, g) :=
    expandCalls bbEntry.1 bbEntry.2 1 bbEntry.1 "" m.bbExpandedGraph
  return { m with
    exitNode := if m.exitNode = bbEntry.1 then vertexName else m.exitNode
    bbExpandedGraph := moveNeighbors bbEntry.1 prevVertex neighbors g }

/-- What is done for one function. -/
def expandBBGraph (m : FuncBBGraphMeta G) : Option (FuncBBGraphMeta G) :=
  m.bbToLibcMap.foldlM expandBlock { m with bbExpandedGraph := m.bbGraph }

theorem LibcCallgraph.Inv.expandCalls {g : LibcCallgraph G} (h : g.Inv) (bbName : String)
    (libCalls : List String) (counter : Nat) (prevVertex vertexName : String) :
    (expandCalls bbName libCalls counter prevVertex vertexName g).2.2.Inv := by
  induction libCalls generalizing g counter prevVertex vertexName with
  | nil => exact h
  | cons libCall libCalls ih =>
    rw [LibcSandbox.expandCalls]
    apply ih
    exact (h.addVertex _ _).addEdge _ _ _

theorem LibcCallgraph.Inv.moveNeighbors {g : LibcCallgraph G} (h : g.Inv)
    (bbName prevVertex : String) (neighbors : List String) :
    (moveNeighbors bbName prevVertex neighbors g).Inv := by
  induction neighbors generalizing g with
  | nil => exact h
  | cons vertex neighbors ih =>
    apply ih
    exact (h.removeEdge _ _).addEdge _ _ _

theorem expandBlock_some {m : FuncBBGraphMeta G} (h : m.bbExpandedGraph.Inv)
    (bbEntry : String × List String) :
    ∃ m', expandBlock m bbEntry = some m' ∧ m'.bbExpandedGraph.Inv ∧
      m'.entryNode = m.entryNode := by
  obtain ⟨-, hn, -⟩ := h.outgoing bbEntry.1
  rw [expandBlock, hn]
  refine ⟨_, rfl, ?_, rfl⟩
  apply LibcCallgraph.Inv.moveNeighbors
  exact h.expandCalls _ _ _ _ _

theorem expandBlocks_some {m : FuncBBGraphMeta G} (h : m.bbExpandedGraph.Inv)
    (bbEntries : List (String × List String)) :
    ∃ m', bbEntries.foldlM expandBlock m = some m' ∧ m'.bbExpandedGraph.Inv ∧
      m'.entryNode = m.entryNode := by
  induction bbEntries generalizing m with
  | nil => exact ⟨m, rfl, h, rfl⟩
  | cons bbEntry bbEntries ih =>
    obtain ⟨m₁, h₁, hI₁, he₁⟩ := expandBlock_some h bbEntry
    obtain ⟨m₂, h₂, hI₂, he₂⟩ := ih hI₁
    rw [List.foldlM_cons, h₁]
    exact ⟨m₂, h₂, hI₂, he₂.trans he₁⟩

theorem expandBBGraph_some {m : FuncBBGraphMeta G} (h : m.bbGraph.Inv) :
    ∃ m', expandBBGraph m = some m' ∧ m'.bbExpandedGraph.Inv ∧ m'.entryNode = m.entryNode :=
  expandBlocks_some (m := { m with bbExpandedGraph := m.bbGraph }) h m.bbToLibcMap

end LibcSandbox
