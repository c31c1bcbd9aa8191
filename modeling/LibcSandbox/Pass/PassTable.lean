import LibcSandbox.MemGraph.Capacity
import LibcSandbox.Pass.Buffers

namespace LibcSandbox
open Library
set_option autoImplicit true

variable {G : Graaf} {g : LibcCallgraph G} {stringMap : String → Option Int}
  {hash : String → UInt64} {stack entries : Nat → Edge} {s : OutEdges}

/-- What the loops leave at an index of the arrays: every pass of the inner loop goes on behind the
pass before. -/
def arrayEntry (stringMap : String → Option Int) (hash : String → UInt64) (g : LibcCallgraph G)
    (stack : Nat → Edge) (k : Nat) : Edge :=
  match g.getVertices[k % g.getVertices.length]? with
  | some vertex => lastEdge stringMap hash g vertex (stack k)
  | none => stack k

/-- The node of pass `i` of the outer loop, which gets all that was written up to then. -/
def passNode (stringMap : String → Option Int) (hash : String → UInt64) (g : LibcCallgraph G)
    (stack : Nat → Edge) (i : Nat) (vertex : String) : Node :=
  ⟨hash vertex % modulus, (List.range ((i + 1) * g.getVertices.length)).map
    (arrayEntry stringMap hash g stack)⟩

def passTable (stringMap : String → Option Int) (hash : String → UInt64) (g : LibcCallgraph G)
    (stack : Nat → Edge) : List Node :=
  g.getVertices.mapIdx (passNode stringMap hash g stack)

/-- The arrays hold the entries below the counter, and the stack above. -/
structure FilledWith (entries stack : Nat → Edge) (s : OutEdges) : Prop where
  below : ∀ k, k < s.numOutEdges → s.edge k = entries k
  above : ∀ k, s.numOutEdges ≤ k → s.edge k = stack k

theorem FilledWith.fillVertices (h : g.Inv) (hs : FilledWith entries stack s)
    {vertices : List String}
    (hentries : ∀ j vertex, vertices[j]? = some vertex → entries (s.numOutEdges + j) =
      lastEdge stringMap hash g vertex (stack (s.numOutEdges + j)))
    (hlt : s.numOutEdges + vertices.length < maxNeighbors) :
    ∃ s', fillVertices stringMap hash g vertices s = .ok s' ∧
      s'.numOutEdges = s.numOutEdges + vertices.length ∧ FilledWith entries stack s' := by
  induction vertices generalizing s with
  | nil => exact ⟨s, rfl, rfl, hs⟩
  | cons vertex vertices ih =>
    rw [List.length_cons] at hlt
    obtain ⟨s₁, hs₁, hnum, hnew, hold⟩ := fillVertex_ok stringMap hash h vertex (s := s) (by omega)
    rw [hs.above _ (Nat.le_refl _)] at hnew
    have hfilled : FilledWith entries stack s₁ := by
      constructor
      · intro k hk
        rw [hnum] at hk
        by_cases he : k = s.numOutEdges
        · rw [he, hnew]
          exact (hentries 0 vertex rfl).symm
        · rw [hold k he, hs.below k (by omega)]
      · intro k hk
        rw [hnum] at hk
        rw [hold k (by omega), hs.above k (by omega)]
    have hrest : ∀ j v, vertices[j]? = some v → entries (s₁.numOutEdges + j) =
        lastEdge stringMap hash g v (stack (s₁.numOutEdges + j)) := by
      intro j v hv
      have hj := hentries (j + 1) v hv
      rwa [← Nat.add_assoc, Nat.add_right_comm, ← hnum] at hj
    obtain ⟨s', hs', hnum', hfilled'⟩ := ih hfilled hrest (by omega)
    refine ⟨s', ?_, ?_, hfilled'⟩
    · rw [LibcSandbox.fillVertices, hs₁]
      exact hs'
    · rw [hnum', hnum, List.length_cons]
      omega

theorem arrayEntry_pass (i : Nat) (hv : g.getVertices[j]? = some vertex) :
    arrayEntry stringMap hash g stack (i * g.getVertices.length + j) =
      lastEdge stringMap hash g vertex (stack (i * g.getVertices.length + j)) := by
  have hj := (List.getElem?_eq_some_iff.1 hv).1
  rw [arrayEntry, Nat.mul_add_mod_self_right, Nat.mod_eq_of_lt hj, hv]

theorem allocVertices_passTable (h : g.Inv) (vertices : List String) (i : Nat)
    (hs : FilledWith (arrayEntry stringMap hash g stack) stack s)
    (hnum : s.numOutEdges = i * g.getVertices.length)
    (hlt : s.numOutEdges + vertices.length * g.getVertices.length < maxNeighbors)
    (m : MemGraph) :
    allocVertices stringMap hash g vertices s m =
      allocNodes (vertices.mapIdx fun j => passNode stringMap hash g stack (i + j)) m := by
  induction vertices generalizing s i m with
  | nil => rfl
  | cons vertex vertices ih =>
    rw [List.length_cons, Nat.succ_mul] at hlt
    obtain ⟨s₁, hs₁, hnum₁, hfilled⟩ := hs.fillVertices h (fun j v hv => by
      rw [hnum]
      exact arrayEntry_pass i hv) (by omega)
    have hnext : s₁.numOutEdges = (i + 1) * g.getVertices.length := by
      rw [hnum₁, hnum, Nat.succ_mul]
    have hnode : (⟨hash vertex % modulus, (List.range s₁.numOutEdges).map s₁.edge⟩ : Node) =
        passNode stringMap hash g stack (i + 0) vertex := by
      rw [passNode, hnext, Nat.add_zero, Node.mk.injEq]
      refine ⟨rfl, List.map_congr_left fun k hk => ?_⟩
      exact hfilled.below k (hnext ▸ List.mem_range.1 hk)
    have hrest : (vertices.mapIdx fun j => passNode stringMap hash g stack (i + 1 + j)) =
        vertices.mapIdx fun j => passNode stringMap hash g stack (i + (j + 1)) := by
      simp only [Nat.add_comm 1, Nat.add_assoc]
    rw [List.mapIdx_cons, ← hnode, ← hrest, allocNodes]
    have halloc : allocNode (hash vertex % modulus) s₁.numOutEdges s₁.edgeList s₁.neighborList m =
        allocSpec ⟨hash vertex % modulus, (List.range s₁.numOutEdges).map s₁.edge⟩ m :=
      allocNode_eq ..
    simp only [allocVertices, hs₁, halloc]
    generalize allocSpec _ m = x
    obtain ⟨r, m₁⟩ := x
    cases r with
    | error => rfl
    | ok => exact ih (i + 1) hfilled hnext (by omega) m₁

theorem length_passTable : (passTable stringMap hash g stack).length = g.getVertices.length :=
  List.length_mapIdx

theorem getElem?_passTable (i : Nat) : (passTable stringMap hash g stack)[i]? =
    g.getVertices[i]?.map (passNode stringMap hash g stack i) :=
  List.getElem?_mapIdx

/-- What the pass builds is built by `alloc_node` from the table, which the pool has room for. -/
theorem buildGraph_passTable (stringMap : String → Option Int) (hash : String → UInt64)
    (h : g.Inv) (hn : g.getVertices.length * g.getVertices.length < maxNeighbors)
    (edgeList neighborList : Nat → UInt64) {ns : List Node}
    (hns : ns = passTable stringMap hash g fun k => ⟨neighborList k, edgeList k⟩) :
    ∃ p m, generateInMemoryGraph stringMap hash g edgeList neighborList MemGraph.initial =
        (.ok (some p), m) ∧
      nodeTableOffset + extent Node.size ns ≤ memoryPoolSize ∧
      ∃ m', buildGraph .user ns MemGraph.initial = (.ok (), m') ∧ m'.pool = some p := by
  have hempty : FilledWith (arrayEntry stringMap hash g fun k => ⟨neighborList k, edgeList k⟩)
      (fun k => ⟨neighborList k, edgeList k⟩) ⟨0, edgeList, neighborList⟩ :=
    ⟨fun k hk => absurd hk (Nat.not_lt_zero k), fun _ _ => rfl⟩
  have halloc (m : MemGraph) : allocVertices stringMap hash g g.getVertices
      ⟨0, edgeList, neighborList⟩ m = allocNodes ns m := by
    rw [allocVertices_passTable h g.getVertices 0 hempty (Nat.zero_mul _).symm
      (by rwa [Nat.zero_add])]
    simp only [Nat.zero_add, hns]
    rfl
  have hlength : ns.length = g.getVertices.length := hns ▸ length_passTable
  have hnode (n : Node) (hmem : n ∈ ns) : n.id.toNat < 1000 ∧ n.edges.length < 1000 := by
    obtain ⟨i, hi⟩ := List.mem_iff_getElem?.1 hmem
    rw [hns, getElem?_passTable, Option.map_eq_some_iff] at hi
    obtain ⟨v, hv, rfl⟩ := hi
    have hle : (i + 1) * g.getVertices.length ≤ g.getVertices.length * g.getVertices.length :=
      Nat.mul_le_mul_right _ (List.getElem?_eq_some_iff.1 hv).1
    refine ⟨?_, ?_⟩
    · rw [passNode, UInt64.toNat_mod]
      exact Nat.mod_lt _ (by decide)
    · rw [passNode, List.length_map, List.length_range]
      exact Nat.lt_of_le_of_lt hle hn
  have hsmall : ns.length ≤ 31 := by
    rw [hlength]
    by_contra hbig
    have hsq := Nat.mul_le_mul (Nat.lt_of_not_le hbig) (Nat.lt_of_not_le hbig)
    rw [maxNeighbors] at hn
    omega
  have hsize : extent Node.size ns ≤ ns.length * 24000 := by
    apply extent_le_mul
    intro n hmem
    have hl := (hnode n hmem).2
    rw [Node.size, sizeofRecord]
    omega
  have hfit : nodeTableOffset + extent Node.size ns ≤ memoryPoolSize := by
    rw [nodeTableOffset, memoryPoolSize]
    omega
  obtain ⟨m₁, hm₁, h₁⟩ := initializeGraph_empty .user (m := MemGraph.initial) rfl rfl
  obtain ⟨m₂, p₂, hm₂, h₂⟩ := h₁.allocNodes hfit
    (idsInRoom_of_lt fun n hmem => Nat.lt_of_lt_of_le (hnode n hmem).1 (by decide))
  obtain ⟨hm₃, -⟩ := h₂.finalizeGraph
  refine ⟨p₂.setGraphFinalized 1, destroyGraph { m₂ with pool := some (p₂.setGraphFinalized 1) },
    ?_, hfit, { m₂ with pool := some (p₂.setGraphFinalized 1) }, ?_, rfl⟩
  · simp only [generateInMemoryGraph, hm₁, halloc, hm₂, hm₃, getGraph]
  · simp only [buildGraph, hm₁, hm₂, hm₃]

theorem generateInMemoryGraph_buffer (stringMap : String → Option Int) (hash : String → UInt64)
    (h : g.Inv) (hn : g.getVertices.length * g.getVertices.length < maxNeighbors)
    (edgeList neighborList : Nat → UInt64) :
    ∃ (b : GraphBuffer) (m : MemGraph),
      generateInMemoryGraph stringMap hash g edgeList neighborList MemGraph.initial =
        (.ok (some b.data), m) ∧ b.size = memoryPoolSize ∧
      b.nodes = passTable stringMap hash g fun k => ⟨neighborList k, edgeList k⟩ := by
  obtain ⟨p, m, hm, hfit, m', hm', hp⟩ :=
    buildGraph_passTable stringMap hash h hn edgeList neighborList rfl
  exact ⟨⟨p, memoryPoolSize, _, hfit, Nat.le_refl _, m', p, hm', hp, .refl _ _ _⟩, m, hm, rfl, rfl⟩

end LibcSandbox
