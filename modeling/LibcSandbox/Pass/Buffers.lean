import LibcSandbox.Pass.InMemory

namespace LibcSandbox
open Library
set_option autoImplicit true

variable {G : Graaf} {g : LibcCallgraph G} {stringMap : String → Option Int}
  {hash : String → UInt64} {stack : Nat → LibcSandbox.Edge} {s : OutEdges}

/-- The indices of `edgeList` and `neighborList` that one vertex writes to. -/
def writtenAt (g : LibcCallgraph G) (vertex : String) (s : OutEdges) : List Nat :=
  let edges := (g.getOutgoingEdges vertex).getD []
  let neighbors := (g.getNeighbors vertex).getD []
  edges.map (fun _ => s.numOutEdges) ++ neighbors.map fun _ => s.numOutEdges

/-- Those of a pass of the inner loop, which ends early where the assertion fails. -/
def writtenInPass (stringMap : String → Option Int) (hash : String → UInt64) (g : LibcCallgraph G) :
    List String → OutEdges → List Nat
  | [], _ => []
  | vertex :: vertices, s =>
    writtenAt g vertex s ++
      match fillVertex stringMap hash g vertex s with
      | .error _ => []
      | .ok s => writtenInPass stringMap hash g vertices s

/-- Those of all passes. -/
def writtenIndices (stringMap : String → Option Int) (hash : String → UInt64)
    (g : LibcCallgraph G) : List String → OutEdges → List Nat
  | [], _ => []
  | _ :: vertices, s =>
    writtenInPass stringMap hash g g.getVertices s ++
      match fillVertices stringMap hash g g.getVertices s with
      | .error _ => []
      | .ok s => writtenIndices stringMap hash g vertices s

/-- The assertion never fails, and no write is past the end of the two buffers. -/
structure BuffersSuffice (stringMap : String → Option Int) (hash : String → UInt64)
    (g : LibcCallgraph G) (edgeList neighborList : Nat → UInt64) : Prop where
  assertion : (generateInMemoryGraph stringMap hash g edgeList neighborList MemGraph.initial).1 ≠
    .error .abort
  indices : ∀ i ∈ writtenIndices stringMap hash g g.getVertices ⟨0, edgeList, neighborList⟩,
    i < maxNeighbors

theorem fillVertex_lt (hok : fillVertex stringMap hash g vertex s = .ok s') :
    s'.numOutEdges < maxNeighbors := by
  simp only [fillVertex] at hok
  split at hok
  next =>
    split at hok
    next hlt =>
      cases hok
      exact hlt
    next => cases hok
  next => cases hok

theorem fillVertices_lt {vertices : List String}
    (hok : fillVertices stringMap hash g vertices s = .ok s') (hs : s.numOutEdges < maxNeighbors) :
    s'.numOutEdges < maxNeighbors := by
  induction vertices generalizing s with
  | nil =>
    cases hok
    exact hs
  | cons vertex vertices ih =>
    rw [fillVertices] at hok
    cases hv : fillVertex stringMap hash g vertex s with
    | error e =>
      rw [hv] at hok
      cases hok
    | ok s₁ =>
      rw [hv] at hok
      exact ih hok (fillVertex_lt hv)

theorem writtenAt_eq (hi : i ∈ writtenAt g vertex s) : i = s.numOutEdges := by
  rw [writtenAt, List.mem_append, List.mem_map, List.mem_map] at hi
  rcases hi with ⟨e, -, rfl⟩ | ⟨e, -, rfl⟩ <;> rfl

theorem writtenInPass_lt {vertices : List String} (hs : s.numOutEdges < maxNeighbors)
    (hi : i ∈ writtenInPass stringMap hash g vertices s) : i < maxNeighbors := by
  induction vertices generalizing s with
  | nil => cases hi
  | cons vertex vertices ih =>
    rw [writtenInPass, List.mem_append] at hi
    rcases hi with hi | hi
    · rw [writtenAt_eq hi]
      exact hs
    · cases hv : fillVertex stringMap hash g vertex s with
      | error e =>
        rw [hv] at hi
        cases hi
      | ok s₁ =>
        rw [hv] at hi
        exact ih (fillVertex_lt hv) hi

/-- The assertion is in time: a counter that passes it is an index of the buffers. -/
theorem writtenIndices_lt {vertices : List String} (hs : s.numOutEdges < maxNeighbors)
    (hi : i ∈ writtenIndices stringMap hash g vertices s) : i < maxNeighbors := by
  induction vertices generalizing s with
  | nil => cases hi
  | cons vertex vertices ih =>
    rw [writtenIndices, List.mem_append] at hi
    rcases hi with hi | hi
    · exact writtenInPass_lt hs hi
    · cases hv : fillVertices stringMap hash g g.getVertices s with
      | error e =>
        rw [hv] at hi
        cases hi
      | ok s₁ =>
        rw [hv] at hi
        exact ih (fillVertices_lt hv hs) hi

theorem fillVertex_abort (h : g.Inv) (vertex : String) (hge : maxNeighbors ≤ s.numOutEdges + 1) :
    fillVertex stringMap hash g vertex s = .error .abort := by
  obtain ⟨hedges, hneighbors, -⟩ := h.outgoing vertex
  simp only [fillVertex, hedges, hneighbors, if_neg (Nat.not_lt.2 hge)]

theorem fillVertices_abort (h : g.Inv) {vertices : List String}
    (hs : s.numOutEdges < maxNeighbors) (hge : maxNeighbors ≤ s.numOutEdges + vertices.length) :
    fillVertices stringMap hash g vertices s = .error .abort := by
  induction vertices generalizing s with
  | nil =>
    rw [List.length_nil] at hge
    omega
  | cons vertex vertices ih =>
    rw [List.length_cons] at hge
    rw [fillVertices]
    by_cases hlt : s.numOutEdges + 1 < maxNeighbors
    · obtain ⟨s₁, hs₁, hnum, -⟩ := fillVertex_ok stringMap hash h vertex hlt
      rw [hs₁]
      exact ih (by omega) (by omega)
    · rw [fillVertex_abort h vertex (Nat.not_lt.1 hlt)]
      rfl

/-- The passes of a graph of more than 31 vertices run into the assertion before the pool is
full. -/
theorem allocVertices_abort (h : g.Inv) (vertices : List String)
    (hfilled : Filled stringMap hash g stack s) (hb : Building m p ns)
    (hlarge : 32 ≤ g.getVertices.length) (hs : s.numOutEdges < maxNeighbors)
    (hcount : ns.length * g.getVertices.length ≤ s.numOutEdges)
    (hsize : extent Node.size ns ≤ ns.length * 24000)
    (hge : maxNeighbors ≤ s.numOutEdges + vertices.length * g.getVertices.length) :
    (allocVertices stringMap hash g vertices s m).1 = .error .abort := by
  induction vertices generalizing s m p ns with
  | nil =>
    rw [List.length_nil] at hge
    omega
  | cons vertex vertices ih =>
    rw [List.length_cons, Nat.succ_mul] at hge
    rcases Nat.lt_or_ge (s.numOutEdges + g.getVertices.length) maxNeighbors with hlt | hpast
    · obtain ⟨s₁, hs₁, hfilled₁, hnum, -⟩ := hfilled.fillVertices h (fun v hv => hv) hlt
      let n : Node := ⟨hash vertex % modulus, (List.range s₁.numOutEdges).map s₁.edge⟩
      have hid : n.id.toNat < 1000 := by
        rw [UInt64.toNat_mod]
        exact Nat.mod_lt _ (by decide)
      have hnode : n.size ≤ 24000 := by
        rw [maxNeighbors] at hlt
        rw [Node.size, List.length_map, List.length_range, hnum, sizeofRecord]
        omega
      have hext : extent Node.size (ns ++ [n]) = extent Node.size ns + n.size := by
        rw [extent_append, extent_cons, extent_nil, Nat.add_zero]
      have hfew : ns.length * 32 ≤ 1000 := by
        have hmul := Nat.mul_le_mul_left ns.length hlarge
        rw [maxNeighbors] at hs
        omega
      have hfit : nodeTableOffset + extent Node.size (ns ++ [n]) ≤ memoryPoolSize := by
        rw [hext, nodeTableOffset, memoryPoolSize]
        omega
      obtain ⟨L, hL, -, hok, -⟩ := hb.alloc hfit
      obtain ⟨m₁, p₁, node, hm₁, hb₁⟩ := hok (by omega)
      have halloc : allocNode (hash vertex % modulus) s₁.numOutEdges s₁.edgeList s₁.neighborList m =
          (.ok node, m₁) := by
        rw [allocNode_eq]
        exact hm₁
      have hlen : (ns ++ [n]).length = ns.length + 1 := by
        rw [List.length_append, List.length_singleton]
      simp only [allocVertices, hs₁, halloc]
      apply ih hfilled₁ hb₁
      · omega
      · rw [hlen, Nat.succ_mul]
        omega
      · rw [hlen, hext]
        omega
      · omega
    · simp only [allocVertices, fillVertices_abort h hs hpast]

theorem generateInMemoryGraph_abort (stringMap : String → Option Int) (hash : String → UInt64)
    (h : g.Inv) (hn : maxNeighbors ≤ g.getVertices.length * g.getVertices.length)
    (edgeList neighborList : Nat → UInt64) :
    (generateInMemoryGraph stringMap hash g edgeList neighborList MemGraph.initial).1 =
      .error .abort := by
  have hfilled : Filled stringMap hash g (fun k => ⟨neighborList k, edgeList k⟩)
      ⟨0, edgeList, neighborList⟩ := ⟨fun k hk => absurd hk (Nat.not_lt_zero k), fun _ _ => rfl⟩
  have hlarge : 32 ≤ g.getVertices.length := by
    by_contra hsmall
    have hsq := Nat.mul_le_mul (Nat.le_of_lt_succ (Nat.lt_of_not_le hsmall))
      (Nat.le_of_lt_succ (Nat.lt_of_not_le hsmall))
    rw [maxNeighbors] at hn
    omega
  have hstart : 0 < maxNeighbors := by decide
  obtain ⟨m₁, hm₁, hb⟩ := initializeGraph_empty .user (m := MemGraph.initial) rfl rfl
  have habort := allocVertices_abort h g.getVertices hfilled hb hlarge hstart
    (by rw [List.length_nil, Nat.zero_mul]) (Nat.le_refl _) (by rwa [Nat.zero_add])
  obtain ⟨m₂, hrun⟩ : ∃ m₂, allocVertices stringMap hash g g.getVertices
      ⟨0, edgeList, neighborList⟩ m₁ = (.error .abort, m₂) := ⟨_, Prod.ext habort rfl⟩
  simp only [generateInMemoryGraph, hm₁, hrun]

/-- The counter runs through all vertices for every vertex, so that the buffers suffice exactly
if the square of their number is below `MAX_NEIGHBORS`, however many edges a vertex has. -/
theorem buffersSuffice_iff (stringMap : String → Option Int) (hash : String → UInt64)
    (h : g.Inv) (edgeList neighborList : Nat → UInt64) :
    BuffersSuffice stringMap hash g edgeList neighborList ↔
      g.getVertices.length * g.getVertices.length < maxNeighbors := by
  apply Iff.intro
  · intro hx
    by_contra hn
    exact hx.assertion
      (generateInMemoryGraph_abort stringMap hash h (Nat.not_lt.1 hn) edgeList neighborList)
  · intro hn
    obtain ⟨p, m, ns, hrun, -⟩ :=
      generateInMemoryGraph_built stringMap hash h hn edgeList neighborList
    constructor
    · rw [hrun]
      exact nofun
    · intro i hi
      have hstart : 0 < maxNeighbors := by decide
      exact writtenIndices_lt (s := ⟨0, edgeList, neighborList⟩) hstart hi

/-- A program of 32 states. -/
def wideGraph : LibcCallgraph listGraaf :=
  .ofLists ((List.range 32).map fun k => String.ofList (List.replicate k 's')) []

/-- Its states have no edges at all. -/
theorem wideGraph_asserts :
    ¬∀ (g : LibcCallgraph listGraaf) (stringMap : String → Option Int) (hash : String → UInt64)
      (edgeList neighborList : Nat → UInt64), g.Inv →
        (∀ v ∈ g.getVertices, (g.outgoing v).length < maxNeighbors) →
          BuffersSuffice stringMap hash g edgeList neighborList := by
  intro h
  have hlen : wideGraph.getVertices.length = 32 := by decide +kernel
  have hI : wideGraph.Inv := LibcCallgraph.ofLists_inv _ _
  have hx := h wideGraph (fun _ => none) (fun _ => 0) (fun _ => 0) (fun _ => 0) hI
    (by decide +kernel)
  apply hx.assertion
  apply generateInMemoryGraph_abort _ _ hI
  rw [hlen]
  decide

/-- A graph of one call. -/
theorem callGraph_buffersSuffice :
    let g : LibcCallgraph listGraaf := .ofLists ["a", "b"] [("a", "libc:puts", "b")]
    BuffersSuffice (fun _ => none) (fun _ => 0) g (fun _ => 0) (fun _ => 0) ↔
      g.getVertices.length * g.getVertices.length < maxNeighbors :=
  buffersSuffice_iff _ _ (LibcCallgraph.ofLists_inv _ _) _ _

end LibcSandbox
