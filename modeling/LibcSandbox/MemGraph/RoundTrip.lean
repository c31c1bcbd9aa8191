import LibcSandbox.MemGraph.Build

namespace LibcSandbox
open Library
set_option autoImplicit true

/-- Node `i` of the list gets id `i`. -/
def numbered (specs : List (List Edge)) : List Node :=
  specs.mapIdx fun i es => ⟨UInt64.ofNat i, es⟩

@[simp] theorem length_numbered (specs : List (List Edge)) :
    (numbered specs).length = specs.length :=
  List.length_mapIdx

theorem getElem?_numbered (specs : List (List Edge)) (i : Nat) :
    (numbered specs)[i]? = specs[i]?.map fun es => ⟨UInt64.ofNat i, es⟩ :=
  List.getElem?_mapIdx

theorem idsInRoom_of_getElem? (h : ∀ i n, ns[i]? = some n → n.id.toNat = k + i) :
    IdsInRoom k ns := by
  induction ns generalizing k with
  | nil => trivial
  | cons n ns ih =>
    refine ⟨.inr (h 0 n rfl), ih fun i a hi => ?_⟩
    rw [h (i + 1) a (by simpa using hi)]
    omega

/-- The bytes the specifications take as records. -/
def specsSize (specs : List (List Edge)) : Nat := (specs.map fun es => 24 + 24 * es.length).sum

theorem extent_numbered (specs : List (List Edge)) :
    extent Node.size (numbered specs) = specsSize specs := by
  have hsize : ∀ es : List Edge, 24 + 24 * es.length = sizeofRecord + es.length * sizeofRecord :=
    fun es => by rw [sizeofRecord, Nat.mul_comm]
  have hmap : (numbered specs).map Node.size = specs.map fun es => 24 + 24 * es.length := by
    apply List.ext_getElem?
    intro i
    simp only [List.getElem?_map, getElem?_numbered, Option.map_map, hsize]
    rfl
  rw [extent, hmap, specsSize]

theorem idsInRoom_numbered (h : specs.length ≤ memoryPoolSize) :
    IdsInRoom 0 (numbered specs) := by
  apply idsInRoom_of_getElem?
  intro i n hi
  have hlt : i < (numbered specs).length := (List.getElem?_eq_some_iff.1 hi).1
  rw [length_numbered] at hlt
  rw [getElem?_numbered] at hi
  obtain ⟨es, -, rfl⟩ := Option.map_eq_some_iff.1 hi
  rw [toNat_ofNat_length (by omega), Nat.zero_add]

theorem length_le_specsSize (specs : List (List Edge)) : 24 * specs.length ≤ specsSize specs := by
  have hlen := length_le_extent (numbered specs)
  rwa [extent_numbered, length_numbered] at hlen

theorem buildGraph_numbered (build : Build) (specs : List (List Edge))
    (hfit : nodeTableOffset + specsSize specs ≤ memoryPoolSize) :
    ∃ m p, buildGraph build (numbered specs) MemGraph.initial = (.ok (), m) ∧
      m.pool = some p ∧ Built p (numbered specs) ∧
      Room m.nodes m.numNodesListings specs.length := by
  have hlen := length_le_specsSize specs
  have hids : IdsInRoom 0 (numbered specs) := idsInRoom_numbered (by omega)
  rw [← extent_numbered] at hfit
  obtain ⟨m, p, hm, hp, hb, hr⟩ :=
    buildGraph_built build (m := MemGraph.initial) rfl rfl hfit hids
  rw [length_numbered] at hr
  exact ⟨m, p, hm, hp, hb, hr⟩

/-- Building a graph, copying the pool out and loading the copy into a fresh library gives back
every node with its edges in order. -/
theorem graph_roundTrip (build build' : Build) (specs : List (List Edge))
    (hfit : nodeTableOffset + specsSize specs ≤ memoryPoolSize) :
    ∃ m p m', buildGraph build (numbered specs) MemGraph.initial = (.ok (), m) ∧
      getGraph m = some p ∧ storeGraph true memoryPoolSize m = .ok ⟨p, memoryPoolSize⟩ ∧
      verifyGraph (MemGraph.initial.copied p memoryPoolSize) = (.ok 1, m') ∧
      initializeGraph build' (some p) memoryPoolSize MemGraph.initial = (.ok (), m') ∧
      loadGraph (some ⟨p, memoryPoolSize⟩) MemGraph.initial = (.ok (), m') ∧
      ∃ p' L, m'.pool = some p' ∧ m'.nodes = some L ∧ p'.numNodes.toNat = specs.length ∧
        ∀ i es, specs[i]? = some es →
          ∃ off, L.entry i = some off ∧ NodeAt p' off ⟨UInt64.ofNat i, es⟩ := by
  obtain ⟨m, p, hm, hp, hb, -⟩ := buildGraph_numbered build specs hfit
  have hcopy : Built (copy emptyPool p memoryPoolSize) (numbered specs) :=
    hb.copy (.refl _ _ _) (hb.table.end_le (by decide)) emptyPool
  obtain ⟨m', hv, hl, -⟩ := hcopy.verifyGraph (m := MemGraph.initial.copied p memoryPoolSize) rfl
    (Nat.le_of_eq hcopy.malloc_slots.symm)
  have hload (b : Build) :
      verifyLoaded b (MemGraph.initial.copied p memoryPoolSize) = (.ok (), m') := by
    simp only [verifyLoaded, hv, ne_eq, not_true_eq_false, ↓reduceIte]
  obtain ⟨L, hL, -, he⟩ := hl.listing
  refine ⟨m, p, m', hm, hp, ?_, hv, ?_, ?_, _, L, hl.pool, hL, ?_, fun i es hi => ?_⟩
  · simp only [storeGraph, hp, not_true_eq_false, ne_eq, ↓reduceIte]
  · rw [initializeGraph_copied (by decide) (Nat.le_refl _)]
    exact hload build'
  · exact hload .user
  · rw [hl.numNodes, length_numbered]
  · have hn : (numbered specs)[i]? = some ⟨UInt64.ofNat i, es⟩ := by
      rw [getElem?_numbered, hi, Option.map_some]
    have hlt := (List.getElem?_eq_some_iff.1 hn).1
    exact ⟨_, he i hlt, hl.nodeAt hn⟩

/-- The graph of two nodes that the save and load test builds. -/
def savedGraph : List (List Edge) :=
  [[⟨10, 0⟩, ⟨1, 1⟩, ⟨10, 2⟩], [⟨20, 1⟩, ⟨10, 2⟩]]

theorem savedGraph_roundTrip :
    ∃ m p m', buildGraph .user (numbered savedGraph) MemGraph.initial = (.ok (), m) ∧
      getGraph m = some p ∧ storeGraph true memoryPoolSize m = .ok ⟨p, memoryPoolSize⟩ ∧
      verifyGraph (MemGraph.initial.copied p memoryPoolSize) = (.ok 1, m') ∧
      initializeGraph .kernel (some p) memoryPoolSize MemGraph.initial = (.ok (), m') ∧
      loadGraph (some ⟨p, memoryPoolSize⟩) MemGraph.initial = (.ok (), m') ∧
      ∃ p' L, m'.pool = some p' ∧ m'.nodes = some L ∧ p'.numNodes.toNat = 2 ∧
        ∀ i es, savedGraph[i]? = some es →
          ∃ off, L.entry i = some off ∧ NodeAt p' off ⟨UInt64.ofNat i, es⟩ :=
  graph_roundTrip .user .kernel savedGraph (by decide)

end LibcSandbox
