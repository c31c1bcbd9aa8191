import LibcSandbox.GraphLib.LibcCallgraph
import LibcSandbox.MemGraph.Build
import Mathlib.Data.List.Induction

namespace LibcSandbox
open Library
set_option autoImplicit true

variable {G : Graaf} {g : LibcCallgraph G} {stringMap : String → Option Int}
  {hash : String → UInt64}

def maxNeighbors : Nat := 1000
def modulus : UInt64 := 1000

def getValueFromMap (stringMap : String → Option Int) (str : String) : Int :=
  (stringMap str).getD (-1)

def libcId (stringMap : String → Option Int) (edge : String) : UInt64 :=
  let edgeStr := if foundAtStart edge "libc:" then String.ofList (edge.toList.drop 5) else edge
  toUnsignedLong (getValueFromMap stringMap edgeStr)

theorem foundAtStart_append (s t : String) : foundAtStart (s ++ t) s = true := by
  rw [foundAtStart, String.toList_append, List.isPrefixOf_iff_prefix]
  exact List.prefix_append _ _

theorem libcId_libc (stringMap : String → Option Int) (name : String) :
    libcId stringMap ("libc:" ++ name) = toUnsignedLong (getValueFromMap stringMap name) := by
  have hdrop : String.ofList (("libc:" ++ name).toList.drop 5) = name := by
    rw [String.toList_append, List.drop_append_of_le_length (by decide)]
    exact String.ofList_toList
  simp only [libcId, foundAtStart_append, ↓reduceIte, hdrop]

/-- The local variables of `GenerateInMemoryGraph`. The arrays start with whatever is on the
stack. -/
structure OutEdges where
  numOutEdges : Nat
  edgeList : Nat → UInt64
  neighborList : Nat → UInt64

/-- The body of the inner loop. A lookup that throws ends the program like a failed assertion. -/
def fillVertex (stringMap : String → Option Int) (hash : String → UInt64) (g : LibcCallgraph G)
    (vertex : String) (s : OutEdges) : Except Halt OutEdges :=
  match g.getOutgoingEdges vertex, g.getNeighbors vertex with
  | some edges, some neighbors =>
    let edgeList := edges.foldl (fun edgeList edge =>
      Function.update edgeList s.numOutEdges (libcId stringMap edge)) s.edgeList
    let neighborList := neighbors.foldl (fun neighborList neighbor =>
      Function.update neighborList s.numOutEdges (hash neighbor % modulus)) s.neighborList
    let numOutEdges := s.numOutEdges + 1
    if numOutEdges < maxNeighbors then .ok ⟨numOutEdges, edgeList, neighborList⟩
    else .error .abort
  | _, _ => .error .abort

def fillVertices (stringMap : String → Option Int) (hash : String → UInt64) (g : LibcCallgraph G) :
    List String → OutEdges → Except Halt OutEdges
  | [], s => .ok s
  | vertex :: vertices, s => do
    let s ← fillVertex stringMap hash g vertex s
    fillVertices stringMap hash g vertices s

/-- The outer loop. -/
def allocVertices (stringMap : String → Option Int) (hash : String → UInt64) (g : LibcCallgraph G) :
    List String → OutEdges → MemGraph → Outcome MemGraph Unit
  | [], _, m => (.ok (), m)
  | vertex :: vertices, s, m =>
    let strId := hash vertex % modulus
    match fillVertices stringMap hash g g.getVertices s with
    | .error h => (.error h, m)
    | .ok s =>
      match allocNode strId s.numOutEdges s.edgeList s.neighborList m with
      | (.error h, m) => (.error h, m)
      | (.ok _, m) => allocVertices stringMap hash g vertices s m

/-- It returns the pool that goes into the section of the program. -/
def generateInMemoryGraph (stringMap : String → Option Int) (hash : String → UInt64)
    (g : LibcCallgraph G) (edgeList neighborList : Nat → UInt64) (m : MemGraph) :
    Outcome MemGraph (Option Pool) :=
  match initializeGraph .user none 0 m with
  | (.error h, m) => (.error h, m)
  | (.ok (), m) =>
    match allocVertices stringMap hash g g.getVertices ⟨0, edgeList, neighborList⟩ m with
    | (.error h, m) => (.error h, m)
    | (.ok (), m) =>
      match finalizeGraph m with
      | (.error h, m) => (.error h, m)
      | (.ok (), m) => (.ok (getGraph m), destroyGraph m)

/-- What the arrays say at an index, as the edge record it becomes. The two are passed to
`alloc_node` in each other's place. -/
def OutEdges.edge (s : OutEdges) (k : Nat) : Edge := ⟨s.neighborList k, s.edgeList k⟩

/-- What a vertex leaves at its index: its last edge, or what was there before. -/
def lastEdge (stringMap : String → Option Int) (hash : String → UInt64) (g : LibcCallgraph G)
    (vertex : String) (before : Edge) : Edge :=
  match (g.outgoing vertex).getLast? with
  | some (edge, neighbor) => ⟨hash neighbor % modulus, libcId stringMap edge⟩
  | none => before

theorem foldl_update (a : Nat → β) (k : Nat) (xs : List α) (f : α → β) :
    xs.foldl (fun a x => Function.update a k (f x)) a =
      match xs.getLast? with
      | some x => Function.update a k (f x)
      | none => a := by
  induction xs using List.reverseRecOn with
  | nil => rfl
  | append_singleton xs x ih =>
    rw [List.foldl_append, ih, List.getLast?_concat]
    cases xs.getLast? with
    | none => rfl
    | some y => simp only [List.foldl_cons, List.foldl_nil, Function.update_idem]

theorem fillVertex_ok (stringMap : String → Option Int) (hash : String → UInt64) (h : g.Inv)
    (vertex : String) {s : OutEdges} (hlt : s.numOutEdges + 1 < maxNeighbors) :
    ∃ s', fillVertex stringMap hash g vertex s = .ok s' ∧ s'.numOutEdges = s.numOutEdges + 1 ∧
      s'.edge s.numOutEdges = lastEdge stringMap hash g vertex (s.edge s.numOutEdges) ∧
      ∀ k, k ≠ s.numOutEdges → s'.edge k = s.edge k := by
  obtain ⟨hedges, hneighbors, -⟩ := h.outgoing vertex
  simp only [fillVertex, hedges, hneighbors, if_pos hlt, foldl_update, List.getLast?_map]
  refine ⟨_, rfl, rfl, ?_, fun k hk => ?_⟩
  · rw [lastEdge]
    cases (g.outgoing vertex).getLast? with
    | none => rfl
    | some e => simp only [OutEdges.edge, Option.map_some, Function.update_self]
  · cases (g.outgoing vertex).getLast? with
    | none => rfl
    | some e => simp only [OutEdges.edge, Option.map_some, Function.update_of_ne hk]

/-- Below the index every entry is the last edge of a vertex, and the stack is untouched above. -/
structure Filled (stringMap : String → Option Int) (hash : String → UInt64) (g : LibcCallgraph G)
    (stack : Nat → Edge) (s : OutEdges) : Prop where
  below : ∀ k, k < s.numOutEdges →
    ∃ v ∈ g.getVertices, s.edge k = lastEdge stringMap hash g v (stack k)
  above : ∀ k, s.numOutEdges ≤ k → s.edge k = stack k

theorem Filled.fillVertices (h : g.Inv) {vertices : List String}
    (hv : ∀ v ∈ vertices, v ∈ g.getVertices) (hs : Filled stringMap hash g stack s)
    (hlt : s.numOutEdges + vertices.length < maxNeighbors) :
    ∃ s', fillVertices stringMap hash g vertices s = .ok s' ∧ Filled stringMap hash g stack s' ∧
      s'.numOutEdges = s.numOutEdges + vertices.length ∧
      (∀ k, k < s.numOutEdges → s'.edge k = s.edge k) ∧
      ∀ v ∈ vertices, ∃ k, k < s'.numOutEdges ∧
        s'.edge k = lastEdge stringMap hash g v (stack k) := by
  induction vertices generalizing s with
  | nil =>
    refine ⟨s, rfl, hs, rfl, fun _ _ => rfl, ?_⟩
    intro v hv
    cases hv
  | cons vertex vertices ih =>
    rw [List.length_cons] at hlt
    have hnext : s.numOutEdges + 1 < maxNeighbors := by omega
    obtain ⟨s₁, hs₁, hnum, hnew, hold⟩ := fillVertex_ok stringMap hash h vertex hnext
    rw [hs.above _ (Nat.le_refl _)] at hnew
    have hfilled : Filled stringMap hash g stack s₁ := by
      constructor
      · intro k hk
        rw [hnum] at hk
        by_cases he : k = s.numOutEdges
        · rw [he, hnew]
          exact ⟨vertex, hv vertex List.mem_cons_self, rfl⟩
        · rw [hold k he]
          exact hs.below k (by omega)
      · intro k hk
        rw [hnum] at hk
        rw [hold k (by omega)]
        exact hs.above k (by omega)
    obtain ⟨s₂, hs₂, hfilled₂, hnum₂, hkeep₂, hall₂⟩ :=
      ih (fun v hv' => hv v (List.mem_cons_of_mem _ hv')) hfilled (by omega)
    refine ⟨s₂, ?_, hfilled₂, by rw [hnum₂, hnum, List.length_cons]; omega, ?_, ?_⟩
    · rw [LibcSandbox.fillVertices, hs₁]
      exact hs₂
    · intro k hk
      rw [hkeep₂ k (by omega), hold k (by omega)]
    · intro v hv'
      rcases List.mem_cons.1 hv' with rfl | hv'
      · refine ⟨s.numOutEdges, by omega, ?_⟩
        rw [hkeep₂ _ (by omega), hnew]
      · exact hall₂ v hv'

/-- A node as a pass of the outer loop allocates it, with the last edges of all vertices. -/
structure NodeFilled (stringMap : String → Option Int) (hash : String → UInt64)
    (g : LibcCallgraph G) (stack : Nat → Edge) (n : Node) : Prop where
  id_lt : n.id.toNat < 1000
  length_lt : n.edges.length < 1000
  sound : ∀ e ∈ n.edges, ∃ v ∈ g.getVertices, ∃ k, e = lastEdge stringMap hash g v (stack k)
  complete : ∀ v ∈ g.getVertices, ∃ k, lastEdge stringMap hash g v (stack k) ∈ n.edges

theorem allocVertices_eq (h : g.Inv) (vertices : List String)
    (hs : Filled stringMap hash g stack s)
    (hlt : s.numOutEdges + vertices.length * g.getVertices.length < maxNeighbors) :
    ∃ ns, (∀ m, allocVertices stringMap hash g vertices s m = allocNodes ns m) ∧
      ns.length = vertices.length ∧ ∀ n ∈ ns, NodeFilled stringMap hash g stack n := by
  induction vertices generalizing s with
  | nil =>
    refine ⟨[], fun _ => rfl, rfl, ?_⟩
    intro n hn
    cases hn
  | cons vertex vertices ih =>
    rw [List.length_cons, Nat.succ_mul] at hlt
    obtain ⟨s₁, hs₁, hfilled, hnum, -, hall⟩ := hs.fillVertices h (fun v hv => hv) (by omega)
    obtain ⟨ns, hns, hlen, hnodes⟩ := ih hfilled (by omega)
    refine ⟨⟨hash vertex % modulus, (List.range s₁.numOutEdges).map s₁.edge⟩ :: ns, ?_, ?_, ?_⟩
    · intro m
      have hrec (r : Outcome MemGraph Nat) :
          (match r with
            | (.error h, m) => ((.error h, m) : Outcome MemGraph Unit)
            | (.ok _, m) => allocVertices stringMap hash g vertices s₁ m) =
          match r with
            | (.error h, m) => (.error h, m)
            | (.ok _, m) => allocNodes ns m := by
        obtain ⟨r, m⟩ := r
        cases r with
        | error => rfl
        | ok => exact hns m
      simp only [allocVertices, hs₁, allocNode_eq]
      exact hrec _
    · rw [List.length_cons, hlen, List.length_cons]
    · intro n hn
      rcases List.mem_cons.1 hn with rfl | hn
      · constructor
        · rw [UInt64.toNat_mod]
          exact Nat.mod_lt _ (by decide)
        · rw [List.length_map, List.length_range, hnum]
          rw [maxNeighbors] at hlt
          omega
        · intro e he
          obtain ⟨k, hk, rfl⟩ := List.mem_map.1 he
          obtain ⟨v, hv, hlast⟩ := hfilled.below k (List.mem_range.1 hk)
          exact ⟨v, hv, k, hlast⟩
        · intro v hv
          obtain ⟨k, hk, hlast⟩ := hall v hv
          exact ⟨k, hlast ▸ List.mem_map.2 ⟨k, List.mem_range.2 hk, rfl⟩⟩
      · exact hnodes n hn

theorem extent_le_mul (h : ∀ n ∈ ns, Node.size n ≤ c) : extent Node.size ns ≤ ns.length * c := by
  induction ns with
  | nil => simp
  | cons n ns ih =>
    have hn := h n List.mem_cons_self
    have hns := ih fun n hn => h n (List.mem_cons_of_mem _ hn)
    rw [extent_cons, List.length_cons, Nat.succ_mul]
    omega

theorem idsInRoom_of_lt (h : ∀ n ∈ ns, n.id.toNat < 4096) : IdsInRoom k ns := by
  induction ns generalizing k with
  | nil => trivial
  | cons n ns ih =>
    exact ⟨.inl (h n List.mem_cons_self), ih fun n hn => h n (List.mem_cons_of_mem _ hn)⟩

/-- A graph that passes the assertion also fits the pool, so that the pass always ends. -/
theorem generateInMemoryGraph_built (stringMap : String → Option Int) (hash : String → UInt64)
    (h : g.Inv) (hn : g.getVertices.length * g.getVertices.length < maxNeighbors)
    (edgeList neighborList : Nat → UInt64) :
    ∃ p m ns, generateInMemoryGraph stringMap hash g edgeList neighborList MemGraph.initial =
        (.ok (some p), m) ∧ Built p ns ∧ ns.length = g.getVertices.length ∧
      ∀ n ∈ ns, NodeFilled stringMap hash g (fun k => ⟨neighborList k, edgeList k⟩) n := by
  have hfilled : Filled stringMap hash g (fun k => ⟨neighborList k, edgeList k⟩)
      ⟨0, edgeList, neighborList⟩ := ⟨fun k hk => absurd hk (Nat.not_lt_zero k), fun _ _ => rfl⟩
  obtain ⟨ns, hns, hlen, hnodes⟩ := allocVertices_eq h g.getVertices hfilled
    (by rw [Nat.zero_add]; exact hn)
  have hsmall : ns.length ≤ 31 := by
    rw [hlen]
    by_contra hbig
    have hsq := Nat.mul_le_mul (Nat.lt_of_not_le hbig) (Nat.lt_of_not_le hbig)
    rw [maxNeighbors] at hn
    omega
  have hsize : extent Node.size ns ≤ ns.length * 24000 := by
    apply extent_le_mul
    intro n hn
    have hl := (hnodes n hn).length_lt
    rw [Node.size, sizeofRecord]
    omega
  obtain ⟨m₁, hm₁, h₁⟩ := initializeGraph_empty .user (m := MemGraph.initial) rfl rfl
  have hfit : nodeTableOffset + extent Node.size ([] ++ ns) ≤ memoryPoolSize := by
    rw [List.nil_append, nodeTableOffset, memoryPoolSize]
    omega
  obtain ⟨m₂, p₂, hm₂, h₂⟩ := h₁.allocNodes hfit
    (idsInRoom_of_lt fun n hn => Nat.lt_of_lt_of_le (hnodes n hn).id_lt (by decide))
  rw [List.nil_append] at h₂
  obtain ⟨hm₃, h₃⟩ := h₂.finalizeGraph
  refine ⟨_, destroyGraph { m₂ with pool := some (p₂.setGraphFinalized 1) }, ns, ?_, h₃, hlen,
    hnodes⟩
  simp only [generateInMemoryGraph, hm₁, hns, hm₂, hm₃, getGraph]

end LibcSandbox
