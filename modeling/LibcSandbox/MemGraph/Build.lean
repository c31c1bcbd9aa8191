import LibcSandbox.MemGraph.Recogniser

namespace LibcSandbox
open Library
set_option autoImplicit true

/-- The listing is large enough for `k` nodes, and grows in step with `num_nodes_listings`. The
first allocation is not counted there, so that the second node makes the listing grow to the size
it already has. -/
inductive Room : Option Listing → UInt64 → Nat → Prop
  | unallocated : Room none 0 0
  | uncounted {L : Listing} : L.slots = 4096 → Room (some L) 0 1
  | counted {L : Listing} {c : UInt64} {k : Nat} : 4096 ≤ L.slots → L.slots ≤ 2 ^ 32 →
      c.toNat = L.slots → k ≤ L.slots → Room (some L) c k

theorem growListings_none {m : MemGraph} (hn : m.nodes = none) :
    growListings m = (.ok (.malloc defaultNumberOfNodesListings),
      { m with nodes := some (.malloc defaultNumberOfNodesListings) }) := by
  simp only [growListings, hn]

theorem growListings_grow {m : MemGraph} (hn : m.nodes = some L) (hp : m.pool = some p)
    (h : m.numNodesListings ≤ p.numNodes) :
    let c := m.numNodesListings + defaultNumberOfNodesListings
    growListings m =
      (.ok (L.realloc c), { m with nodes := some (L.realloc c), numNodesListings := c }) := by
  simp only [growListings, hn, hp, if_pos h]

theorem growListings_keep {m : MemGraph} (hn : m.nodes = some L) (hp : m.pool = some p)
    (h : ¬m.numNodesListings ≤ p.numNodes) : growListings m = (.ok L, m) := by
  simp only [growListings, hn, hp, if_neg h]

theorem Listing.realloc_slots (L : Listing) (h : (c : UInt64).toNat ≤ 2 ^ 33) :
    (L.realloc c).slots = c.toNat := by
  have hm : (8 * c).toNat = 8 * c.toNat := by
    rw [UInt64.toNat_mul]
    exact Nat.mod_eq_of_lt (by rw [show (8 : UInt64).toNat = 8 from rfl]; omega)
  rw [Listing.realloc, hm, Nat.mul_div_cancel_left _ (by decide)]

theorem Room.grow {m : MemGraph} (h : Room m.nodes m.numNodesListings k) (hp : m.pool = some p)
    (hk : p.numNodes.toNat = k) :
    ∃ L c, growListings m = (.ok L, { m with nodes := some L, numNodesListings := c }) ∧
      4096 ≤ L.slots ∧ (k ≤ 2 ^ 31 → k < L.slots ∧
        ∀ L', L'.slots = L.slots → Room (some L') c (k + 1)) := by
  generalize hn : m.nodes = nodes at h
  generalize hc : m.numNodesListings = c at h
  cases h with
  | unallocated =>
    have hs : (Listing.malloc defaultNumberOfNodesListings).slots = 4096 := rfl
    refine ⟨_, 0, by rw [growListings_none hn, hc], by rw [hs], fun _ => ⟨by omega, ?_⟩⟩
    intro L' hs'
    exact .uncounted (hs'.trans hs)
  | @uncounted L hs =>
    have hle : m.numNodesListings ≤ p.numNodes := by
      rw [hc, UInt64.le_iff_toNat_le]
      exact Nat.zero_le _
    have hs' : (L.realloc (m.numNodesListings + defaultNumberOfNodesListings)).slots = 4096 := by
      rw [hc]
      rfl
    refine ⟨_, _, growListings_grow hn hp hle, by omega, fun _ => ⟨by omega, ?_⟩⟩
    intro L' hL'
    exact .counted (by omega) (by omega) (by rw [hL', hs', hc]; rfl) (by omega)
  | @counted L _ _ hlo hhi hcL hkL =>
    by_cases hg : m.numNodesListings ≤ p.numNodes
    · have hkeq : k = L.slots := by
        rw [UInt64.le_iff_toNat_le, hk, hc] at hg
        omega
      have hnew : (m.numNodesListings + defaultNumberOfNodesListings).toNat = L.slots + 4096 := by
        have hd : defaultNumberOfNodesListings.toNat = 4096 := rfl
        rw [UInt64.toNat_add, hc, hcL, hd]
        exact Nat.mod_eq_of_lt (by omega)
      have hs' := L.realloc_slots (c := m.numNodesListings + defaultNumberOfNodesListings)
        (by omega)
      rw [hnew] at hs'
      refine ⟨_, _, growListings_grow hn hp hg, by omega, fun hk31 => ⟨by omega, ?_⟩⟩
      intro L' hL'
      exact .counted (by omega) (by omega) (by rw [hL', hs', hnew]) (by omega)
    · have hlt : k < L.slots := by
        rw [UInt64.le_iff_toNat_le, hk, hc] at hg
        omega
      refine ⟨L, c, ?_, hlo, fun _ => ⟨hlt, fun L' hL' => ?_⟩⟩
      · rw [growListings_keep hn hp hg]
        cases m
        cases hn
        cases hc
        rfl
      · exact .counted (by omega) (by omega) (by omega) (by omega)

theorem putEdges_congr
    {libcallList libcallList' successorNodeList successorNodeList' : Nat → UInt64}
    (h : ∀ j, i ≤ j → j < i + n →
      libcallList j = libcallList' j ∧ successorNodeList j = successorNodeList' j) (p : Pool) :
    putEdges libcalls libcallList successorNodeList p i n =
      putEdges libcalls libcallList' successorNodeList' p i n := by
  induction n generalizing i p with
  | zero => rfl
  | succ n ih =>
    obtain ⟨hc, hs⟩ := h i (Nat.le_refl _) (by omega)
    simp only [putEdges, hc, hs]
    split
    · rfl
    · exact ih (fun j h₁ h₂ => h j (by omega) (by omega)) _

theorem putEdges_edgesAt (libcalls i : Nat) (es : List Edge) (p : Pool)
    (hes : ∀ j e, es[j]? = some e →
      libcallList (i + j) = e.libcallid ∧ successorNodeList (i + j) = e.nextProgstate)
    (hfit : libcalls + (i + es.length) * sizeofRecord ≤ memoryPoolSize) :
    ∃ q, putEdges libcalls libcallList successorNodeList p i es.length = (.ok (), q) ∧
      AgreeOn p q 0 (libcalls + i * sizeofRecord) ∧
      EdgesAt q (libcalls + i * sizeofRecord) es := by
  induction es generalizing p i with
  | nil => exact ⟨p, rfl, .refl _ _ _, trivial⟩
  | cons e es ih =>
    have hin : Inside (libcalls + i * sizeofRecord) := by
      rw [List.length_cons, Nat.add_mul, Nat.succ_mul] at hfit
      rw [Inside]
      omega
    obtain ⟨hc, hs⟩ := hes 0 e rfl
    obtain ⟨q, hq, hagree, hedges⟩ := ih (i + 1)
      (p.putLibcalls (libcalls + i * sizeofRecord)
        ⟨edgeMagicNumber, libcallList i, successorNodeList i⟩)
      (fun j e' hj => by
        rw [Nat.add_assoc, Nat.add_comm 1 j]
        exact hes (j + 1) e' (by simpa using hj))
      (by rwa [Nat.add_assoc, Nat.add_comm 1])
    have hnext : libcalls + (i + 1) * sizeofRecord =
        libcalls + i * sizeofRecord + sizeofRecord := by rw [Nat.succ_mul, Nat.add_assoc]
    rw [hnext] at hagree hedges
    refine ⟨q, ?_, ?_, ⟨hin, ?_⟩, hedges⟩
    · rw [List.length_cons, putEdges, if_neg (not_not.2 hin)]
      exact hq
    · exact (p.putLibcalls_agree _ (.inl (Nat.le_refl _))).trans
        (hagree.mono (Nat.le_refl _) (Nat.le_add_right _ _))
    · have hrec := Pool.libcalls_congr (hagree.mono (Nat.zero_le _) (Nat.le_refl _))
      rw [← hrec, Pool.libcalls_putLibcalls, ← hc, ← hs, Nat.add_zero]

/-- A graph under construction: what was allocated so far lies in the pool, the cursor is behind
it and the listing is large enough. -/
structure Building (m : MemGraph) (p : Pool) (ns : List Node) : Prop where
  pool : m.pool = some p
  header : p.header =
    ⟨0, graphMetaMagicNumber, UInt64.ofNat ns.length, UInt64.ofNat nodeTableOffset⟩
  table : TableAt p nodeTableOffset ns
  poolEdge : m.poolEdge = nodeTableOffset + extent Node.size ns
  room : Room m.nodes m.numNodesListings ns.length

/-- A list of edges as the two arrays that `alloc_node` is given. -/
def libcallArray (es : List Edge) (i : Nat) : UInt64 := (es[i]?.map (·.libcallid)).getD 0
def successorArray (es : List Edge) (i : Nat) : UInt64 := (es[i]?.map (·.nextProgstate)).getD 0

/-- The call of `alloc_node` for a node. -/
def allocSpec (n : Node) (m : MemGraph) : Outcome MemGraph Nat :=
  allocNode n.id n.edges.length (successorArray n.edges) (libcallArray n.edges) m

theorem getElem?_range_map (f : Nat → Edge) (h : i < k) :
    ((List.range k).map f)[i]? = some (f i) := by
  rw [List.getElem?_map, List.getElem?_range h, Option.map_some]

/-- A call of `alloc_node` with any two arrays allocates the node that they describe. -/
theorem allocNode_eq (id : UInt64) (k : Nat) (successorNodeList libcallList : Nat → UInt64)
    (m : MemGraph) :
    allocNode id k successorNodeList libcallList m =
      allocSpec ⟨id, (List.range k).map fun i => ⟨libcallList i, successorNodeList i⟩⟩ m := by
  have hput (libcalls : Nat) (p : Pool) :
      putEdges libcalls libcallList successorNodeList p 0 k =
        putEdges libcalls
          (libcallArray ((List.range k).map fun i => ⟨libcallList i, successorNodeList i⟩))
          (successorArray ((List.range k).map fun i => ⟨libcallList i, successorNodeList i⟩))
          p 0 k := by
    apply putEdges_congr
    intro j _ hj
    rw [Nat.zero_add] at hj
    simp only [libcallArray, successorArray, getElem?_range_map _ hj, Option.map_some,
      Option.getD_some, and_self]
  simp only [allocSpec, allocNode, List.length_map, List.length_range, Int.toNat_natCast, hput]

theorem length_le_extent (ns : List Node) : 24 * ns.length ≤ extent Node.size ns := by
  induction ns with
  | nil => exact Nat.le_refl _
  | cons n ns ih =>
    rw [extent_cons, List.length_cons, Node.size, sizeofRecord]
    omega

theorem Pool.numNodes_header {p : Pool} (h : p.header = ⟨f, g, n, o⟩) :
    p.graphFinalized = f ∧ p.magic = g ∧ p.numNodes = n ∧ p.nodesTableOffset = o := by
  cases h
  exact ⟨rfl, rfl, rfl, rfl⟩

theorem toNat_ofNat_length (h : k ≤ memoryPoolSize) : (UInt64.ofNat k).toNat = k := by
  rw [UInt64.toNat_ofNat', Nat.mod_eq_of_lt (Nat.lt_of_le_of_lt h (by decide))]

theorem toNat_toUnsignedLong_natCast (h : k ≤ memoryPoolSize) :
    (toUnsignedLong (k : Int)).toNat = k := by
  rw [memoryPoolSize] at h
  rw [toNat_toUnsignedLong, Int.emod_eq_of_lt (by omega) (by omega), Int.toNat_natCast]

theorem arrays_of_getElem? (h : es[j]? = some e) :
    libcallArray es (0 + j) = e.libcallid ∧ successorArray es (0 + j) = e.nextProgstate := by
  rw [Nat.zero_add]
  simp only [libcallArray, successorArray, h, Option.map_some, Option.getD_some, and_self]

theorem allocSpec_eq {m : MemGraph} (hp : m.pool = some p)
    (hgrow : growListings { m with poolEdge := m.poolEdge + sizeofRecord } =
      (.ok L, { m with
        poolEdge := m.poolEdge + sizeofRecord, nodes := some L, numNodesListings := c }))
    (hin : Inside m.poolEdge) (hid : n.id.toNat < L.slots)
    (hput : putEdges (m.poolEdge + sizeofRecord) (libcallArray n.edges) (successorArray n.edges)
      (p.putProgstate m.poolEdge ⟨nodeMagicNumber, n.id, toUnsignedLong n.edges.length⟩) 0
      n.edges.length = (.ok (), q)) :
    allocSpec n m = (.ok m.poolEdge, { m with
      pool := some (q.setNumNodes (q.numNodes + 1))
      poolEdge := m.poolEdge + n.size
      nodes := some (L.put n.id.toNat m.poolEdge)
      numNodesListings := c }) := by
  simp only [hp] at hgrow
  simp only [allocSpec, allocNode, hp, hgrow, hin, not_true_eq_false, ↓reduceIte,
    Listing.write_eq_ok hid, Int.toNat_natCast, hput, Node.size, Nat.add_assoc]

theorem allocSpec_outOfListing {m : MemGraph} (hp : m.pool = some p)
    (hgrow : growListings { m with poolEdge := m.poolEdge + sizeofRecord } =
      (.ok L, { m with
        poolEdge := m.poolEdge + sizeofRecord, nodes := some L, numNodesListings := c }))
    (hin : Inside m.poolEdge) (hid : L.slots ≤ n.id.toNat) :
    (allocSpec n m).1 = .error (.outOfListing n.id.toNat) := by
  simp only [hp] at hgrow
  simp only [allocSpec, allocNode, hp, hgrow, hin, not_true_eq_false, ↓reduceIte,
    Listing.write_eq_error hid]

/-- The edges that two arrays of `k` entries describe. -/
def arrayEdges (successorNodeList libcallList : Nat → UInt64) (k : Nat) : List Edge :=
  (List.range k).map fun i => ⟨libcallList i, successorNodeList i⟩

@[simp] theorem length_arrayEdges : (arrayEdges s l k).length = k := by
  rw [arrayEdges, List.length_map, List.length_range]

/-- The pool after a node was written at `node` and counted: the records are there, the bytes
between the metadata and the node are the old ones, and the metadata differs in the count. -/
structure NodeWritten (p q : Pool) (node : Nat) (r : AbstractProgstate) (es : List Edge) :
    Prop where
  end_le : node + sizeofRecord + es.length * sizeofRecord ≤ memoryPoolSize
  record : q.progstate node = r
  edges : EdgesAt q (node + sizeofRecord) es
  header : q.header = { p.header with numNodes := p.numNodes + 1 }
  below : AgreeOn p q nodeTableOffset node

theorem putEdges_fits (hok : putEdges libcalls l s p i n = (.ok (), q))
    (h : libcalls + i * sizeofRecord ≤ memoryPoolSize) :
    libcalls + (i + n) * sizeofRecord ≤ memoryPoolSize := by
  induction n generalizing p i with
  | zero => exact h
  | succ n ih =>
    rw [putEdges] at hok
    by_cases hin : Inside (libcalls + i * sizeofRecord)
    · rw [if_neg (not_not.2 hin)] at hok
      have ht := ih hok (by rw [Nat.succ_mul]; rw [Inside] at hin; omega)
      rwa [Nat.add_assoc i, Nat.add_comm 1] at ht
    · rw [if_pos hin] at hok
      cases hok

theorem putEdges_written (hok : putEdges libcalls l s p 0 n = (.ok (), q))
    (h : libcalls ≤ memoryPoolSize) :
    libcalls + n * sizeofRecord ≤ memoryPoolSize ∧ AgreeOn p q 0 libcalls ∧
      EdgesAt q libcalls (arrayEdges s l n) := by
  have hfit := putEdges_fits hok (by rwa [Nat.zero_mul, Nat.add_zero])
  have harrays (j : Nat) (e : Edge) (hj : (arrayEdges s l n)[j]? = some e) :
      l (0 + j) = e.libcallid ∧ s (0 + j) = e.nextProgstate := by
    have hlt : j < n := by
      simpa using (List.getElem?_eq_some_iff.1 hj).1
    rw [arrayEdges, getElem?_range_map _ hlt, Option.some.injEq] at hj
    rw [Nat.zero_add, ← hj]
    exact ⟨rfl, rfl⟩
  obtain ⟨q', hq', hagree, hedges⟩ := putEdges_edgesAt libcalls 0 (arrayEdges s l n) p harrays
    (by rwa [length_arrayEdges])
  rw [length_arrayEdges, hok] at hq'
  cases hq'
  rw [Nat.zero_mul, Nat.add_zero] at hagree hedges
  rw [Nat.zero_add] at hfit
  exact ⟨hfit, hagree, hedges⟩

theorem nodeWritten_of_putEdges (hedge : nodeTableOffset ≤ node) (hin : Inside node)
    (hput : putEdges (node + sizeofRecord) l s (p.putProgstate node r) 0 n = (.ok (), q)) :
    NodeWritten p (q.setNumNodes (q.numNodes + 1)) node r (arrayEdges s l n) := by
  obtain ⟨hfit, hagree, hedges⟩ := putEdges_written hput hin
  have hlow : AgreeOn p q 0 node :=
    (p.putProgstate_agree r (.inl (Nat.le_refl _))).trans
      (hagree.mono (Nat.le_refl _) (Nat.le_add_right _ _))
  have hheader : q.header = p.header :=
    (Pool.header_congr (hlow.mono (Nat.le_refl _) hedge)).symm
  have hnum : q.numNodes = p.numNodes := (Pool.numNodes_header (hheader.trans rfl)).2.2.1
  have hcount (lo hi : Nat) (hlo : nodeTableOffset ≤ lo) :
      AgreeOn q (q.setNumNodes (q.numNodes + 1)) lo hi := q.setNumNodes_agree _ hlo
  refine ⟨?_, ?_, ?_, ?_, ?_⟩
  · rwa [length_arrayEdges]
  · rw [← Pool.progstate_congr (hcount _ _ hedge),
      ← Pool.progstate_congr (hagree.mono (Nat.zero_le _) (Nat.le_refl _)),
      Pool.progstate_putProgstate]
  · apply LaidOut.imp hedges
    intro o e ho _ he
    have hrec := Pool.libcalls_congr (hcount o (o + sizeofRecord) (by omega))
    exact ⟨he.1, hrec.symm.trans he.2⟩
  · rw [Pool.header_setNumNodes, hheader, hnum]
  · exact (hlow.mono (Nat.zero_le _) (Nat.le_refl _)).trans (hcount _ _ (Nat.le_refl _))

theorem arrayEdges_arrays (es : List Edge) :
    arrayEdges (successorArray es) (libcallArray es) es.length = es := by
  apply List.ext_getElem?
  intro j
  cases hj : es[j]? with
  | none =>
    rw [List.getElem?_eq_none_iff] at hj ⊢
    rwa [length_arrayEdges]
  | some e =>
    have hlt := (List.getElem?_eq_some_iff.1 hj).1
    rw [arrayEdges, getElem?_range_map _ hlt, libcallArray, successorArray, hj]
    rfl

theorem Building.alloc (h : Building m p ns)
    (hfit : nodeTableOffset + extent Node.size (ns ++ [n]) ≤ memoryPoolSize) :
    ∃ L : Listing, 4096 ≤ L.slots ∧ ns.length < L.slots ∧
      (n.id.toNat < L.slots →
        ∃ m' p' node, allocSpec n m = (.ok node, m') ∧ Building m' p' (ns ++ [n])) ∧
      (L.slots ≤ n.id.toNat → (allocSpec n m).1 = .error (.outOfListing n.id.toNat)) := by
  have hlen := length_le_extent ns
  have hext : extent Node.size (ns ++ [n]) = extent Node.size ns + n.size := by
    rw [extent_append, extent_cons, extent_nil, Nat.add_zero]
  have hoff : nodeTableOffset + extent Node.size ns = m.poolEdge := h.poolEdge.symm
  rw [hext, ← Nat.add_assoc, hoff, Node.size] at hfit
  have hsmall : ns.length ≤ memoryPoolSize := by omega
  have hesmall : n.edges.length ≤ memoryPoolSize := by rw [sizeofRecord] at hfit; omega
  have hnum : p.numNodes = UInt64.ofNat ns.length := (Pool.numNodes_header h.header).2.2.1
  have hin : Inside m.poolEdge := by
    rw [Inside]
    omega
  obtain ⟨L, c, hgrow, hL, hroom⟩ :=
    Room.grow (m := { m with poolEdge := m.poolEdge + sizeofRecord }) h.room h.pool
      (by rw [hnum, toNat_ofNat_length hsmall])
  obtain ⟨hk, hroom⟩ := hroom (by rw [memoryPoolSize] at hsmall; omega)
  obtain ⟨q, hput, -, -⟩ := putEdges_edgesAt (m.poolEdge + sizeofRecord) 0 n.edges
    (p.putProgstate m.poolEdge ⟨nodeMagicNumber, n.id, toUnsignedLong n.edges.length⟩)
    (fun j e hj => arrays_of_getElem? hj) (by rw [Nat.zero_add]; omega)
  have hw := nodeWritten_of_putEdges (by omega) hin hput
  rw [arrayEdges_arrays] at hw
  have hnode : TableAt (q.setNumNodes (q.numNodes + 1)) m.poolEdge [n] := by
    refine ⟨⟨hin, ?_, ?_, ?_, hw.edges⟩, trivial⟩ <;> rw [hw.record]
    exact toNat_toUnsignedLong_natCast hesmall
  refine ⟨L, hL, hk, fun hid => ?_, allocSpec_outOfListing h.pool hgrow hin⟩
  refine ⟨_, _, _, allocSpec_eq h.pool hgrow hin hid hput, rfl, ?_, ?_, ?_, ?_⟩
  · rw [hw.header, h.header, hnum, List.length_append, List.length_singleton, UInt64.ofNat_add]
    rfl
  · refine laidOut_append.2 ⟨h.table.congr ?_, ?_⟩
    · rw [hoff]
      exact hw.below
    · rw [hoff]
      exact hnode
  · rw [hext, ← Nat.add_assoc, hoff]
  · rw [List.length_append, List.length_singleton]
    exact hroom _ (L.put_slots _ _)

/-- The calls of `alloc_node` for a list of nodes, one after another. -/
def allocNodes : List Node → MemGraph → Outcome MemGraph Unit
  | [], m => (.ok (), m)
  | n :: ns, m =>
    match allocSpec n m with
    | (.error h, m) => (.error h, m)
    | (.ok _, m) => allocNodes ns m

/-- An empty graph is started, the nodes are allocated, and the graph is finalized. -/
def buildGraph (build : Build) (ns : List Node) (m : MemGraph) : Outcome MemGraph Unit :=
  match initializeGraph build none 0 m with
  | (.error h, m) => (.error h, m)
  | (.ok (), m) =>
    match allocNodes ns m with
    | (.error h, m) => (.error h, m)
    | (.ok (), m) => finalizeGraph m

/-- Ids for which the listing always has a slot: small ones, or the number of the node. -/
def IdsInRoom (k : Nat) : List Node → Prop
  | [] => True
  | n :: ns => (n.id.toNat < 4096 ∨ n.id.toNat = k) ∧ IdsInRoom (k + 1) ns

theorem Building.allocNodes (h : Building m p ns)
    (hfit : nodeTableOffset + extent Node.size (ns ++ ns') ≤ memoryPoolSize)
    (hids : IdsInRoom ns.length ns') :
    ∃ m' p', allocNodes ns' m = (.ok (), m') ∧ Building m' p' (ns ++ ns') := by
  induction ns' generalizing m p ns with
  | nil => exact ⟨m, p, rfl, by rwa [List.append_nil]⟩
  | cons n ns' ih =>
    rw [List.append_cons] at hfit ⊢
    obtain ⟨hid, hids⟩ := hids
    obtain ⟨L, hL, hk, hok, -⟩ := h.alloc (n := n) (by rw [extent_append] at hfit; omega)
    obtain ⟨m₁, p₁, node, hm₁, h₁⟩ := hok (by omega)
    obtain ⟨m', p', hm', h'⟩ := ih h₁ hfit (by
      rw [List.length_append, List.length_singleton]
      exact hids)
    exact ⟨m', p', by simp only [LibcSandbox.allocNodes, hm₁, hm'], h'⟩

theorem Building.of_allocNodes (h : Building m p ns)
    (hfit : nodeTableOffset + extent Node.size (ns ++ ns') ≤ memoryPoolSize)
    (hok : LibcSandbox.allocNodes ns' m = (.ok (), m')) : ∃ p', Building m' p' (ns ++ ns') := by
  induction ns' generalizing m p ns with
  | nil =>
    cases hok
    exact ⟨p, by rwa [List.append_nil]⟩
  | cons n ns' ih =>
    rw [List.append_cons] at hfit ⊢
    obtain ⟨L, -, -, hlt, hle⟩ := h.alloc (n := n) (by rw [extent_append] at hfit; omega)
    by_cases hid : n.id.toNat < L.slots
    · obtain ⟨m₁, p₁, node, hm₁, h₁⟩ := hlt hid
      simp only [LibcSandbox.allocNodes, hm₁] at hok
      exact ih h₁ hfit hok
    · have he := hle (Nat.not_lt.1 hid)
      rw [LibcSandbox.allocNodes] at hok
      generalize allocSpec n m = x at he hok
      obtain ⟨r, m₁⟩ := x
      cases he
      cases hok

/-- A finished graph in a pool, its table behind the metadata. -/
structure Built (p : Pool) (ns : List Node) : Prop where
  header : p.header =
    ⟨1, graphMetaMagicNumber, UInt64.ofNat ns.length, UInt64.ofNat nodeTableOffset⟩
  table : TableAt p nodeTableOffset ns

theorem initializeGraph_empty (build : Build) {m : MemGraph} (hp : m.pool = none)
    (hc : m.numNodesListings = 0) :
    ∃ m', initializeGraph build none 0 m = (.ok (), m') ∧ Building m' emptyPool [] := by
  have hfill : fill emptyPool 0 0 = emptyPool := by
    funext i
    simp only [fill, Nat.not_lt_zero, ↓reduceIte]
  refine ⟨{ createPool m with pool := some emptyPool, nodes := none }, ?_, rfl, ?_, trivial, rfl,
    ?_⟩
  · simp only [initializeGraph, hp, initializePool, hfill, Nat.not_lt_zero, ↓reduceIte]
  · rw [header_emptyPool]
    rfl
  · simp only [createPool, hc, List.length_nil]
    exact .unallocated

theorem Building.finalizeGraph (h : Building m p ns) :
    finalizeGraph m = (.ok (), { m with pool := some (p.setGraphFinalized 1) }) ∧
      Built (p.setGraphFinalized 1) ns := by
  refine ⟨by simp only [LibcSandbox.finalizeGraph, h.pool], ?_, ?_⟩
  · rw [Pool.header_setGraphFinalized, h.header]
  · exact h.table.congr (p.setGraphFinalized_agree 1 (.inr (by decide)))

theorem buildGraph_built (build : Build) {m : MemGraph} (hp : m.pool = none)
    (hc : m.numNodesListings = 0)
    (hfit : nodeTableOffset + extent Node.size ns ≤ memoryPoolSize) (hids : IdsInRoom 0 ns) :
    ∃ m' p, buildGraph build ns m = (.ok (), m') ∧ m'.pool = some p ∧ Built p ns ∧
      Room m'.nodes m'.numNodesListings ns.length := by
  obtain ⟨m₁, hm₁, h₁⟩ := initializeGraph_empty build hp hc
  obtain ⟨m₂, p₂, hm₂, h₂⟩ := h₁.allocNodes hfit hids
  rw [List.nil_append] at h₂
  obtain ⟨hm₃, h₃⟩ := h₂.finalizeGraph
  refine ⟨{ m₂ with pool := some (p₂.setGraphFinalized 1) }, _, ?_, rfl, h₃, h₂.room⟩
  simp only [buildGraph, hm₁, hm₂, hm₃]

theorem built_of_buildGraph {m : MemGraph} (hp : m.pool = none) (hc : m.numNodesListings = 0)
    (hfit : nodeTableOffset + extent Node.size ns ≤ memoryPoolSize)
    (hok : buildGraph build ns m = (.ok (), m')) : ∃ p, m'.pool = some p ∧ Built p ns := by
  obtain ⟨m₁, hm₁, h₁⟩ := initializeGraph_empty build hp hc
  simp only [buildGraph, hm₁] at hok
  cases ha : allocNodes ns m₁ with
  | mk r m₂ =>
    cases r with
    | error e =>
      simp only [ha] at hok
      cases hok
    | ok u =>
      obtain ⟨p₂, h₂⟩ := h₁.of_allocNodes hfit ha
      obtain ⟨hm₃, h₃⟩ := h₂.finalizeGraph
      simp only [ha, hm₃, Prod.mk.injEq, true_and] at hok
      exact ⟨_, by rw [← hok], h₃⟩

theorem Built.length_le (h : Built p ns) : ns.length ≤ memoryPoolSize := by
  have hend := h.table.end_le (by decide)
  have hlen := length_le_extent ns
  omega

theorem Built.numNodes (h : Built p ns) : p.numNodes.toNat = ns.length := by
  rw [(Pool.numNodes_header h.header).2.2.1, toNat_ofNat_length h.length_le]

theorem Built.tableOffset (h : Built p ns) : p.nodesTableOffset.toNat = nodeTableOffset := by
  rw [(Pool.numNodes_header h.header).2.2.2]
  rfl

theorem Built.headerOk (h : Built p ns) : HeaderOk p := by
  obtain ⟨hf, hm, -⟩ := Pool.numNodes_header h.header
  refine ⟨?_, hm⟩
  rw [hf]
  decide

theorem Built.table_eq (h : Built p ns) : p.table = ns := by
  have ht := h.table
  rw [← h.tableOffset] at ht
  exact ht.table h.numNodes.symm

/-- A copy of the bytes up to the end of the table is as good as the original. -/
theorem Built.copy (h : Built p ns) (ha : AgreeOn p data 0 size)
    (hfit : nodeTableOffset + extent Node.size ns ≤ size) (q : Pool) :
    Built (copy q data size) ns := by
  have hc (lo hi : Nat) (hhi : hi ≤ size) : AgreeOn p (Library.copy q data size) lo hi :=
    (ha.mono (Nat.zero_le lo) hhi).trans (copy_agree_data hhi).symm
  exact ⟨(Pool.header_congr (hc _ _ (by omega))).symm.trans h.header,
    h.table.congr (hc _ _ hfit)⟩

/-- A built graph passes `verify_graph` and is then loaded, given a listing that is large enough. -/
theorem Built.verifyGraph {m : MemGraph} (h : Built p ns) (hp : m.pool = some p)
    (hs : ns.length ≤ (m.listingFor p).slots) :
    ∃ m', verifyGraph m = (.ok 1, m') ∧ Loaded m' p ns ∧
      m' = { m with nodes := some ((m.listingFor p).putTable 0 nodeTableOffset ns) } := by
  have ht := h.table
  rw [← h.tableOffset] at ht
  have hv := verifyGraph_eq_one_iff.2 ⟨p, ns, hp, h.headerOk, ht, h.numNodes.symm, hs, rfl⟩
  obtain ⟨q, hq, -, hl⟩ := loaded_of_verifyGraph hv
  cases hp.symm.trans hq
  rw [h.table_eq] at hl
  rw [h.tableOffset] at hv hl
  exact ⟨_, hv, hl, rfl⟩

theorem malloc_slots (h : (n : UInt64).toNat ≤ memoryPoolSize) :
    (Listing.malloc n).slots = n.toNat := by
  rw [memoryPoolSize] at h
  have hm : (8 * n).toNat = 8 * n.toNat := by
    rw [UInt64.toNat_mul]
    exact Nat.mod_eq_of_lt (by rw [show (8 : UInt64).toNat = 8 from rfl]; omega)
  rw [Listing.malloc, hm, Nat.mul_div_cancel_left _ (by decide)]

theorem Built.malloc_slots (h : Built p ns) : (Listing.malloc p.numNodes).slots = ns.length := by
  have hlen := h.length_le
  rw [LibcSandbox.malloc_slots (by rw [h.numNodes]; omega), h.numNodes]

end LibcSandbox
