import LibcSandbox.MemGraph.Bounds

namespace LibcSandbox
open Library
set_option autoImplicit true

variable {p : Pool} {L : Listing} {m : MemGraph}

/-- The indices of `nodes` that the walk of `verify_graph` writes to before it stops, whatever
the size of the listing. -/
def verifyWrites (p : Pool) (i startNode : Nat) : (remaining : Nat) → List Nat
  | 0 => []
  | remaining + 1 =>
    i ::
      if ¬Inside startNode ∨ (p.progstate startNode).magic ≠ nodeMagicNumber then []
      else
        let libcalls := startNode + sizeofRecord
        match verifyEdges p libcalls 0 libcalls (p.progstate startNode).numLibcalls.toNat with
        | .done startNode => verifyWrites p (i + 1) startNode remaining
        | _ => []

/-- The size of a new listing in bytes, a product of 64 bits. -/
def listingBytes (p : Pool) : Nat := (8 * p.numNodes).toNat

/-- The bytes that are allocated for it, by whether `MALLOC` finds the memory. -/
def allocatedBytes (p : Pool) (mallocOk : Bool) : Nat := if mallocOk then listingBytes p else 0

/-- `verify_graph` where the listing has to be allocated and `MALLOC` may fail. The null pointer
is not looked at, and the first node is written through it. -/
def verifyGraphAlloc (mallocOk : Bool) (m : MemGraph) : Outcome MemGraph Int :=
  match m.pool with
  | none => (.ok errorInvalidGraph, m)
  | some p =>
    if p.graphFinalized = 0 then (.ok errorInvalidState, m)
    else if p.magic ≠ graphMetaMagicNumber then (.ok errorInvalidGraph, m)
    else if m.nodes.isNone ∧ ¬mallocOk then
      if p.numNodes = 0 then (.ok 1, m) else (.error .nullPointer, m)
    else verifyGraph m

@[simp] theorem verifyGraphAlloc_true (m : MemGraph) :
    verifyGraphAlloc true m = verifyGraph m := by
  cases hp : m.pool with
  | none => simp only [verifyGraphAlloc, verifyGraph, hp]
  | some p =>
    by_cases hf : p.graphFinalized = 0
    · simp only [verifyGraphAlloc, verifyGraph, hp, hf, ↓reduceIte]
    · by_cases hm : p.magic = graphMetaMagicNumber
      · simp [verifyGraphAlloc, hp, hf, hm]
      · simp [verifyGraphAlloc, verifyGraph, hp, hf, hm]

/-- The product is that of the two numbers, and every write lies in the allocation. -/
structure ListingSized (m : MemGraph) (p : Pool) (mallocOk : Bool) : Prop where
  product : listingBytes p = 8 * p.numNodes.toNat
  writes : ∀ i ∈ verifyWrites p 0 p.nodesTableOffset.toNat p.numNodes.toNat,
    (i + 1) * 8 ≤ allocatedBytes p mallocOk
  notNull : (verifyGraphAlloc mallocOk m).1 ≠ .error .nullPointer
  inListing : ∀ i, (verifyGraphAlloc mallocOk m).1 ≠ .error (.outOfListing i)

theorem verifyNodes_inListing_iff :
    (∀ k, (verifyNodes p L i s n).1 ≠ .error (.outOfListing k)) ↔
      ∀ j ∈ verifyWrites p i s n, j < L.slots := by
  induction n generalizing L i s with
  | zero => simp [verifyNodes, verifyWrites]
  | succ n ih =>
    rw [verifyWrites, List.forall_mem_cons]
    by_cases hi : i < L.slots
    · rw [and_iff_right hi]
      by_cases hin : Inside s
      · by_cases hm : (p.progstate s).magic = nodeMagicNumber
        · simp only [verifyNodes, Listing.write_eq_ok hi, hin, hm, not_true_eq_false, ne_eq,
            or_self, ↓reduceIte]
          cases he : verifyEdges p (s + sizeofRecord) 0 (s + sizeofRecord)
            (p.progstate s).numLibcalls.toNat with
          | done s' => exact ih
          | stop code => simp
          | halt h =>
            obtain ⟨o, rfl⟩ := verifyEdges_halt he
            simp
        · simp [verifyNodes, Listing.write_eq_ok hi, hin, hm]
      · simp [verifyNodes, Listing.write_eq_ok hi, hin]
    · rw [verifyNodes_outOfListing (Nat.not_lt.1 hi)]
      apply Iff.intro
      · intro h
        exact absurd rfl (h i)
      · intro h
        exact absurd h.1 hi

theorem verifyWrites_lt (hj : j ∈ verifyWrites p i s n) : j < i + n := by
  induction n generalizing i s with
  | zero => cases hj
  | succ n ih =>
    simp only [verifyWrites, List.mem_cons] at hj
    rcases hj with rfl | hj
    · omega
    · split at hj
      next => cases hj
      next =>
        split at hj
        next =>
          have hlt := ih hj
          omega
        next => cases hj

theorem listingBytes_eq_iff (p : Pool) :
    listingBytes p = 8 * p.numNodes.toNat ↔ p.numNodes.toNat < 2 ^ 61 := by
  have height : (8 : UInt64).toNat = 8 := rfl
  rw [listingBytes, UInt64.toNat_mul, height]
  omega

theorem verifyNodes_ne_nullPointer (p : Pool) (L : Listing) (i s n : Nat) :
    (verifyNodes p L i s n).1 ≠ .error .nullPointer := by
  induction n generalizing L i s with
  | zero => simp [verifyNodes]
  | succ n ih =>
    rcases Nat.lt_or_ge i L.slots with hi | hi
    · rcases node_cases p s with ⟨a, ha⟩ | ⟨x, hx⟩
      · rw [verifyNodes_nodeAt ha hi]
        exact ih _ _ _
      · rw [verifyNodes_nodeFails hx hi]
        cases hx <;> simp
    · rw [verifyNodes_outOfListing hi]
      simp

theorem verifyGraphAlloc_false (hn : m.nodes = none) (hp : m.pool = some p) (hh : HeaderOk p) :
    verifyGraphAlloc false m =
      if p.numNodes = 0 then (.ok 1, m) else (.error .nullPointer, m) := by
  simp [verifyGraphAlloc, hp, hh.finalized, hh.magic, hn]

theorem listingSized_true (hn : m.nodes = none) (hp : m.pool = some p) (hh : HeaderOk p)
    (hlt : p.numNodes.toNat < 2 ^ 61) : ListingSized m p true := by
  have hbytes := (listingBytes_eq_iff p).2 hlt
  have hwrites : ∀ i ∈ verifyWrites p 0 p.nodesTableOffset.toNat p.numNodes.toNat,
      (i + 1) * 8 ≤ listingBytes p := by
    intro i hi
    have hi := verifyWrites_lt hi
    omega
  have hslots : (m.listingFor p).slots = listingBytes p / 8 := by
    rw [MemGraph.listingFor, hn, Option.getD_none, Listing.malloc, listingBytes]
  refine ⟨hbytes, hwrites, ?_, ?_⟩
  · rw [verifyGraphAlloc_true, verifyGraph_headerOk hp hh]
    exact verifyNodes_ne_nullPointer _ _ _ _ _
  · rw [verifyGraphAlloc_true, verifyGraph_headerOk hp hh]
    apply verifyNodes_inListing_iff.2
    intro i hi
    have hi := hwrites i hi
    rw [hslots]
    omega

theorem listingSized_false_iff (hn : m.nodes = none) (hp : m.pool = some p) (hh : HeaderOk p) :
    ListingSized m p false ↔ p.numNodes = 0 := by
  have hrun := verifyGraphAlloc_false hn hp hh
  apply Iff.intro
  · intro hx
    by_contra hne
    rw [if_neg hne] at hrun
    exact hx.notNull (by rw [hrun])
  · intro hzero
    have hcount : p.numNodes.toNat = 0 := by rw [hzero]; rfl
    rw [if_pos hzero] at hrun
    refine ⟨(listingBytes_eq_iff p).2 (by omega), ?_, by rw [hrun]; simp, by rw [hrun]; simp⟩
    rw [hcount, verifyWrites]
    exact List.forall_mem_nil _

/-- Where there is no listing yet, the one that is allocated for a finalized graph has the size
that is meant, and room for the walk, if and only if the number of nodes is below `2 ^ 61` and
there is memory for it, or no node. -/
theorem listingSized_iff (m : MemGraph) (p : Pool) (mallocOk : Bool) (hn : m.nodes = none)
    (hp : m.pool = some p) (hh : HeaderOk p) :
    ListingSized m p mallocOk ↔
      p.numNodes.toNat < 2 ^ 61 ∧ (mallocOk = true ∨ p.numNodes = 0) := by
  cases mallocOk with
  | true =>
    rw [and_iff_left (.inl rfl)]
    apply Iff.intro
    · intro hx
      exact (listingBytes_eq_iff p).1 hx.product
    · exact listingSized_true hn hp hh
  | false =>
    rw [listingSized_false_iff hn hp hh]
    apply Iff.intro
    · intro hzero
      exact ⟨by rw [hzero]; decide, .inr hzero⟩
    · intro hx
      exact hx.2.resolve_left Bool.false_ne_true

/-- A finalized graph that claims to have `2 ^ 61` nodes. -/
def hugeGraph : MemGraph :=
  { MemGraph.initial with pool := some ((emptyPool.setGraphFinalized 1).setNumNodes 0x2000000000000000) }

/-- Its listing is allocated without a byte, and the first node is written past its end. -/
theorem hugeGraph_outOfListing :
    ¬∀ m p, m.nodes = none → m.pool = some p → HeaderOk p → ListingSized m p true := by
  intro h
  have hx := h hugeGraph _ rfl rfl ⟨by decide +kernel, by decide +kernel⟩
  apply hx.inListing 0
  decide +kernel

/-- The listing of a graph of one node has a slot for it. -/
theorem oneNodeGraph_listingSized :
    verifyWrites oneNodePool 0 88 1 = [0] ∧
      ListingSized { MemGraph.initial with pool := some oneNodePool } oneNodePool true :=
  ⟨by decide +kernel, (listingSized_iff _ _ true rfl rfl oneNodePool_wellFormed.header).2
    ⟨by decide +kernel, .inl rfl⟩⟩

end LibcSandbox
