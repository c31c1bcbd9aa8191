import LibcSandbox.MemGraph.Build

namespace LibcSandbox
open Library
set_option autoImplicit true

/-- The arguments of a call of `alloc_node`, with any `int` as the number of successors. -/
structure AllocCall where
  id : UInt64
  numSuccessors : Int
  successorNodeList : Nat → UInt64
  libcallList : Nat → UInt64
  isInt : -2 ^ 31 ≤ numSuccessors ∧ numSuccessors < 2 ^ 31

/-- The bytes by which the call moves the cursor. -/
def AllocCall.size (c : AllocCall) : Nat := sizeofRecord + c.numSuccessors.toNat * sizeofRecord

def AllocCall.run (c : AllocCall) (m : MemGraph) : Outcome MemGraph Nat :=
  allocNode c.id c.numSuccessors c.successorNodeList c.libcallList m

/-- A call for a node without edges. -/
def AllocCall.leaf (k : UInt64) : AllocCall := ⟨k, 0, fun _ => 0, fun _ => 0, by decide⟩

theorem AllocCall.toNat_numSuccessors (c : AllocCall)
    (h : (toUnsignedLong c.numSuccessors).toNat < 2 ^ 32) :
    (toUnsignedLong c.numSuccessors).toNat = c.numSuccessors.toNat := by
  obtain ⟨hlo, hhi⟩ := c.isInt
  rw [toNat_toUnsignedLong] at h ⊢
  omega

theorem growListings_ok (hok : growListings m = (.ok L, m')) :
    ∃ c, m' = { m with nodes := some L, numNodesListings := c } := by
  cases hn : m.nodes with
  | none =>
    simp only [growListings, hn, Prod.mk.injEq, Except.ok.injEq] at hok
    exact ⟨m.numNodesListings, by rw [← hok.2, ← hok.1]⟩
  | some L₀ =>
    cases hp : m.pool with
    | none =>
      simp only [growListings, hn, hp] at hok
      cases hok
    | some p =>
      by_cases hle : m.numNodesListings ≤ p.numNodes
      · rw [growListings_grow hn hp hle, Prod.mk.injEq, Except.ok.injEq] at hok
        exact ⟨_, by rw [← hok.2, ← hok.1, hp]⟩
      · rw [growListings_keep hn hp hle, Prod.mk.injEq, Except.ok.injEq] at hok
        refine ⟨m.numNodesListings, ?_⟩
        rw [← hok.2, ← hok.1, ← hp, ← hn]

theorem allocNode_pool {m m' : MemGraph} {k : UInt64}
    (hok : allocNode k num s l m = (.ok node, m')) : ∃ p, m.pool = some p := by
  cases hp : m.pool with
  | some p => exact ⟨p, rfl⟩
  | none => cases hn : m.nodes <;> simp [allocNode, growListings, hp, hn] at hok

/-- What a call of `alloc_node` that returns has done, whatever its arguments were. -/
theorem allocNode_ok {m m' : MemGraph} {k : UInt64} (hedge : nodeTableOffset ≤ m.poolEdge)
    (hok : allocNode k num s l m = (.ok node, m')) :
    ∃ p q L c, m.pool = some p ∧ node = m.poolEdge ∧
      growListings { m with poolEdge := m.poolEdge + sizeofRecord } =
        (.ok L, { m with
          poolEdge := m.poolEdge + sizeofRecord, nodes := some L, numNodesListings := c }) ∧
      k.toNat < L.slots ∧
      NodeWritten p q node ⟨nodeMagicNumber, k, toUnsignedLong num⟩ (arrayEdges s l num.toNat) ∧
      m' = { m with
        pool := some q
        poolEdge := node + sizeofRecord + num.toNat * sizeofRecord
        nodes := some (L.put k.toNat node)
        numNodesListings := c } := by
  cases hg : growListings { m with poolEdge := m.poolEdge + sizeofRecord } with
  | mk r m₁ =>
    cases r with
    | error h =>
      simp only [allocNode, hg] at hok
      cases hok
    | ok L =>
      obtain ⟨c, rfl⟩ := growListings_ok hg
      obtain ⟨pool, poolEdge, nodes, n, current, start⟩ := m
      cases pool with
      | none =>
        simp only [allocNode, hg] at hok
        cases hok
      | some p =>
        by_cases hin : Inside poolEdge
        · by_cases hid : k.toNat < L.slots
          · simp only [allocNode, hg, hin, not_true_eq_false, ↓reduceIte,
              Listing.write_eq_ok hid] at hok
            cases hput : putEdges (poolEdge + sizeofRecord) l s
              (p.putProgstate poolEdge ⟨nodeMagicNumber, k, toUnsignedLong num⟩) 0 num.toNat with
            | mk r q =>
              cases r with
              | error h =>
                simp only [hput] at hok
                cases hok
              | ok u =>
                simp only [hput] at hok
                cases hok
                exact ⟨p, _, L, c, rfl, rfl, rfl, hid, nodeWritten_of_putEdges hedge hin hput, rfl⟩
          · simp only [allocNode, hg, hin, not_true_eq_false, ↓reduceIte,
              Listing.write_eq_error (Nat.not_lt.1 hid)] at hok
            cases hok
        · simp only [allocNode, hg, hin, not_false_eq_true, ↓reduceIte] at hok
          cases hok

end LibcSandbox
