import LibcSandbox.MemGraph.RoundTrip

namespace LibcSandbox
open Library
set_option autoImplicit true

/-- A buffer that was written by `alloc_node` and `finalize_graph`, as far as its size reaches. -/
structure GraphBuffer where
  data : Bytes
  size : Nat
  nodes : List Node
  fits : nodeTableOffset + extent Node.size nodes ≤ size
  size_le : size ≤ memoryPoolSize
  produced : ∃ m p, buildGraph .user nodes MemGraph.initial = (.ok (), m) ∧ m.pool = some p ∧
    AgreeOn p data 0 size

def GraphBuffer.numNodes (b : GraphBuffer) : Nat := b.nodes.length

theorem GraphBuffer.size_pos (b : GraphBuffer) : 0 < b.size :=
  Nat.lt_of_lt_of_le (by decide) (Nat.le_trans (Nat.le_add_right _ _) b.fits)

/-- Whatever a pool held before, it holds the graph once the buffer was copied into it. -/
theorem GraphBuffer.built (b : GraphBuffer) (q : Pool) : Built (copy q b.data b.size) b.nodes := by
  obtain ⟨m, p, hm, hp, ha⟩ := b.produced
  obtain ⟨p', hp', hb⟩ :=
    built_of_buildGraph rfl rfl (Nat.le_trans b.fits b.size_le) hm
  cases hp.symm.trans hp'
  exact hb.copy ha b.fits q

/-- The whole pool after a graph was built in it. -/
def GraphBuffer.ofSpecs (specs : List (List Edge))
    (hfit : nodeTableOffset + specsSize specs ≤ memoryPoolSize) : GraphBuffer where
  data := (buildGraph .user (numbered specs) MemGraph.initial).2.pool.getD emptyPool
  size := memoryPoolSize
  nodes := numbered specs
  fits := by rwa [extent_numbered]
  size_le := Nat.le_refl _
  produced := by
    obtain ⟨m, p, hm, hp, -⟩ := buildGraph_numbered .user specs hfit
    exact ⟨m, p, hm, hp, by simp only [hm, hp, Option.getD_some]; exact .refl _ _ _⟩

/-- The slots of the listing that a load of `n` nodes finds or makes. -/
def MemGraph.slotsFor (m : MemGraph) (n : Nat) : Nat := (m.nodes.map Listing.slots).getD n

theorem GraphBuffer.listingFor_slots (b : GraphBuffer) (m : MemGraph) :
    ((m.copied b.data b.size).listingFor (copy (m.pool.getD emptyPool) b.data b.size)).slots =
      m.slotsFor b.numNodes := by
  rw [MemGraph.listingFor, MemGraph.copied_nodes, MemGraph.slotsFor]
  cases m.nodes with
  | none => exact (b.built _).malloc_slots
  | some L => rfl

/-- A graph with at most as many nodes as there are slots is loaded, and the slots stay. -/
theorem GraphBuffer.load (b : GraphBuffer) (build : Build) (m : MemGraph)
    (h : b.numNodes ≤ m.slotsFor b.numNodes) :
    ∃ m' p, initializeGraph build (some b.data) b.size m = (.ok (), m') ∧
      Built p b.nodes ∧ Loaded m' p b.nodes ∧
      m'.nodes.map Listing.slots = some (m.slotsFor b.numNodes) := by
  obtain ⟨m', hv, hl, hm'⟩ := (b.built _).verifyGraph (m.copied_pool b.data b.size) (by
    rwa [b.listingFor_slots])
  refine ⟨m', _, ?_, b.built _, hl, ?_⟩
  · simp only [initializeGraph_copied b.size_pos b.size_le, verifyLoaded, hv, ne_eq,
      not_true_eq_false, ↓reduceIte]
  · rw [hm', Option.map_some, Listing.putTable_slots, b.listingFor_slots]

theorem GraphBuffer.load_outOfListing (b : GraphBuffer) (build : Build) (m : MemGraph)
    (h : m.slotsFor b.numNodes < b.numNodes) :
    (initializeGraph build (some b.data) b.size m).1 =
      .error (.outOfListing (m.slotsFor b.numNodes)) := by
  have hb := b.built (m.pool.getD emptyPool)
  have ht := hb.table
  have hs := b.listingFor_slots m
  rw [← hb.tableOffset] at ht
  have hlen : (b.nodes.take (m.slotsFor b.numNodes)).length = m.slotsFor b.numNodes :=
    List.length_take_of_le (Nat.le_of_lt h)
  have hshort : (b.nodes.take (m.slotsFor b.numNodes)).length <
      (Pool.numNodes (copy (m.pool.getD emptyPool) b.data b.size)).toNat := by
    rw [hlen, hb.numNodes]
    exact h
  have hrun := WalkEnds.verifyGraph (m.copied_pool b.data b.size) hb.headerOk
    (.outOfListing _ hshort (ht.take _) (by rw [hlen, hs, Nat.zero_add]))
  rw [initializeGraph_copied b.size_pos b.size_le, verifyLoaded, hrun, hs]

/-- Loads without a call of `destroy_graph` between them, up to the first that does not return. -/
def loads (build : Build) : List GraphBuffer → MemGraph → Outcome MemGraph Unit
  | [], m => (.ok (), m)
  | b :: bs, m =>
    match initializeGraph build (some b.data) b.size m with
    | (.error h, m) => (.error h, m)
    | (.ok (), m) => loads build bs m

theorem loads_slots (bs : List GraphBuffer) (m : MemGraph)
    (hm : m.nodes.map Listing.slots = some slots) :
    (∀ i, (loads build bs m).1 ≠ .error (.outOfListing i)) ↔ ∀ b ∈ bs, b.numNodes ≤ slots := by
  induction bs generalizing m with
  | nil => simp [loads]
  | cons b bs ih =>
    have hs : m.slotsFor b.numNodes = slots := by rw [MemGraph.slotsFor, hm, Option.getD_some]
    rw [List.forall_mem_cons]
    by_cases hle : b.numNodes ≤ slots
    · obtain ⟨m', p, hm', -, -, hs'⟩ := b.load build m (by rwa [hs])
      rw [hs] at hs'
      simp only [loads, hm', ih m' hs', hle, true_and]
    · have he := b.load_outOfListing build m (by rw [hs]; omega)
      have hl : (loads build (b :: bs) m).1 = .error (.outOfListing slots) := by
        have hrun : initializeGraph build (some b.data) b.size m = (_, _) := Prod.ext he rfl
        rw [loads, hrun, hs]
      apply Iff.intro
      · intro h
        exact (h slots hl).elim
      · intro hx
        obtain ⟨h, -⟩ := hx
        exact (hle h).elim

/-- No load of a run writes past the end of the listing if and only if none brings more nodes
than the first one. -/
theorem loads_inListing_iff (build : Build) (bs : List GraphBuffer) :
    (∀ i, (loads build bs MemGraph.initial).1 ≠ .error (.outOfListing i)) ↔
      ∀ first ∈ bs.head?, ∀ b ∈ bs, b.numNodes ≤ first.numNodes := by
  cases bs with
  | nil => simp [loads]
  | cons b bs =>
    obtain ⟨m, p, hm, -, -, hs⟩ := b.load build MemGraph.initial (Nat.le_refl _)
    have hrun : loads build (b :: bs) MemGraph.initial = loads build bs m := by
      simp only [loads, hm]
    have hfirst : MemGraph.initial.slotsFor b.numNodes = b.numNodes := rfl
    rw [hfirst] at hs
    rw [hrun, loads_slots bs m hs]
    simp

/-- A graph of one node and then one of two. -/
def growingLoads : List GraphBuffer :=
  [.ofSpecs [[⟨7, 0⟩]] (by decide), .ofSpecs [[⟨7, 1⟩], [⟨8, 1⟩]] (by decide)]

theorem growingLoads_outOfListing :
    ¬∀ (bs : List GraphBuffer) (i : Nat),
      (loads .kernel bs MemGraph.initial).1 ≠ .error (.outOfListing i) := by
  intro h
  apply h growingLoads 1
  decide +kernel

end LibcSandbox
