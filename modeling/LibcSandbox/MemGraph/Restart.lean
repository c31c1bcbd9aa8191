import LibcSandbox.MemGraph.Reached
import LibcSandbox.MemGraph.Language

namespace LibcSandbox
open Library
set_option autoImplicit true

variable {m : MemGraph}

/-- After an empty `initialize_graph` the graph is not finalized and has no nodes, and whatever
nodes fit the pool can be built in it and are what `verify_graph` then accepts. -/
def StartsEmpty (m : MemGraph) : Prop :=
  ∃ m₀, initializeGraph .user none 0 m = (.ok (), m₀) ∧
    ∃ p, m₀.pool = some p ∧ p.graphFinalized = 0 ∧ p.numNodes = 0 ∧
      ∀ specs, nodeTableOffset + specsSize specs ≤ memoryPoolSize →
        ∃ m₁ m₂ m₃ p', allocNodes (numbered specs) m₀ = (.ok (), m₁) ∧
          finalizeGraph m₁ = (.ok (), m₂) ∧ verifyGraph m₂ = (.ok 1, m₃) ∧
          Loaded m₃ p' (numbered specs)

/-- The state that an empty `initialize_graph` leaves. -/
def MemGraph.restarted (m : MemGraph) : MemGraph :=
  { m with pool := some (m.pool.getD emptyPool), poolEdge := m.cursor, nodes := none }

theorem initializeGraph_restarted (m : MemGraph) :
    initializeGraph .user none 0 m = (.ok (), m.restarted) := by
  rw [initializeGraph, MemGraph.restarted, MemGraph.cursor]
  cases hp : m.pool with
  | none =>
    simp only [initializePool, createPool, fill_zero, Nat.not_lt_zero, ↓reduceIte,
      Option.getD_none, Option.isSome_none, Bool.false_eq_true]
  | some p =>
    simp only [initializePool, fill_zero, Nat.not_lt_zero, ↓reduceIte, Option.getD_some,
      Option.isSome_some]

/-- The first node is allocated without a look at the size of the listing. -/
theorem allocSpec_listings (hn : m.nodes = none) (c : UInt64) (n : Node) :
    allocSpec n { m with numNodesListings := c } =
      ((allocSpec n m).1, { (allocSpec n m).2 with numNodesListings := c }) := by
  simp only [allocSpec, allocNode, growListings, hn]
  cases m.pool with
  | none => rfl
  | some p =>
    by_cases hin : Inside m.poolEdge
    · simp only [hin, not_true_eq_false, ↓reduceIte]
      cases Listing.write (.malloc defaultNumberOfNodesListings) n.id.toNat m.poolEdge with
      | error h => rfl
      | ok nodes =>
        generalize putEdges _ _ _ _ _ _ = x
        obtain ⟨r, q⟩ := x
        cases r <;> rfl
    · simp only [hin, not_false_eq_true, ↓reduceIte]

/-- An empty graph whose listing was never counted, or counted as large as the first allocation
makes it, is built like a fresh one. -/
theorem Building.allocNodes_restarted (h : Building { m with numNodesListings := 0 } p [])
    (hn : m.nodes = none) (hc : m.numNodesListings = 0 ∨ m.numNodesListings = 4096)
    (hfit : nodeTableOffset + extent Node.size ns ≤ memoryPoolSize) (hids : IdsInRoom 0 ns) :
    ∃ m' p' c, LibcSandbox.allocNodes ns m = (.ok (), m') ∧
      Building { m' with numNodesListings := c } p' ns := by
  cases ns with
  | nil => exact ⟨m, p, 0, rfl, h⟩
  | cons n ns =>
    obtain ⟨hid, hids⟩ := hids
    obtain ⟨L, hL, hk, hok, -⟩ := h.alloc (n := n) (by
      rw [extent_cons] at hfit
      rw [List.nil_append, extent_cons, extent_nil]
      omega)
    obtain ⟨m₁, p₁, node, hm₁, h₁⟩ := hok (by omega)
    have hzero := allocSpec_listings (m := { m with numNodesListings := 0 }) hn 0 n
    have hmine := allocSpec_listings (m := { m with numNodesListings := 0 }) hn
      m.numNodesListings n
    rw [hm₁] at hzero hmine
    have hcount : m₁.numNodesListings = 0 := congrArg (fun x => x.2.numNodesListings) hzero
    have h₁' : Building { m₁ with numNodesListings := m.numNodesListings } p₁ [n] := by
      refine ⟨h₁.pool, h₁.header, h₁.table, h₁.poolEdge, ?_⟩
      have hroom := h₁.room
      rw [hcount] at hroom
      cases hc with
      | inl hc =>
        rw [hc]
        exact hroom
      | inr hc =>
        rw [hc]
        show Room m₁.nodes 4096 1
        generalize m₁.nodes = nodes at hroom
        cases hroom with
        | uncounted hs => exact .counted (by omega) (by omega) hs.symm (by omega)
        | counted hlo _ hs _ => exact absurd hs (by
            rw [show (0 : UInt64).toNat = 0 from rfl]
            omega)
    have hfit : nodeTableOffset + extent Node.size ([n] ++ ns) ≤ memoryPoolSize := hfit
    obtain ⟨m', p', hm', h'⟩ := h₁'.allocNodes hfit hids
    refine ⟨m', p', m'.numNodesListings, ?_, h'⟩
    simp only [LibcSandbox.allocNodes]
    rw [show allocSpec n m = _ from hmine]
    exact hm'

theorem ReachedOk.building (h : ReachedOk m)
    (hp : ∀ p, m.pool = some p → Unfinished p ∧ p.numNodes = 0) :
    Building { m.restarted with numNodesListings := 0 } (m.pool.getD emptyPool) [] := by
  refine ⟨rfl, ?_, trivial, ?_, .unallocated⟩
  · cases hpool : m.pool with
    | none => exact header_emptyPool
    | some p =>
      obtain ⟨hu, hnum⟩ := hp p hpool
      rw [Option.getD_some, Pool.header, hu.finalized, hu.magic, hnum, h.tableOffset p hpool hu]
      rfl
  · rw [extent_nil, MemGraph.restarted]
    cases hpool : m.pool with
    | none =>
      rw [MemGraph.cursor, hpool]
      rfl
    | some p =>
      obtain ⟨hu, hnum⟩ := hp p hpool
      exact (MemGraph.cursor_some hpool).trans (h.empty p hpool hu hnum)

theorem ReachedOk.startsEmpty (h : ReachedOk m)
    (hp : ∀ p, m.pool = some p → Unfinished p ∧ p.numNodes = 0)
    (hc : m.numNodesListings ≤ 4096) : StartsEmpty m := by
  have hb := h.building hp
  obtain ⟨hf, -, hnum, -⟩ := Pool.numNodes_header hb.header
  have hcount : m.numNodesListings = 0 ∨ m.numNodesListings = 4096 := by
    have hmod := h.listings
    rw [UInt64.le_iff_toNat_le, show (4096 : UInt64).toNat = 4096 from rfl] at hc
    rw [← UInt64.toNat_inj, ← UInt64.toNat_inj, show (4096 : UInt64).toNat = 4096 from rfl,
      show (0 : UInt64).toNat = 0 from rfl]
    omega
  refine ⟨m.restarted, initializeGraph_restarted m, _, rfl, hf, hnum, fun specs hfit => ?_⟩
  have hsize := length_le_specsSize specs
  have hids : IdsInRoom 0 (numbered specs) := idsInRoom_numbered (by omega)
  rw [← extent_numbered] at hfit
  obtain ⟨m₁, p₁, c, hm₁, h₁⟩ := hb.allocNodes_restarted rfl hcount hfit hids
  obtain ⟨-, hbuilt⟩ := h₁.finalizeGraph
  have hpool₁ : m₁.pool = some p₁ := h₁.pool
  obtain ⟨m₃, hm₃, hl, -⟩ := hbuilt.verifyGraph
    (m := { m₁ with pool := some (p₁.setGraphFinalized 1) }) rfl (h₁.room.listingFor_slots _)
  refine ⟨m₁, _, m₃, _, hm₁, ?_, hm₃, hl⟩
  simp only [finalizeGraph, hpool₁]

/-- A listing of the first size that is counted as larger, in a pool with at most `k` nodes. -/
structure Overcounted (m : MemGraph) (k : Nat) : Prop where
  behind : nodeTableOffset ≤ m.poolEdge
  slots : ∀ L, m.nodes = some L → L.slots = 4096
  listings : 8192 ≤ m.numNodesListings.toNat
  numNodes : ∀ p, m.pool = some p → p.numNodes.toNat ≤ k

theorem Overcounted.grow (h : Overcounted m k) (hk : k < 8192) (hp : m.pool = some p)
    (hok : growListings m = (.ok L, m')) :
    L.slots = 4096 ∧ m'.numNodesListings = m.numNodesListings := by
  cases hn : m.nodes with
  | none =>
    rw [growListings_none hn] at hok
    cases hok
    exact ⟨rfl, rfl⟩
  | some L₀ =>
    have hkeep : ¬m.numNodesListings ≤ p.numNodes := by
      have hnum := h.numNodes p hp
      have hc := h.listings
      rw [UInt64.le_iff_toNat_le]
      omega
    rw [growListings_keep hn hp hkeep] at hok
    cases hok
    exact ⟨h.slots L hn, rfl⟩

theorem Overcounted.alloc (h : Overcounted m k) (hk : k < 8192)
    (hok : allocSpec n m = (.ok node, m')) : n.id.toNat < 4096 ∧ Overcounted m' (k + 1) := by
  obtain ⟨p, q, L, c, hp, rfl, hg, hid, hw, rfl⟩ := allocNode_ok h.behind hok
  have hmoved : Overcounted { m with poolEdge := m.poolEdge + sizeofRecord } k :=
    ⟨Nat.le_trans h.behind (Nat.le_add_right _ _), h.slots, h.listings, h.numNodes⟩
  have hgrown : L.slots = 4096 ∧ c = m.numNodesListings := hmoved.grow hk hp hg
  obtain ⟨hL, rfl⟩ := hgrown
  refine ⟨by rwa [hL] at hid, ?_, ?_, h.listings, ?_⟩
  · exact Nat.le_trans hmoved.behind (Nat.le_add_right _ _)
  · intro L' hL'
    cases hL'
    rw [Listing.put_slots, hL]
  · intro q' hq'
    cases hq'
    rw [(Pool.numNodes_header hw.header).2.2.1, UInt64.toNat_add,
      show (1 : UInt64).toNat = 1 from rfl]
    exact Nat.le_trans (Nat.mod_le _ _) (Nat.succ_le_succ (h.numNodes p hp))

theorem Overcounted.allocNodes (h : Overcounted m k) (hk : k + ns.length ≤ 8192)
    (hok : LibcSandbox.allocNodes ns m = (.ok (), m')) : ∀ n ∈ ns, n.id.toNat < 4096 := by
  induction ns generalizing m k with
  | nil => intro n hn; cases hn
  | cons n ns ih =>
    rw [List.length_cons] at hk
    rw [LibcSandbox.allocNodes] at hok
    cases hn : allocSpec n m with
    | mk r m₁ =>
      rw [hn] at hok
      cases r with
      | error e => cases hok
      | ok node =>
        obtain ⟨hid, h₁⟩ := h.alloc (by omega) hn
        rw [List.forall_mem_cons]
        exact ⟨hid, ih h₁ (by omega) hok⟩

/-- A list of 4097 nodes without edges. -/
def leaves : List (List Edge) := List.replicate 4097 []

theorem leaves_fit : nodeTableOffset + specsSize leaves ≤ memoryPoolSize := by
  rw [specsSize, leaves, List.map_replicate, List.sum_replicate]
  decide

theorem StartsEmpty.listings (hs : StartsEmpty m) (h : ReachedOk m) :
    m.numNodesListings ≤ 4096 := by
  obtain ⟨m₀, hm₀, p, hp, -, hnum, hbuild⟩ := hs
  cases (initializeGraph_restarted m).symm.trans hm₀
  obtain ⟨m₁, -, -, -, hm₁, -⟩ := hbuild leaves leaves_fit
  by_contra hc
  have hmod := h.listings
  rw [UInt64.le_iff_toNat_le, show (4096 : UInt64).toNat = 4096 from rfl] at hc
  have hover : Overcounted m.restarted 0 := by
    have hnone : m.restarted.nodes = none := rfl
    refine ⟨h.le_cursor, fun L hL => ?_, ?_, fun p' hp' => ?_⟩
    · rw [hnone] at hL
      cases hL
    · show 8192 ≤ m.numNodesListings.toNat
      omega
    · cases hp.symm.trans hp'
      rw [hnum]
      exact Nat.le_refl _
  have hlast : (numbered leaves)[4096]? = some ⟨UInt64.ofNat 4096, []⟩ := by
    rw [getElem?_numbered, leaves, List.getElem?_replicate]
    rfl
  have hid := hover.allocNodes (by rw [length_numbered, leaves, List.length_replicate]; decide)
    hm₁ _ (List.mem_of_getElem? hlast)
  exact absurd hid (by decide)

theorem StartsEmpty.unfinished (hs : StartsEmpty m) (hp : m.pool = some p) :
    Unfinished p ∧ p.numNodes = 0 := by
  obtain ⟨m₀, hm₀, q, hq, hf, hnum, hbuild⟩ := hs
  cases (initializeGraph_restarted m).symm.trans hm₀
  have hpq : p = q := by
    rw [MemGraph.restarted, hp] at hq
    exact Option.some.inj hq
  cases hpq
  obtain ⟨m₁, m₂, m₃, -, hm₁, hm₂, hv, -⟩ := hbuild [] (by decide)
  cases hm₁
  have hfinal : m₂.pool = some (p.setGraphFinalized 1) := by
    rw [finalizeGraph, hq] at hm₂
    cases hm₂
    rfl
  obtain ⟨q, hq', hh, -⟩ := loaded_of_verifyGraph hv
  cases hfinal.symm.trans hq'
  refine ⟨⟨hf, ?_⟩, hnum⟩
  exact (Pool.numNodes_header (p.header_setGraphFinalized 1)).2.1.symm.trans hh.magic

/-- An empty graph is started exactly where there is no pool, or one whose graph is not finalized
and has no nodes, and where the listing was never counted beyond its first size. -/
theorem startsEmpty_iff (h : Reached m) :
    StartsEmpty m ↔ (∀ p, m.pool = some p → Unfinished p ∧ p.numNodes = 0) ∧
      m.numNodesListings ≤ 4096 := by
  apply Iff.intro
  · intro hs
    exact ⟨fun p hp => hs.unfinished hp, hs.listings h.ok⟩
  · intro hx
    obtain ⟨hp, hc⟩ := hx
    exact h.ok.startsEmpty hp hc

theorem Reached.op (h : Reached m) {op : Op} (hr : op.Returns m) : Reached (op.step m) :=
  h.call (.op op) (Prod.ext hr rfl)

/-- A graph of one node is built and dropped. -/
def droppedGraph : MemGraph :=
  [Op.initializeGraph none 0, .allocNode (.leaf 0), .finalizeGraph, .destroyGraph].foldl Op.step
    MemGraph.initial

theorem droppedGraph_reached : Reached droppedGraph := by
  refine (((Reached.initial.op ?_).op ?_).op ?_).op ?_
  · rfl
  · unfold Op.Returns
    decide +kernel
  · unfold Op.Returns
    decide +kernel
  · rfl

theorem droppedGraph_startsEmpty : StartsEmpty droppedGraph := by
  have hnone : droppedGraph.pool.isNone := by decide +kernel
  rw [Option.isNone_iff_eq_none] at hnone
  refine (startsEmpty_iff droppedGraph_reached).2 ⟨fun p hp => ?_, by decide +kernel⟩
  rw [hnone] at hp
  cases hp

/-- A graph without nodes is finalized. -/
def finalizedGraph : MemGraph := [Op.initializeGraph none 0, .finalizeGraph].foldl Op.step
  MemGraph.initial

/-- It is still finalized after an empty `initialize_graph`. -/
theorem finalizedGraph_stays : ¬∀ m, Reached m → StartsEmpty m := by
  intro h
  have hr : Reached finalizedGraph := by
    refine (Reached.initial.op ?_).op ?_ <;> rfl
  obtain ⟨m₀, hm₀, p, hp, hf, -⟩ := h finalizedGraph hr
  have hstill : (initializeGraph .user none 0 finalizedGraph).2.pool.map Pool.graphFinalized =
      some 1 := by
    decide +kernel
  rw [hm₀, hp, Option.map_some, hf] at hstill
  exact absurd hstill (by decide)

end LibcSandbox
