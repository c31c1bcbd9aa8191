import LibcSandbox.MemGraph.Restart
import LibcSandbox.MemGraph.Lookup

namespace LibcSandbox
open Library
set_option autoImplicit true

variable {m m' : MemGraph} {c : AllocCall} {cs : List AllocCall} {slots : Option Nat}
  {count : UInt64}

/-- The slots of the listing and their count after `alloc_node` made room for the node with number
`k`: the first allocation is not counted, and a later one has the size that is counted. -/
def grownSlots (slots : Option Nat) (count : UInt64) (k : Nat) : Nat × UInt64 :=
  match slots with
  | none => (4096, count)
  | some slots =>
    if count.toNat ≤ k then
      ((8 * (count + defaultNumberOfNodesListings)).toNat / 8, count + defaultNumberOfNodesListings)
    else (slots, count)

/-- A pool that is being filled: `k` nodes were counted and the cursor is at `off`, behind the
metadata. -/
structure Filling (m : MemGraph) (slots : Option Nat) (count : UInt64) (k off : Nat) : Prop where
  pool : ∃ p, m.pool = some p ∧ p.numNodes.toNat = k
  poolEdge : m.poolEdge = off
  behind : nodeTableOffset + k * sizeofRecord ≤ off
  listing : m.nodes.map Listing.slots = slots
  listings : m.numNodesListings = count

theorem growListings_grown (hp : m.pool = some p) (hk : p.numNodes.toNat = k) :
    let grown := grownSlots (m.nodes.map Listing.slots) m.numNodesListings k
    ∃ L, L.slots = grown.1 ∧
      growListings m = (.ok L, { m with nodes := some L, numNodesListings := grown.2 }) := by
  intro grown
  have hle : m.numNodesListings ≤ p.numNodes ↔ m.numNodesListings.toNat ≤ k := by
    rw [UInt64.le_iff_toNat_le, hk]
  cases hn : m.nodes with
  | none =>
    have hgrown : grown = (4096, m.numNodesListings) := by
      simp only [grown, hn, Option.map_none, grownSlots]
    rw [hgrown]
    exact ⟨_, rfl, growListings_none hn⟩
  | some L =>
    by_cases hc : m.numNodesListings.toNat ≤ k
    · have hgrown : grown = ((L.realloc (m.numNodesListings + defaultNumberOfNodesListings)).slots,
          m.numNodesListings + defaultNumberOfNodesListings) := by
        simp only [grown, hn, Option.map_some, grownSlots, if_pos hc, Listing.realloc]
      rw [hgrown]
      exact ⟨_, rfl, growListings_grow hn hp (hle.2 hc)⟩
    · have hgrown : grown = (L.slots, m.numNodesListings) := by
        simp only [grown, hn, Option.map_some, grownSlots, if_neg hc]
      rw [hgrown]
      refine ⟨L, rfl, ?_⟩
      rw [growListings_keep hn hp (mt hle.1 hc), ← hn]

theorem Filling.grow (h : Filling m slots count k off) :
    ∃ L, L.slots = (grownSlots slots count k).1 ∧
      growListings { m with poolEdge := m.poolEdge + sizeofRecord } = (.ok L, { m with
        poolEdge := m.poolEdge + sizeofRecord
        nodes := some L
        numNodesListings := (grownSlots slots count k).2 }) := by
  obtain ⟨p, hp, hk⟩ := h.pool
  rw [← h.listing, ← h.listings]
  exact growListings_grown (m := { m with poolEdge := m.poolEdge + sizeofRecord }) hp hk

theorem putEdges_returns (l s : Nat → UInt64) (p : Pool)
    (h : libcalls + (i + n) * sizeofRecord ≤ memoryPoolSize) :
    ∃ q, putEdges libcalls l s p i n = (.ok (), q) := by
  induction n generalizing p i with
  | zero => exact ⟨p, rfl⟩
  | succ n ih =>
    have hin : Inside (libcalls + i * sizeofRecord) := by
      rw [Nat.add_mul, Nat.succ_mul] at h
      rw [Inside]
      omega
    rw [putEdges, if_neg (not_not.2 hin)]
    exact ih _ (by rwa [Nat.add_assoc, Nat.add_comm 1])

theorem Filling.run (h : Filling m slots count k off)
    (hfit : off + c.size ≤ memoryPoolSize) (hid : c.id.toNat < (grownSlots slots count k).1) :
    ∃ node m', c.run m = (.ok node, m') ∧
      Filling m' (some (grownSlots slots count k).1) (grownSlots slots count k).2 (k + 1)
        (off + c.size) := by
  obtain ⟨p, hp, hk⟩ := h.pool
  obtain ⟨L, hL, hgrow⟩ := h.grow
  have hbehind := h.behind
  have hedge := h.poolEdge
  rw [AllocCall.size] at hfit
  have hin : Inside m.poolEdge := by
    rw [Inside]
    omega
  have hroom : m.poolEdge + sizeofRecord + (0 + c.numSuccessors.toNat) * sizeofRecord ≤
      memoryPoolSize := by
    rw [Nat.zero_add]
    omega
  obtain ⟨q, hq⟩ := putEdges_returns c.libcallList c.successorNodeList
    (p.putProgstate m.poolEdge ⟨nodeMagicNumber, c.id, toUnsignedLong c.numSuccessors⟩) hroom
  have hok : ∃ node m', c.run m = (.ok node, m') := by
    simp only [hp] at hgrow
    rw [← hL] at hid
    simp only [AllocCall.run, allocNode, hgrow, hp, hin, not_true_eq_false, ↓reduceIte,
      Listing.write_eq_ok hid, hq]
    exact ⟨_, _, rfl⟩
  obtain ⟨node, m', hok⟩ := hok
  obtain ⟨p', q', L', n, hp', rfl, hgrow', -, hw, rfl⟩ := allocNode_ok (by omega) hok
  cases hp.symm.trans hp'
  have hsame : L' = L ∧ n = (grownSlots slots count k).2 := by
    rw [hgrow] at hgrow'
    simp only [Prod.mk.injEq, Except.ok.injEq, MemGraph.mk.injEq] at hgrow'
    exact ⟨hgrow'.1.symm, hgrow'.2.2.2.2.1.symm⟩
  obtain ⟨rfl, rfl⟩ := hsame
  have hnum : q'.numNodes.toNat = k + 1 := by
    have hone : (1 : UInt64).toNat = 1 := rfl
    rw [sizeofRecord] at hbehind hfit
    rw [memoryPoolSize] at hfit
    rw [(Pool.numNodes_header hw.header).2.2.1, UInt64.toNat_add, hk, hone]
    exact Nat.mod_eq_of_lt (by omega)
  refine ⟨_, _, hok, ⟨q', rfl, hnum⟩, ?_, ?_, ?_, rfl⟩
  · rw [AllocCall.size, ← Nat.add_assoc, ← hedge]
  · rw [AllocCall.size, Nat.succ_mul]
    omega
  · rw [Option.map_some, Listing.put_slots, hL]

theorem Filling.run_outOfListing (h : Filling m slots count k off)
    (hfit : off + c.size ≤ memoryPoolSize) (hid : (grownSlots slots count k).1 ≤ c.id.toNat) :
    (c.run m).1 = .error (.outOfListing c.id.toNat) := by
  obtain ⟨p, hp, -⟩ := h.pool
  obtain ⟨L, hL, hgrow⟩ := h.grow
  have hedge := h.poolEdge
  have hin : Inside m.poolEdge := by
    rw [AllocCall.size] at hfit
    rw [Inside]
    omega
  rw [← hL] at hid
  simp only [hp] at hgrow
  simp only [AllocCall.run, allocNode, hp, hgrow, hin, not_true_eq_false, ↓reduceIte,
    Listing.write_eq_error hid]

theorem putEdges_overruns (l s : Nat → UInt64) (p : Pool)
    (hlo : libcalls + i * sizeofRecord ≤ memoryPoolSize)
    (hhi : memoryPoolSize < libcalls + (i + n) * sizeofRecord) :
    ∃ o q, putEdges libcalls l s p i n = (.error (.outOfPool o), q) := by
  induction n generalizing p i with
  | zero =>
    rw [Nat.add_zero] at hhi
    omega
  | succ n ih =>
    rw [putEdges]
    by_cases hin : Inside (libcalls + i * sizeofRecord)
    · rw [if_neg (not_not.2 hin)]
      apply ih
      · rw [Inside] at hin
        rw [Nat.succ_mul]
        omega
      · rwa [Nat.add_assoc, Nat.add_comm 1]
    · rw [if_pos hin]
      exact ⟨_, p, rfl⟩

theorem Filling.run_outOfPool (h : Filling m slots count k off)
    (hover : memoryPoolSize < off + c.size) (hid : c.id.toNat < (grownSlots slots count k).1) :
    ∃ o, (c.run m).1 = .error (.outOfPool o) := by
  obtain ⟨p, hp, -⟩ := h.pool
  obtain ⟨L, hL, hgrow⟩ := h.grow
  have hedge := h.poolEdge
  rw [← hL] at hid
  simp only [hp] at hgrow
  by_cases hin : Inside m.poolEdge
  · rw [AllocCall.size] at hover
    have hlo : m.poolEdge + sizeofRecord + 0 * sizeofRecord ≤ memoryPoolSize := by
      rw [Nat.zero_mul]
      exact hin
    obtain ⟨o, q, hq⟩ := putEdges_overruns (n := c.numSuccessors.toNat) c.libcallList
      c.successorNodeList
      (p.putProgstate m.poolEdge ⟨nodeMagicNumber, c.id, toUnsignedLong c.numSuccessors⟩) hlo
      (by rw [Nat.zero_add]; omega)
    refine ⟨o, ?_⟩
    simp only [AllocCall.run, allocNode, hp, hgrow, hin, not_true_eq_false, ↓reduceIte,
      Listing.write_eq_ok hid, hq]
  · refine ⟨m.poolEdge, ?_⟩
    simp only [AllocCall.run, allocNode, hp, hgrow, hin, not_false_eq_true, ↓reduceIte]

theorem Filling.fits (h : Filling m slots count k off) (hok : c.run m = (.ok node, m')) :
    off + c.size ≤ memoryPoolSize := by
  have hbehind := h.behind
  have hedge := h.poolEdge
  obtain ⟨_, _, _, _, _, rfl, _, _, hw, _⟩ := allocNode_ok (by omega) hok
  have hend := hw.end_le
  rw [length_arrayEdges] at hend
  rw [AllocCall.size]
  omega

/-- An empty `initialize_graph` makes a fresh pool where there is none. -/
theorem filling_restarted (hp : m.pool = none) :
    Filling m.restarted none m.numNodesListings 0 nodeTableOffset := by
  have hempty : emptyPool.numNodes.toNat = 0 := by
    rw [(Pool.numNodes_header header_emptyPool).2.2.1]
    rfl
  refine ⟨⟨emptyPool, ?_, hempty⟩, ?_, Nat.le_refl _, rfl, rfl⟩
  · rw [MemGraph.restarted, hp, Option.getD_none]
  · rw [MemGraph.restarted, MemGraph.cursor, hp]
    rfl

theorem Filling.le_size (h : Filling m slots count k off) (hoff : off ≤ memoryPoolSize) :
    k ≤ memoryPoolSize := by
  have hbehind := h.behind
  rw [sizeofRecord] at hbehind
  omega

/-- The state with a listing that has a slot for every id. A write past the end of `nodes` is not
a write to the pool, and `alloc_node` goes on behind it: the records that the calls place, and
where, are those that they place from this state. -/
def MemGraph.roomy (m : MemGraph) : MemGraph :=
  { m with nodes := some ⟨2 ^ 64, fun _ => none⟩, numNodesListings := 0xFFFFFFFFFFFFFFFF }

theorem Filling.roomy (h : Filling m slots count k off) :
    Filling m.roomy (some (2 ^ 64)) 0xFFFFFFFFFFFFFFFF k off :=
  ⟨h.pool, h.poolEdge, h.behind, rfl, rfl⟩

theorem grownSlots_roomy (hk : k ≤ memoryPoolSize) :
    grownSlots (some (2 ^ 64)) 0xFFFFFFFFFFFFFFFF k = (2 ^ 64, 0xFFFFFFFFFFFFFFFF) := by
  have hcount : (0xFFFFFFFFFFFFFFFF : UInt64).toNat = 2 ^ 64 - 1 := by decide
  rw [memoryPoolSize] at hk
  rw [grownSlots, if_neg (by omega)]

theorem Filling.run_roomy (h : Filling m (some (2 ^ 64)) 0xFFFFFFFFFFFFFFFF k off)
    (hk : k ≤ memoryPoolSize) (hfit : off + c.size ≤ memoryPoolSize) :
    ∃ node m', c.run m = (.ok node, m') ∧
      Filling m' (some (2 ^ 64)) 0xFFFFFFFFFFFFFFFF (k + 1) (off + c.size) := by
  have hid : c.id.toNat < (grownSlots (some (2 ^ 64)) 0xFFFFFFFFFFFFFFFF k).1 := by
    rw [grownSlots_roomy hk]
    exact c.id.toNat_lt
  obtain ⟨node, m', hok, h'⟩ := h.run hfit hid
  rw [grownSlots_roomy hk] at h'
  exact ⟨node, m', hok, h'⟩

theorem allocCalls_cons (hok : c.run m = (.ok node, m')) :
    allocCalls (c :: cs) m = allocCalls cs m' := by
  rw [allocCalls, hok]

theorem allocCalls_error (he : (c.run m).1 = .error e) :
    (allocCalls (c :: cs) m).1 = .error e := by
  have hrun : c.run m = (_, _) := Prod.ext he rfl
  rw [allocCalls, hrun]

/-- A call that does not leave the listing does the same to the pool as where it has every slot. -/
theorem Filling.run_pool_eq (h : Filling m slots count k off)
    (hr : Filling r (some (2 ^ 64)) 0xFFFFFFFFFFFFFFFF k off) (hk : k ≤ memoryPoolSize)
    (hpool : r.pool = m.pool) (hin : ∀ i, (c.run m).1 ≠ .error (.outOfListing i)) :
    (c.run r).1 = (c.run m).1 ∧ (c.run r).2.pool = (c.run m).2.pool := by
  obtain ⟨p, hp, -⟩ := h.pool
  have hp' : r.pool = some p := hpool.trans hp
  obtain ⟨L, hL, hgrow⟩ := h.grow
  obtain ⟨R, hR, hgrow'⟩ := hr.grow
  have hedge : r.poolEdge = m.poolEdge := hr.poolEdge.trans h.poolEdge.symm
  have hslot : c.id.toNat < R.slots := by
    rw [hR, grownSlots_roomy hk]
    exact c.id.toNat_lt
  simp only [hp] at hgrow
  simp only [hp', hedge] at hgrow'
  by_cases hi : Inside m.poolEdge
  · rcases Nat.lt_or_ge c.id.toNat L.slots with hid | hid
    · simp only [AllocCall.run, allocNode, hp, hp', hedge, hgrow, hgrow', hi, not_true_eq_false,
        ↓reduceIte, Listing.write_eq_ok hid, Listing.write_eq_ok hslot]
      generalize putEdges _ _ _ _ _ _ = x
      obtain ⟨e, q⟩ := x
      cases e <;> exact ⟨rfl, rfl⟩
    · refine absurd ?_ (hin c.id.toNat)
      simp only [AllocCall.run, allocNode, hp, hgrow, hi, not_true_eq_false, ↓reduceIte,
        Listing.write_eq_error hid]
  · simp only [AllocCall.run, allocNode, hp, hp', hedge, hgrow, hgrow', hi, not_false_eq_true,
      ↓reduceIte, and_self]

theorem Filling.slot (h : Filling m slots count k off) (hok : c.run m = (.ok node, m')) :
    c.id.toNat < (grownSlots slots count k).1 := by
  by_contra hid
  have he := h.run_outOfListing (h.fits hok) (Nat.not_lt.1 hid)
  rw [hok] at he
  cases he

theorem Filling.allocCalls_pool_eq (h : Filling m slots count k off)
    (hr : Filling r (some (2 ^ 64)) 0xFFFFFFFFFFFFFFFF k off) (hoff : off ≤ memoryPoolSize)
    (hpool : r.pool = m.pool) (hin : ∀ i, (allocCalls cs m).1 ≠ .error (.outOfListing i)) :
    (allocCalls cs r).1 = (allocCalls cs m).1 ∧
      (allocCalls cs r).2.pool = (allocCalls cs m).2.pool := by
  induction cs generalizing m r slots count k off with
  | nil => exact ⟨rfl, hpool⟩
  | cons c cs ih =>
    have hk := h.le_size hoff
    have hrun (hc : ∀ i, (c.run m).1 ≠ .error (.outOfListing i)) := h.run_pool_eq hr hk hpool hc
    rcases hcm : c.run m with ⟨x, m'⟩
    cases x with
    | error e =>
      have he : (c.run m).1 = .error e := by rw [hcm]
      rw [allocCalls_error he] at hin
      obtain ⟨hres, hpool'⟩ := hrun fun i hi => hin i (by rw [he] at hi; cases hi; rfl)
      have hcr : c.run r = (.error e, (c.run r).2) := Prod.ext (hres.trans he) rfl
      rw [allocCalls, hcr, allocCalls, hcm]
      rw [hcm] at hpool'
      exact ⟨rfl, hpool'⟩
    | ok node =>
      obtain ⟨hres, hpool'⟩ := hrun fun i hi => by rw [hcm] at hi; cases hi
      have hfit := h.fits hcm
      obtain ⟨_, _, hcm', h'⟩ := h.run hfit (h.slot hcm)
      cases hcm.symm.trans hcm'
      obtain ⟨node', r', hcr, hr'⟩ := hr.run_roomy hk hfit
      rw [hcr, hcm] at hpool'
      rw [allocCalls_cons hcm] at hin ⊢
      rw [allocCalls_cons hcr]
      exact ih h' hr' hfit hpool' hin

/-- A run that does not leave the listing fills the pool as the calls do from `roomy`. -/
theorem allocCalls_roomy (hm : m.pool = none) (cs : List AllocCall)
    (hin : ∀ i, (allocCalls cs (initializeGraph .user none 0 m).2).1 ≠ .error (.outOfListing i)) :
    (allocCalls cs (initializeGraph .user none 0 m).2.roomy).1 =
        (allocCalls cs (initializeGraph .user none 0 m).2).1 ∧
      (allocCalls cs (initializeGraph .user none 0 m).2.roomy).2.pool =
        (allocCalls cs (initializeGraph .user none 0 m).2).2.pool := by
  rw [initializeGraph_restarted] at hin ⊢
  have hfilling := filling_restarted hm
  exact hfilling.allocCalls_pool_eq hfilling.roomy (by decide) rfl hin

/-- The calls keep to the pool: no record is written past its end, and a call that does not fit
returns and leaves the pool as it was. -/
structure KeepsToPool (m : MemGraph) (cs : List AllocCall) : Prop where
  inside : ∀ o, (allocCalls cs m).1 ≠ .error (.outOfPool o)
  refuses : ∀ before c after m₁, cs = before ++ c :: after → allocCalls before m = (.ok (), m₁) →
    memoryPoolSize < m₁.poolEdge + c.size →
      ∃ node m₂, c.run m₁ = (.ok node, m₂) ∧ m₂.pool = m₁.pool

theorem KeepsToPool.tail (h : KeepsToPool m (c :: cs)) (hok : c.run m = (.ok node, m')) :
    KeepsToPool m' cs := by
  constructor
  · intro o
    have hin := h.inside o
    rwa [allocCalls_cons hok] at hin
  · intro before d after m₁ hcs hm₁ hover
    exact h.refuses (c :: before) d after m₁ (by rw [hcs]; rfl)
      (by rwa [allocCalls_cons hok]) hover

theorem Filling.keepsToPool (h : Filling m (some (2 ^ 64)) 0xFFFFFFFFFFFFFFFF k off)
    (hfits : off + extent AllocCall.size cs ≤ memoryPoolSize) : KeepsToPool m cs := by
  induction cs generalizing m k off with
  | nil =>
    constructor
    · intro o
      exact nofun
    · intro before c after m₁ hcs
      exact absurd hcs.symm (List.append_ne_nil_of_right_ne_nil _ (List.cons_ne_nil _ _))
  | cons c cs ih =>
    have hk := h.le_size ((Nat.le_add_right ..).trans hfits)
    have hedge := h.poolEdge
    rw [extent_cons, ← Nat.add_assoc] at hfits
    obtain ⟨node, m', hok, h'⟩ := h.run_roomy (c := c) hk (by omega)
    have ht := ih h' hfits
    constructor
    · intro o
      rw [allocCalls_cons hok]
      exact ht.inside o
    · intro before d after m₁ hcs hm₁ hover
      cases before with
      | nil =>
        cases hcs
        cases hm₁
        omega
      | cons b before =>
        cases hcs
        rw [allocCalls_cons hok] at hm₁
        exact ht.refuses before d after m₁ rfl hm₁ hover

theorem Filling.fits_of_keepsToPool (h : Filling m (some (2 ^ 64)) 0xFFFFFFFFFFFFFFFF k off)
    (hoff : off ≤ memoryPoolSize) (hkeeps : KeepsToPool m cs) :
    off + extent AllocCall.size cs ≤ memoryPoolSize := by
  induction cs generalizing m k off with
  | nil => rwa [extent_nil, Nat.add_zero]
  | cons c cs ih =>
    have hfit : off + c.size ≤ memoryPoolSize := by
      by_contra hover
      have hedge := h.poolEdge
      obtain ⟨node, m₂, hok, -⟩ := hkeeps.refuses [] c cs m rfl rfl (by omega)
      exact hover (h.fits hok)
    have hk := h.le_size ((Nat.le_add_right ..).trans hfit)
    obtain ⟨node, m', hok, h'⟩ := h.run_roomy hk hfit
    rw [extent_cons, ← Nat.add_assoc]
    exact ih h' hfit (hkeeps.tail hok)

/-- On a fresh pool the calls of `alloc_node` keep to it if and only if their records fit behind
the metadata. -/
theorem keepsToPool_iff (m : MemGraph) (hm : m.pool = none) (cs : List AllocCall) :
    KeepsToPool (initializeGraph .user none 0 m).2.roomy cs ↔
      nodeTableOffset + extent AllocCall.size cs ≤ memoryPoolSize := by
  have hfilling := (filling_restarted hm).roomy
  rw [initializeGraph_restarted]
  apply Iff.intro
  · exact hfilling.fits_of_keepsToPool (by decide)
  · exact hfilling.keepsToPool

/-- A node with more edges than the pool has room for. -/
def wideCall : AllocCall := ⟨0, 43687, fun _ => 0, fun _ => 0, by decide⟩

/-- Its last edge is written past the end of the pool. -/
theorem wideCall_outOfPool :
    ¬∀ m cs, m.pool = none → (∀ c ∈ cs, 0 ≤ AllocCall.numSuccessors c) →
      KeepsToPool (initializeGraph .user none 0 m).2.roomy cs := by
  intro h
  have hkeeps := h MemGraph.initial [wideCall] rfl (by decide)
  have hfilling : Filling MemGraph.initial.restarted.roomy _ _ 0 nodeTableOffset :=
    (filling_restarted rfl).roomy
  rw [initializeGraph_restarted] at hkeeps
  obtain ⟨o, ho⟩ := hfilling.run_outOfPool (c := wideCall) (by decide) (by decide)
  exact hkeeps.inside o (allocCalls_error ho)

/-- Two nodes without edges, the first of them without a slot in the listing. -/
theorem leaves_keepToPool :
    KeepsToPool (initializeGraph .user none 0 MemGraph.initial).2.roomy [.leaf 4096, .leaf 0] :=
  (keepsToPool_iff MemGraph.initial rfl [.leaf 4096, .leaf 0]).2 (by decide)

end LibcSandbox
