import LibcSandbox.MemGraph.Alloc

namespace LibcSandbox
open Library
set_option autoImplicit true

def allocCalls : List AllocCall → MemGraph → Outcome MemGraph Unit
  | [], m => (.ok (), m)
  | c :: cs, m =>
    match c.run m with
    | (.error h, m) => (.error h, m)
    | (.ok _, m) => allocCalls cs m

/-- The entry `nodes[k]` is a node record whose id field is `k`. -/
def EntryIsOwn (m : MemGraph) (k : UInt64) : Prop :=
  ∃ p L off, m.pool = some p ∧ m.nodes = some L ∧ L.entry k.toNat = some off ∧ Inside off ∧
    (p.progstate off).magic = nodeMagicNumber ∧ (p.progstate off).id = k

def CallAt (p : Pool) (off : Nat) (c : AllocCall) : Prop :=
  Inside off ∧ p.progstate off = ⟨nodeMagicNumber, c.id, toUnsignedLong c.numSuccessors⟩

/-- The offset of the node that call `i` wrote. -/
def callOffset (cs : List AllocCall) (i : Nat) : Nat :=
  nodeTableOffset + extent AllocCall.size (cs.take i)

/-- A pool in which calls of `alloc_node` wrote their nodes, each entered under its id. -/
structure Allocated (m : MemGraph) (p : Pool) (cs : List AllocCall) : Prop where
  pool : m.pool = some p
  header : p.header =
    ⟨0, graphMetaMagicNumber, UInt64.ofNat cs.length, UInt64.ofNat nodeTableOffset⟩
  records : LaidOut (CallAt p) AllocCall.size nodeTableOffset cs
  poolEdge : m.poolEdge = nodeTableOffset + extent AllocCall.size cs
  end_le : m.poolEdge ≤ memoryPoolSize
  room : Room m.nodes m.numNodesListings cs.length
  entries : ∀ i c, cs[i]? = some c → ∃ L, m.nodes = some L ∧ c.id.toNat < L.slots ∧
    L.entry c.id.toNat = some (callOffset cs i)

theorem Room.grow_keeps {m : MemGraph} (h : Room m.nodes m.numNodesListings k)
    (hp : m.pool = some p) (hk : k ≤ 2 ^ 31) (hn : m.nodes = some L₀)
    (hg : growListings m = (.ok L, m')) :
    L₀.slots ≤ L.slots ∧ ∀ i < L₀.slots, L.entry i = L₀.entry i := by
  by_cases hle : m.numNodesListings ≤ p.numNodes
  · have hc : (m.numNodesListings + defaultNumberOfNodesListings).toNat ≤ 2 ^ 33 ∧
        L₀.slots ≤ (m.numNodesListings + defaultNumberOfNodesListings).toNat := by
      have hd : defaultNumberOfNodesListings.toNat = 4096 := rfl
      rw [hn] at h
      generalize m.numNodesListings = c at h
      cases h with
      | uncounted hs =>
        rw [hs]
        decide
      | counted _ hhi hcL _ =>
        rw [UInt64.toNat_add, hd, hcL, Nat.mod_eq_of_lt (by omega)]
        omega
    have hs := L₀.realloc_slots hc.1
    rw [growListings_grow hn hp hle, Prod.mk.injEq, Except.ok.injEq] at hg
    rw [← hg.1]
    refine ⟨by omega, fun i hi => ?_⟩
    have hi' : i < (L₀.realloc (m.numNodesListings + defaultNumberOfNodesListings)).slots := by
      omega
    exact if_pos ⟨hi, hi'⟩
  · rw [growListings_keep hn hp hle, Prod.mk.injEq, Except.ok.injEq] at hg
    rw [← hg.1]
    exact ⟨Nat.le_refl _, fun _ _ => rfl⟩

theorem callOffset_append (h : i ≤ cs.length) : callOffset (cs ++ cs') i = callOffset cs i := by
  rw [callOffset, callOffset, List.take_append_of_le_length h]

theorem AllocCall.size_pos (cs : List AllocCall) : 24 * cs.length ≤ extent AllocCall.size cs := by
  induction cs with
  | nil => exact Nat.le_refl _
  | cons c cs ih =>
    rw [extent_cons, List.length_cons, AllocCall.size, sizeofRecord]
    omega

theorem Allocated.entry_put {L : Listing} (h : Allocated m p cs) (hid : c.id ∉ cs.map AllocCall.id)
    (hslot : c.id.toNat < L.slots)
    (hkeeps : ∀ L₀, m.nodes = some L₀ →
      L₀.slots ≤ L.slots ∧ ∀ k < L₀.slots, L.entry k = L₀.entry k)
    {i : Nat} (hi : (cs ++ [c])[i]? = some a) :
    a.id.toNat < L.slots ∧
      (L.put c.id.toNat m.poolEdge).entry a.id.toNat = some (callOffset (cs ++ [c]) i) := by
  rcases Nat.lt_or_ge i cs.length with hlt | hge
  · rw [List.getElem?_append_left hlt] at hi
    obtain ⟨L₀, hL₀, hslot₀, hentry₀⟩ := h.entries i a hi
    obtain ⟨hle, hkeep⟩ := hkeeps L₀ hL₀
    have hne : a.id.toNat ≠ c.id.toNat := by
      intro he
      have hmem : a.id ∈ cs.map AllocCall.id := List.mem_map_of_mem (List.mem_of_getElem? hi)
      rw [UInt64.toNat_inj.1 he] at hmem
      exact hid hmem
    refine ⟨Nat.lt_of_lt_of_le hslot₀ hle, ?_⟩
    rw [callOffset_append (Nat.le_of_lt hlt), ← hentry₀, ← hkeep _ hslot₀]
    exact Function.update_of_ne hne _ _
  · have hlast : i = cs.length ∧ a = c := by
      rw [List.getElem?_append_right hge, List.getElem?_singleton] at hi
      split at hi
      next hz =>
        cases hi
        exact ⟨by omega, rfl⟩
      next => cases hi
    obtain ⟨rfl, rfl⟩ := hlast
    refine ⟨hslot, ?_⟩
    rw [callOffset, List.take_left, ← h.poolEdge]
    exact Function.update_self _ _ _

theorem Allocated.alloc (h : Allocated m p cs) (hid : c.id ∉ cs.map AllocCall.id)
    (hok : c.run m = (.ok node, m')) : ∃ q, Allocated m' q (cs ++ [c]) := by
  have hoff : m.poolEdge = nodeTableOffset + extent AllocCall.size cs := h.poolEdge
  have hedge : nodeTableOffset ≤ m.poolEdge := by omega
  have hlen := AllocCall.size_pos cs
  have hend := h.end_le
  have hsmall : cs.length ≤ memoryPoolSize := by omega
  obtain ⟨p', q, L, n, hp, rfl, hgrow, hslot, hw, rfl⟩ := allocNode_ok hedge hok
  cases h.pool.symm.trans hp
  have hnum : p.numNodes = UInt64.ofNat cs.length := (Pool.numNodes_header h.header).2.2.1
  have hk : cs.length ≤ 2 ^ 31 := by rw [memoryPoolSize] at hsmall; omega
  obtain ⟨L', n', hgrow', -, hroom⟩ :=
    Room.grow (m := { m with poolEdge := m.poolEdge + sizeofRecord }) h.room h.pool
      (by rw [hnum, toNat_ofNat_length hsmall])
  have hsame : L' = L ∧ n' = n := by
    rw [hgrow] at hgrow'
    simp only [Prod.mk.injEq, Except.ok.injEq, MemGraph.mk.injEq] at hgrow'
    exact ⟨hgrow'.1.symm, hgrow'.2.2.2.2.1.symm⟩
  obtain ⟨rfl, rfl⟩ := hsame
  have hext : extent AllocCall.size (cs ++ [c]) = extent AllocCall.size cs + c.size := by
    rw [extent_append, extent_cons, extent_nil, Nat.add_zero]
  have hcend := hw.end_le
  rw [length_arrayEdges] at hcend
  refine ⟨q, rfl, ?_, ?_, ?_, hcend, ?_, ?_⟩
  · rw [hw.header, h.header, hnum, List.length_append, List.length_singleton, UInt64.ofNat_add]
    rfl
  · refine laidOut_append.2 ⟨LaidOut.imp h.records fun o a ho ha hat => ⟨hat.1, ?_⟩, ?_, trivial⟩
    · have hrec : AgreeOn p q o (o + sizeofRecord) :=
        hw.below.mono ho (by rw [AllocCall.size] at ha; omega)
      rw [← Pool.progstate_congr hrec, hat.2]
    · rw [← hoff]
      refine ⟨?_, hw.record⟩
      rw [Inside]
      omega
  · rw [hext, ← Nat.add_assoc, ← hoff, AllocCall.size, Nat.add_assoc]
  · rw [List.length_append, List.length_singleton]
    exact (hroom hk).2 _ (L'.put_slots _ _)
  · intro i a hi
    have hput := h.entry_put hid hslot (fun L₀ hL₀ => Room.grow_keeps
      (m := { m with poolEdge := m.poolEdge + sizeofRecord }) h.room h.pool hk hL₀ hgrow) hi
    exact ⟨_, rfl, hput⟩

theorem Allocated.allocCalls (h : Allocated m p cs)
    (hids : ((cs ++ cs').map AllocCall.id).Nodup)
    (hok : LibcSandbox.allocCalls cs' m = (.ok (), m')) :
    ∃ q, Allocated m' q (cs ++ cs') := by
  induction cs' generalizing m p cs with
  | nil =>
    cases hok
    exact ⟨p, by rwa [List.append_nil]⟩
  | cons c cs' ih =>
    rw [List.append_cons] at hids ⊢
    rw [LibcSandbox.allocCalls] at hok
    cases ha : c.run m with
    | mk r m₁ =>
      cases r with
      | error e =>
        rw [ha] at hok
        cases hok
      | ok node =>
        rw [ha] at hok
        have hc : c.id ∉ cs.map AllocCall.id := by
          rw [List.map_append, List.map_append, List.nodup_append, List.nodup_append] at hids
          intro hmem
          exact hids.1.2.2 _ hmem _ (List.mem_singleton_self _) rfl
        obtain ⟨q, hq⟩ := h.alloc hc ha
        exact ih hq hids hok

theorem Allocated.callAt {i : Nat} (h : Allocated m p cs) (hi : cs[i]? = some c) :
    CallAt p (callOffset cs i) c :=
  h.records.get hi

theorem entryIsOwn_iff {m : MemGraph} (hp : m.pool = some p) (hn : m.nodes = some L)
    (he : L.entry k.toNat = some off) (hat : CallAt p off c) :
    EntryIsOwn m k ↔ c.id = k := by
  obtain ⟨hin, hrec⟩ := hat
  apply Iff.intro
  · intro h
    obtain ⟨p', L', off', hp', hn', he', -, -, hid⟩ := h
    cases hp.symm.trans hp'
    cases hn.symm.trans hn'
    cases he.symm.trans he'
    rw [← hid, hrec]
  · intro hc
    exact ⟨p, L, off, hp, hn, he, hin, by rw [hrec], by rw [hrec, hc]⟩

theorem Allocated.entryIsOwn {i : Nat} (h : Allocated m p cs) (hi : cs[i]? = some c) :
    EntryIsOwn m c.id := by
  obtain ⟨L, hL, -, he⟩ := h.entries i c hi
  exact (entryIsOwn_iff h.pool hL he (h.callAt hi)).2 rfl

theorem Allocated.initial (build : Build) :
    ∃ m p, initializeGraph build none 0 MemGraph.initial = (.ok (), m) ∧ Allocated m p [] := by
  obtain ⟨m, hm, h⟩ := initializeGraph_empty build (m := MemGraph.initial) rfl rfl
  refine ⟨m, emptyPool, hm, h.pool, h.header, trivial, h.poolEdge, ?_, h.room, ?_⟩
  · rw [h.poolEdge]
    decide
  · intro i c hi
    cases hi

/-- The table that `verify_graph` walks over has its nodes where the calls put them. -/
theorem nodeOffset_eq_callOffset (ht : TableAt p off ns)
    (hc : LaidOut (CallAt p) AllocCall.size off cs) (hl : ns.length = cs.length) :
    nodeOffset off ns i = off + extent AllocCall.size (cs.take i) := by
  induction ns generalizing off cs i with
  | nil =>
    obtain rfl : cs = [] := List.length_eq_zero_iff.1 hl.symm
    simp only [nodeOffset, List.take_nil, extent_nil]
  | cons n ns ih =>
    cases cs with
    | nil => cases hl
    | cons c cs =>
      have hsize : n.size = c.size := by
        have hedges : (toUnsignedLong c.numSuccessors).toNat = n.edges.length := by
          rw [← ht.1.numLibcalls, hc.1.2]
        have hend := ht.1.end_le
        rw [Node.size, sizeofRecord] at hend
        have hnum := c.toNat_numSuccessors (by rw [memoryPoolSize] at hend; omega)
        rw [Node.size, AllocCall.size, ← hedges, hnum]
      cases i with
      | zero => rfl
      | succ i =>
        have hc' := hc.2
        rw [← hsize] at hc'
        rw [nodeOffset_cons, ih ht.2 hc' (Nat.succ.inj hl), List.take_succ_cons, extent_cons,
          hsize, Nat.add_assoc]

theorem Listing.putTable_entry_of_ge (L : Listing) (h : i + ns.length ≤ k) :
    (L.putTable i off ns).entry k = L.entry k := by
  induction ns generalizing L i off with
  | nil => rfl
  | cons n ns ih =>
    rw [List.length_cons] at h
    rw [Listing.putTable, ih _ (by omega)]
    exact Function.update_of_ne (by omega) _ _

/-- The entries at table positions are those of the calls at the same positions. -/
theorem putTable_entry_calls (ht : TableAt p nodeTableOffset ns)
    (hc : LaidOut (CallAt p) AllocCall.size nodeTableOffset cs) (hl : ns.length = cs.length)
    (L : Listing) (k : Nat) :
    (L.putTable 0 nodeTableOffset ns).entry k =
      if k < cs.length then some (callOffset cs k) else L.entry k := by
  split
  next hk =>
    have hput : (L.putTable 0 nodeTableOffset ns).entry (0 + k) = _ := L.putTable_entry (by omega)
    rw [Nat.zero_add] at hput
    rw [hput, nodeOffset_eq_callOffset ht hc hl, callOffset]
  next hk => rw [L.putTable_entry_of_ge (by omega)]

theorem Allocated.finalizedRecords (h : Allocated m p cs) :
    LaidOut (CallAt (p.setGraphFinalized 1)) AllocCall.size nodeTableOffset cs := by
  apply LaidOut.imp h.records
  intro o a ho _ hat
  refine ⟨hat.1, ?_⟩
  have ho' : 33 ≤ o := Nat.le_trans (by decide) ho
  rw [← Pool.progstate_congr (p.setGraphFinalized_agree 1 (.inr ho')), hat.2]

theorem Allocated.verified_nodes (h : Allocated m p cs) (hL : m.nodes = some L)
    (hv : verifyGraph (finalizeGraph m).2 = (.ok 1, m')) :
    m'.pool = some (p.setGraphFinalized 1) ∧ ∃ L', m'.nodes = some L' ∧
      ∀ k, L'.entry k = if k < cs.length then some (callOffset cs k) else L.entry k := by
  have hfin : finalizeGraph m = (.ok (), { m with pool := some (p.setGraphFinalized 1) }) := by
    simp only [finalizeGraph, h.pool]
  rw [hfin] at hv
  obtain ⟨q, ns, hq, -, ht, hl, -, rfl⟩ := verifyGraph_eq_one_iff.1 hv
  simp only [Option.some.injEq] at hq
  subst hq
  obtain ⟨-, -, hnum, htab⟩ := Pool.numNodes_header
    ((p.header_setGraphFinalized 1).trans (by rw [h.header]))
  have hlen := AllocCall.size_pos cs
  have hend := h.end_le
  have hedge := h.poolEdge
  rw [hnum, toNat_ofNat_length (by omega)] at hl
  have hoff : (p.setGraphFinalized 1).nodesTableOffset.toNat = nodeTableOffset := by rw [htab]; rfl
  have hlisting : MemGraph.listingFor { m with pool := some (p.setGraphFinalized 1) }
      (p.setGraphFinalized 1) = L := by simp only [MemGraph.listingFor, hL, Option.getD_some]
  rw [hoff] at ht
  rw [hlisting, hoff]
  exact ⟨rfl, _, rfl, putTable_entry_calls ht h.finalizedRecords hl L⟩

/-- After `verify_graph` the entries are still the own ones exactly where an id that is a table
position is the own position. -/
theorem Allocated.verified {i : Nat} (h : Allocated m p cs) (hids : (cs.map AllocCall.id).Nodup)
    (hv : verifyGraph (finalizeGraph m).2 = (.ok 1, m')) (hi : cs[i]? = some c) :
    EntryIsOwn m' c.id ↔ (c.id.toNat < cs.length → c.id.toNat = i) := by
  obtain ⟨L, hL, -, hentry⟩ := h.entries i c hi
  obtain ⟨hp', L', hL', hentries⟩ := h.verified_nodes hL hv
  have hat (j : Nat) (a : AllocCall) (hj : cs[j]? = some a) := h.finalizedRecords.get hj
  by_cases hk : c.id.toNat < cs.length
  · obtain ⟨a, ha⟩ : ∃ a, cs[c.id.toNat]? = some a := ⟨_, List.getElem?_eq_getElem hk⟩
    rw [entryIsOwn_iff hp' hL' ((hentries _).trans (if_pos hk)) (hat _ a ha)]
    apply Iff.intro
    · intro haid _
      have hi' : (cs.map AllocCall.id)[i]? = some c.id := by rw [List.getElem?_map, hi]; rfl
      have hk' : (cs.map AllocCall.id)[c.id.toNat]? = some c.id := by
        rw [List.getElem?_map, ha, Option.map_some, haid]
      exact (List.getElem?_inj (by rwa [List.length_map]) hids).1 (hk'.trans hi'.symm)
    · intro hpos
      rw [hpos hk] at ha
      cases ha.symm.trans hi
      rfl
  · have hown : EntryIsOwn m' c.id :=
      (entryIsOwn_iff hp' hL' ((hentries _).trans ((if_neg hk).trans hentry)) (hat i c hi)).2 rfl
    exact iff_of_true hown fun hlt => absurd hlt hk

/-- Right after the calls of `alloc_node` and after `verify_graph` every id is looked up as its
own node if and only if every id that is a table position is its own position. -/
theorem lookups_agree_iff (build : Build) (cs : List AllocCall)
    (hids : (cs.map AllocCall.id).Nodup) (m₀ m m' : MemGraph)
    (h₀ : initializeGraph build none 0 MemGraph.initial = (.ok (), m₀))
    (hcalls : allocCalls cs m₀ = (.ok (), m))
    (hv : verifyGraph (finalizeGraph m).2 = (.ok 1, m')) :
    (∀ c ∈ cs, EntryIsOwn m c.id ∧ EntryIsOwn m' c.id) ↔
      ∀ (i : Nat) (c : AllocCall), cs[i]? = some c → c.id.toNat < cs.length →
        c.id.toNat = i := by
  obtain ⟨m₁, p₁, hm₁, h₁⟩ := Allocated.initial build
  cases h₀.symm.trans hm₁
  obtain ⟨p, h⟩ := h₁.allocCalls hids hcalls
  rw [List.nil_append] at h
  apply Iff.intro
  · intro hown i c hi
    exact (h.verified hids hv hi).1 (hown c (List.mem_of_getElem? hi)).2
  · intro hpos c hc
    obtain ⟨i, hi⟩ := List.getElem?_of_mem hc
    exact ⟨h.entryIsOwn hi, (h.verified hids hv hi).2 (hpos i c hi)⟩

/-- Two nodes, allocated in the other order than their ids. -/
def swappedCalls : List AllocCall := [.leaf 1, .leaf 0]

/-- The library after an empty graph was started and the calls were made. -/
def afterCalls (cs : List AllocCall) : Outcome MemGraph Unit :=
  allocCalls cs (initializeGraph .user none 0 MemGraph.initial).2

/-- The id field of the node that an entry of the listing leads to. -/
def MemGraph.entryId (m : MemGraph) (k : UInt64) : Option UInt64 :=
  m.pool.bind fun p => m.nodes.bind fun L => (L.entry k.toNat).map fun off => (p.progstate off).id

theorem EntryIsOwn.entryId (h : EntryIsOwn m k) : m.entryId k = some k := by
  obtain ⟨p, L, off, hp, hL, hoff, -, -, hown⟩ := h
  simp only [MemGraph.entryId, hp, hL, hoff, hown, Option.bind_some, Option.map_some]

theorem swappedCalls_disagree :
    ¬∀ (cs : List AllocCall) (m₀ m m' : MemGraph), (cs.map AllocCall.id).Nodup →
      initializeGraph .user none 0 MemGraph.initial = (.ok (), m₀) →
      allocCalls cs m₀ = (.ok (), m) → verifyGraph (finalizeGraph m).2 = (.ok 1, m') →
      ∀ c ∈ cs, EntryIsOwn m c.id ∧ EntryIsOwn m' c.id := by
  intro h
  have hcalls : (afterCalls swappedCalls).1 = .ok () := by decide +kernel
  have hv : (verifyGraph (finalizeGraph (afterCalls swappedCalls).2).2).1 = .ok 1 := by
    decide +kernel
  have hfound := (h swappedCalls _ _ _ (by decide) rfl (Prod.ext hcalls rfl) (Prod.ext hv rfl)
    (.leaf 0) (.tail _ (.head _))).2.entryId
  have hswapped :
      (verifyGraph (finalizeGraph (afterCalls swappedCalls).2).2).2.entryId 0 = some 1 := by
    decide +kernel
  cases hfound.symm.trans hswapped

/-- An id of the kind a hash gives, beyond the table, and one that is its own position. -/
def hashedCalls : List AllocCall := [.leaf 0, .leaf 1000]

theorem hashedCalls_agree :
    let m := (afterCalls hashedCalls).2
    let m' := (verifyGraph (finalizeGraph m).2).2
    (EntryIsOwn m 0 ∧ EntryIsOwn m' 0) ∧ EntryIsOwn m 1000 ∧ EntryIsOwn m' 1000 := by
  have hown := (lookups_agree_iff .user hashedCalls (by decide) _ _ _ rfl
    (Prod.ext (by decide +kernel) rfl) (Prod.ext (by decide +kernel) rfl)).2 fun i c hi hlt => by
      match i with
      | 0 =>
        cases hi
        rfl
      | 1 =>
        cases hi
        exact absurd hlt (by decide)
  exact ⟨hown (.leaf 0) (.head _), hown (.leaf 1000) (.tail _ (.head _))⟩

end LibcSandbox
