import LibcSandbox.MemGraph.Table

namespace LibcSandbox
open Library
set_option autoImplicit true

/-- The listing after a write that is in range. -/
def Listing.put (L : Listing) (i node : Nat) : Listing :=
  { L with entry := Function.update L.entry i (some node) }

@[simp] theorem Listing.put_slots (L : Listing) (i node : Nat) :
    (L.put i node).slots = L.slots := rfl

theorem Listing.write_eq_ok (h : i < L.slots) : Listing.write L i node = .ok (L.put i node) := by
  rw [Listing.write, if_pos h]
  rfl

theorem Listing.write_eq_error (h : L.slots ≤ i) :
    Listing.write L i node = .error (.outOfListing i) := by
  rw [Listing.write, if_neg (Nat.not_lt.2 h)]

/-- The listing after the nodes of a table that starts at `off` were entered from slot `i` on. -/
def Listing.putTable (L : Listing) (i off : Nat) : List Node → Listing
  | [] => L
  | n :: ns => (L.put i off).putTable (i + 1) (off + n.size) ns

@[simp] theorem Listing.putTable_slots (L : Listing) (i off : Nat) (ns : List Node) :
    (L.putTable i off ns).slots = L.slots := by
  induction ns generalizing L i off with
  | nil => rfl
  | cons n ns ih => rw [Listing.putTable, ih, Listing.put_slots]

theorem Listing.putTable_entry_of_lt (L : Listing) (h : k < i) :
    (L.putTable i off ns).entry k = L.entry k := by
  induction ns generalizing L i off with
  | nil => rfl
  | cons n ns ih =>
    have hne : k ≠ i := by omega
    rw [Listing.putTable, ih _ (by omega)]
    simp only [Listing.put, Function.update_of_ne hne]

theorem Listing.putTable_entry (L : Listing) (h : k < ns.length) :
    (L.putTable i off ns).entry (i + k) = some (nodeOffset off ns k) := by
  induction ns generalizing L i off k with
  | nil => simp at h
  | cons n ns ih =>
    cases k with
    | zero =>
      change ((L.put i off).putTable (i + 1) (off + n.size) ns).entry i = _
      rw [Listing.putTable_entry_of_lt _ (Nat.lt_add_one i)]
      simp only [Listing.put, Function.update_self, nodeOffset_zero]
    | succ k =>
      have ht : ((L.put i off).putTable (i + 1) (off + n.size) ns).entry (i + 1 + k) = _ :=
        ih (L.put i off) (Nat.lt_of_succ_lt_succ h)
      rw [Listing.putTable, nodeOffset_cons, ← ht]
      congr 1
      omega

theorem verifyEdges_edgesAt (h : EdgesAt p (libcalls + j * sizeofRecord) es) :
    verifyEdges p libcalls j s (es.length + r) =
      verifyEdges p libcalls (j + es.length) (s + es.length * sizeofRecord) r := by
  induction es generalizing j s with
  | nil => simp only [List.length_nil, Nat.zero_add, Nat.add_zero, Nat.zero_mul]
  | cons e es ih =>
    have hm : (p.libcalls (libcalls + j * sizeofRecord)).magic = edgeMagicNumber := by rw [h.1.2]
    have ht : EdgesAt p (libcalls + (j + 1) * sizeofRecord) es := by
      rw [Nat.succ_mul, ← Nat.add_assoc]
      exact h.2
    rw [List.length_cons, Nat.add_right_comm, verifyEdges, if_neg (not_not.2 h.1.1),
      if_neg (not_not.2 hm), ih ht]
    congr 1
    · omega
    · rw [Nat.succ_mul]
      omega

theorem verifyEdges_all (h : EdgesAt p off es) :
    verifyEdges p off 0 off es.length = .done (off + es.length * sizeofRecord) := by
  have hes : EdgesAt p (off + 0 * sizeofRecord) es := by rwa [Nat.zero_mul, Nat.add_zero]
  have hrun := verifyEdges_edgesAt (s := off) (r := 0) hes
  rwa [Nat.add_zero, verifyEdges] at hrun

theorem verifyEdges_part (h : EdgesAt p off es) (hl : es.length < n) :
    ∃ r, verifyEdges p off 0 off n =
      verifyEdges p off es.length (off + es.length * sizeofRecord) (r + 1) := by
  obtain ⟨r, rfl⟩ := Nat.exists_eq_add_of_lt hl
  have hes : EdgesAt p (off + 0 * sizeofRecord) es := by rwa [Nat.zero_mul, Nat.add_zero]
  have hrun := verifyEdges_edgesAt (s := off) (r := r + 1) hes
  rw [Nat.zero_add] at hrun
  exact ⟨r, hrun⟩

theorem verifyEdges_outside (h : EdgesAt p off es) (hl : es.length < n)
    (ho : ¬Inside (off + es.length * sizeofRecord)) :
    verifyEdges p off 0 off n = .halt (.outOfPool (off + es.length * sizeofRecord)) := by
  obtain ⟨r, hr⟩ := verifyEdges_part h hl
  rw [hr, verifyEdges, if_pos ho]

theorem verifyEdges_badMagic (h : EdgesAt p off es) (hl : es.length < n)
    (hi : Inside (off + es.length * sizeofRecord))
    (hm : (p.libcalls (off + es.length * sizeofRecord)).magic ≠ edgeMagicNumber) :
    verifyEdges p off 0 off n = .stop errorInvalidEdge := by
  obtain ⟨r, hr⟩ := verifyEdges_part h hl
  rw [hr, verifyEdges, if_neg (not_not.2 hi), if_pos hm]

theorem verifyEdges_halt (hx : verifyEdges p libcalls j s n = .halt h) :
    ∃ o, h = .outOfPool o := by
  induction n generalizing j s with
  | zero => cases hx
  | succ n ih =>
    rw [verifyEdges] at hx
    split at hx
    next =>
      cases hx
      exact ⟨_, rfl⟩
    next =>
      split at hx
      next => cases hx
      next => exact ih hx

/-- The ways in which a node record at `off` stops the walk, with what the walk then returns. -/
inductive NodeFails (p : Pool) (off : Nat) : Except Halt Int → Prop
  | outside : ¬Inside off → NodeFails p off (.error (.outOfPool off))
  | magic : Inside off → (p.progstate off).magic ≠ nodeMagicNumber →
      NodeFails p off (.ok errorInvalidNode)
  | edgeOutside : Inside off → (p.progstate off).magic = nodeMagicNumber →
      EdgesAt p (off + sizeofRecord) es → es.length < (p.progstate off).numLibcalls.toNat →
      ¬Inside (off + sizeofRecord + es.length * sizeofRecord) →
      NodeFails p off (.error (.outOfPool (off + sizeofRecord + es.length * sizeofRecord)))
  | edgeMagic : Inside off → (p.progstate off).magic = nodeMagicNumber →
      EdgesAt p (off + sizeofRecord) es → es.length < (p.progstate off).numLibcalls.toNat →
      Inside (off + sizeofRecord + es.length * sizeofRecord) →
      (p.libcalls (off + sizeofRecord + es.length * sizeofRecord)).magic ≠ edgeMagicNumber →
      NodeFails p off (.ok errorInvalidEdge)

/-- Edge records are as they should be, or there is a first one that is not. -/
theorem edges_cases (p : Pool) (off n : Nat) :
    (∃ es, es.length = n ∧ EdgesAt p off es) ∨
      ∃ es, es.length < n ∧ EdgesAt p off es ∧
        (¬Inside (off + es.length * sizeofRecord) ∨
          (Inside (off + es.length * sizeofRecord) ∧
            (p.libcalls (off + es.length * sizeofRecord)).magic ≠ edgeMagicNumber)) := by
  induction n generalizing off with
  | zero => exact .inl ⟨[], rfl, trivial⟩
  | succ n ih =>
    have hoff : off + ([] : List Edge).length * sizeofRecord = off := by
      simp only [List.length_nil, Nat.zero_mul, Nat.add_zero]
    by_cases hi : Inside off
    · by_cases hm : (p.libcalls off).magic = edgeMagicNumber
      · have he : EdgeAt p off ⟨(p.libcalls off).libcallid, (p.libcalls off).nextProgstate⟩ :=
          ⟨hi, by rw [← hm]⟩
        rcases ih (off + sizeofRecord) with ⟨es, hl, hes⟩ | ⟨es, hl, hes, hend⟩
        · exact .inl ⟨_ :: es, congrArg Nat.succ hl, he, hes⟩
        · refine .inr ⟨_ :: es, Nat.succ_lt_succ hl, ⟨he, hes⟩, ?_⟩
          have hsum (k : Nat) : off + (k + 1) * sizeofRecord =
              off + sizeofRecord + k * sizeofRecord := by rw [Nat.succ_mul]; omega
          rw [List.length_cons, hsum]
          exact hend
      · exact .inr ⟨[], Nat.succ_pos n, trivial, by rw [hoff]; exact .inr ⟨hi, hm⟩⟩
    · exact .inr ⟨[], Nat.succ_pos n, trivial, by rw [hoff]; exact .inl hi⟩

theorem node_cases (p : Pool) (off : Nat) :
    (∃ n, NodeAt p off n) ∨ ∃ r, NodeFails p off r := by
  by_cases hi : Inside off
  · by_cases hm : (p.progstate off).magic = nodeMagicNumber
    · rcases edges_cases p (off + sizeofRecord) (p.progstate off).numLibcalls.toNat with
        ⟨es, hl, hes⟩ | ⟨es, hl, hes, hout | ⟨hin, hbad⟩⟩
      · exact .inl ⟨⟨(p.progstate off).id, es⟩, hi, hm, rfl, hl.symm, hes⟩
      · exact .inr ⟨_, .edgeOutside hi hm hes hl hout⟩
      · exact .inr ⟨_, .edgeMagic hi hm hes hl hin hbad⟩
    · exact .inr ⟨_, .magic hi hm⟩
  · exact .inr ⟨_, .outside hi⟩

theorem verifyNodes_nodeAt (h : NodeAt p off n) (hi : i < L.slots) :
    verifyNodes p L i off (r + 1) = verifyNodes p (L.put i off) (i + 1) (off + n.size) r := by
  simp only [verifyNodes, Listing.write_eq_ok hi, h.inside, h.magic, h.numLibcalls,
    verifyEdges_all h.edges, not_true_eq_false, ne_eq, ↓reduceIte, Node.size, Nat.add_assoc]

theorem verifyNodes_nodeFails (h : NodeFails p off x) (hi : i < L.slots) :
    verifyNodes p L i off (r + 1) = (x, L.put i off) := by
  cases h with
  | outside ho =>
    simp only [verifyNodes, Listing.write_eq_ok hi, ho, not_false_eq_true, ↓reduceIte]
  | magic hin hm =>
    simp only [verifyNodes, Listing.write_eq_ok hi, hin, not_true_eq_false, ↓reduceIte, ne_eq, hm,
      not_false_eq_true]
  | edgeOutside hin hm hes hl ho =>
    simp only [verifyNodes, Listing.write_eq_ok hi, hin, hm, verifyEdges_outside hes hl ho,
      not_true_eq_false, ne_eq, ↓reduceIte]
  | edgeMagic hin hm hes hl hin' hbad =>
    simp only [verifyNodes, Listing.write_eq_ok hi, hin, hm, verifyEdges_badMagic hes hl hin' hbad,
      not_true_eq_false, ne_eq, ↓reduceIte]

theorem verifyNodes_outOfListing (hi : L.slots ≤ i) :
    verifyNodes p L i off (r + 1) = (.error (.outOfListing i), L) := by
  simp only [verifyNodes, Listing.write_eq_error hi]

theorem verifyNodes_tableAt (h : TableAt p off ns) (hi : i + ns.length ≤ L.slots) :
    verifyNodes p L i off (ns.length + r) =
      verifyNodes p (L.putTable i off ns) (i + ns.length) (off + extent Node.size ns) r := by
  induction ns generalizing L i off with
  | nil => simp only [List.length_nil, Nat.zero_add, Nat.add_zero, extent_nil, Listing.putTable]
  | cons n ns ih =>
    rw [List.length_cons] at hi
    have ht := ih (L := L.put i off) (i := i + 1) h.2 (by rw [Listing.put_slots]; omega)
    rw [List.length_cons, Nat.add_right_comm, verifyNodes_nodeAt h.1 (by omega), ht, extent_cons,
      Listing.putTable, Nat.add_assoc off, Nat.add_right_comm i, Nat.add_assoc i]

/-- How the walk over `n` nodes ends that enters slots from `i` on: with all of them accepted,
at the end of the listing, or at a node record that stops it. -/
inductive WalkEnds (p : Pool) (L : Listing) (i off n : Nat) : Outcome Listing Int → Prop
  | accepted (ns : List Node) : ns.length = n → TableAt p off ns → i + n ≤ L.slots →
      WalkEnds p L i off n (.ok 1, L.putTable i off ns)
  | outOfListing (ns : List Node) : ns.length < n → TableAt p off ns → i + ns.length = L.slots →
      WalkEnds p L i off n (.error (.outOfListing L.slots), L.putTable i off ns)
  | fails (ns : List Node) : ns.length < n → TableAt p off ns → i + ns.length < L.slots →
      NodeFails p (nodeOffset off ns ns.length) x →
      WalkEnds p L i off n
        (x, (L.putTable i off ns).put (i + ns.length) (nodeOffset off ns ns.length))

theorem WalkEnds.cons (hn : NodeAt p off n)
    (h : WalkEnds p (L.put i off) (i + 1) (off + n.size) r x) : WalkEnds p L i off (r + 1) x := by
  cases h with
  | accepted ns hl ht hs =>
    exact .accepted (n :: ns) (congrArg Nat.succ hl) ⟨hn, ht⟩ (by simp at hs; omega)
  | outOfListing ns hl ht hs =>
    exact .outOfListing (n :: ns) (Nat.succ_lt_succ hl) ⟨hn, ht⟩ (by simp at hs ⊢; omega)
  | fails ns hl ht hs hx =>
    rw [Nat.add_right_comm, Nat.add_assoc i, ← nodeOffset_cons]
    exact .fails (n :: ns) (Nat.succ_lt_succ hl) ⟨hn, ht⟩ (by simp at hs ⊢; omega)
      (by rw [List.length_cons, nodeOffset_cons]; exact hx)

theorem verifyNodes_ends (p : Pool) (L : Listing) (i off n : Nat) (hi : i ≤ L.slots) :
    WalkEnds p L i off n (verifyNodes p L i off n) := by
  induction n generalizing L i off with
  | zero => exact .accepted [] rfl trivial hi
  | succ n ih =>
    rcases Nat.lt_or_eq_of_le hi with hlt | he
    · rcases node_cases p off with ⟨a, ha⟩ | ⟨x, hx⟩
      · rw [verifyNodes_nodeAt ha hlt]
        exact .cons ha (ih (L.put i off) (i + 1) (off + a.size) hlt)
      · rw [verifyNodes_nodeFails hx hlt]
        exact .fails [] (Nat.succ_pos n) trivial hlt hx
    · rw [verifyNodes_outOfListing (Nat.le_of_eq he.symm), he]
      exact .outOfListing [] (Nat.succ_pos n) trivial rfl

theorem WalkEnds.eq (h : WalkEnds p L i off n x) : verifyNodes p L i off n = x := by
  cases h with
  | accepted ns hl ht hs =>
    subst hl
    have hrun := verifyNodes_tableAt (r := 0) ht hs
    rw [Nat.add_zero] at hrun
    rw [hrun, verifyNodes]
  | outOfListing ns hl ht hs =>
    obtain ⟨k, rfl⟩ := Nat.exists_eq_add_of_lt hl
    rw [Nat.add_assoc, verifyNodes_tableAt ht (Nat.le_of_eq hs), verifyNodes_outOfListing, hs]
    rw [Listing.putTable_slots, hs]
  | fails ns hl ht hs hx =>
    obtain ⟨k, rfl⟩ := Nat.exists_eq_add_of_lt hl
    rw [Nat.add_assoc, verifyNodes_tableAt ht (Nat.le_of_lt hs)]
    rw [nodeOffset, List.take_length] at hx ⊢
    rw [verifyNodes_nodeFails hx (by rwa [Listing.putTable_slots])]

/-- The checks of `verify_graph` on the metadata. -/
structure HeaderOk (p : Pool) : Prop where
  finalized : p.graphFinalized ≠ 0
  magic : p.magic = graphMetaMagicNumber

/-- The listing that `verify_graph` fills: the one that is there, or a new one. -/
def MemGraph.listingFor (m : MemGraph) (p : Pool) : Listing := m.nodes.getD (.malloc p.numNodes)

theorem verifyGraph_headerOk {m : MemGraph} (hp : m.pool = some p) (h : HeaderOk p) :
    verifyGraph m =
      let x := verifyNodes p (m.listingFor p) 0 p.nodesTableOffset.toNat p.numNodes.toNat
      (x.1, { m with nodes := some x.2 }) := by
  simp only [verifyGraph, hp, if_neg h.finalized, h.magic, ne_eq, not_true_eq_false, ↓reduceIte,
    MemGraph.listingFor]

theorem verifyGraph_ends {m : MemGraph} (hp : m.pool = some p) (h : HeaderOk p) :
    ∃ x, WalkEnds p (m.listingFor p) 0 p.nodesTableOffset.toNat p.numNodes.toNat x ∧
      verifyGraph m = (x.1, { m with nodes := some x.2 }) := by
  have hends := verifyNodes_ends p (m.listingFor p) 0 p.nodesTableOffset.toNat
    p.numNodes.toNat (Nat.zero_le _)
  exact ⟨_, hends, verifyGraph_headerOk hp h⟩

theorem WalkEnds.verifyGraph {m : MemGraph} (hp : m.pool = some p) (h : HeaderOk p)
    (hends : WalkEnds p (m.listingFor p) 0 p.nodesTableOffset.toNat p.numNodes.toNat x) :
    LibcSandbox.verifyGraph m = (x.1, { m with nodes := some x.2 }) := by
  rw [verifyGraph_headerOk hp h, hends.eq]

/-- Without a pool, or with a header that is not in order, nothing changes. -/
theorem verifyGraph_refuses {m : MemGraph} (h : ∀ p, m.pool = some p → ¬HeaderOk p) :
    ∃ code, code ≠ 1 ∧ verifyGraph m = (.ok code, m) := by
  cases hp : m.pool with
  | none => exact ⟨errorInvalidGraph, by decide, by simp only [verifyGraph, hp]⟩
  | some p =>
    by_cases hf : p.graphFinalized = 0
    · exact ⟨errorInvalidState, by decide, by simp only [verifyGraph, hp, hf, ↓reduceIte]⟩
    · have hm : p.magic ≠ graphMetaMagicNumber := fun hm => h p hp ⟨hf, hm⟩
      refine ⟨errorInvalidGraph, by decide, ?_⟩
      simp only [verifyGraph, hp, if_neg hf, ne_eq, hm, not_false_eq_true, ↓reduceIte]

theorem NodeFails.ne_one (h : NodeFails p off x) : x ≠ .ok 1 := by
  cases h <;> simp [errorInvalidNode, errorInvalidEdge]

/-- The tables `verify_graph` accepts, and the state it then leaves. -/
theorem verifyGraph_eq_one_iff {m m' : MemGraph} :
    verifyGraph m = (.ok 1, m') ↔
      ∃ p ns, m.pool = some p ∧ HeaderOk p ∧ TableAt p p.nodesTableOffset.toNat ns ∧
        ns.length = p.numNodes.toNat ∧ ns.length ≤ (m.listingFor p).slots ∧
        m' = { m with
          nodes := some ((m.listingFor p).putTable 0 p.nodesTableOffset.toNat ns) } := by
  apply Iff.intro
  · intro h
    by_cases hok : ∃ p, m.pool = some p ∧ HeaderOk p
    · obtain ⟨p, hp, hh⟩ := hok
      obtain ⟨x, hends, hrun⟩ := verifyGraph_ends hp hh
      rw [hrun] at h
      simp only [Prod.mk.injEq] at h
      cases hends with
      | accepted ns hl ht hs =>
        exact ⟨p, ns, hp, hh, ht, hl, by omega, h.2.symm⟩
      | outOfListing => simp at h
      | fails _ _ _ _ hx => exact (hx.ne_one h.1).elim
    · obtain ⟨code, hne, he⟩ := verifyGraph_refuses fun p hp hh => hok ⟨p, hp, hh⟩
      rw [he] at h
      simp only [Prod.mk.injEq, Except.ok.injEq] at h
      exact (hne h.1).elim
  · intro hx
    obtain ⟨p, ns, hp, hh, ht, hl, hs, rfl⟩ := hx
    exact WalkEnds.verifyGraph hp hh (.accepted ns hl ht (by omega))

/-- A graph that is loaded: its nodes lie in the pool and in the listing. -/
structure Loaded (m : MemGraph) (p : Pool) (ns : List Node) : Prop where
  pool : m.pool = some p
  table : TableAt p p.nodesTableOffset.toNat ns
  numNodes : p.numNodes.toNat = ns.length
  listing : ∃ L, m.nodes = some L ∧ ns.length ≤ L.slots ∧
    ∀ k < ns.length, L.entry k = some (nodeOffset p.nodesTableOffset.toNat ns k)

theorem loaded_of_verifyGraph {m m' : MemGraph} (h : verifyGraph m = (.ok 1, m')) :
    ∃ p, m.pool = some p ∧ HeaderOk p ∧ Loaded m' p p.table := by
  obtain ⟨p, ns, hp, hh, ht, hl, hs, rfl⟩ := verifyGraph_eq_one_iff.1 h
  refine ⟨p, hp, hh, hp, ?_, ?_, _, rfl, ?_, ?_⟩
  · rwa [ht.table hl]
  · rw [ht.table hl, hl]
  · rwa [ht.table hl, Listing.putTable_slots]
  · intro k hk
    rw [ht.table hl] at hk ⊢
    have he : ((m.listingFor p).putTable 0 p.nodesTableOffset.toNat ns).entry (0 + k) = _ :=
      Listing.putTable_entry _ hk
    rwa [Nat.zero_add] at he

theorem verifyGraph_state (m : MemGraph) :
    ∃ nodes, (verifyGraph m).2 = { m with nodes := nodes } := by
  rw [verifyGraph]
  split
  · exact ⟨m.nodes, rfl⟩
  · split
    · exact ⟨m.nodes, rfl⟩
    · split
      · exact ⟨m.nodes, rfl⟩
      · exact ⟨_, rfl⟩

theorem verifyLoaded_state (build : Build) (m : MemGraph) :
    (verifyLoaded build m).2 = (verifyGraph m).2 := by
  rw [verifyLoaded]
  generalize verifyGraph m = x
  obtain ⟨r, m'⟩ := x
  cases r <;> rfl

/-- The state in which the library verifies a buffer that was copied over the start of its pool. -/
def MemGraph.copied (m : MemGraph) (data : Bytes) (size : Nat) : MemGraph :=
  { if m.pool.isNone then createPool m else m with
    pool := some (copy (m.pool.getD emptyPool) data size) }

@[simp] theorem MemGraph.copied_pool (m : MemGraph) (data : Bytes) (size : Nat) :
    (m.copied data size).pool = some (copy (m.pool.getD emptyPool) data size) := rfl

@[simp] theorem MemGraph.copied_nodes (m : MemGraph) (data : Bytes) (size : Nat) :
    (m.copied data size).nodes = m.nodes := by
  rw [MemGraph.copied]
  split <;> rfl

@[simp] theorem MemGraph.copied_startNode (m : MemGraph) (data : Bytes) (size : Nat) :
    (m.copied data size).startNode = m.startNode := by
  rw [MemGraph.copied]
  split <;> rfl

theorem initializeGraph_copied {m : MemGraph} (h₁ : 0 < size) (h₂ : size ≤ memoryPoolSize) :
    initializeGraph build (some data) size m = verifyLoaded build (m.copied data size) := by
  cases hp : m.pool <;>
    simp only [initializeGraph, hp, initializePool, if_neg (Nat.not_lt.2 h₂), if_pos h₁, copy_fill,
      MemGraph.copied, Option.isNone_none, Option.isNone_some, Bool.false_eq_true, ↓reduceIte,
      Option.getD_none, Option.getD_some]

/-- What a fresh pool holds once a buffer was copied over its start. -/
def loadedPool (data : Bytes) (size : Nat) : Pool := copy emptyPool data size

theorem MemGraph.copied_pool_of_none (m : MemGraph) (data : Bytes) (size : Nat)
    (hp : m.pool = none) : (m.copied data size).pool = some (loadedPool data size) := by
  rw [MemGraph.copied_pool, hp, Option.getD_none, loadedPool]

end LibcSandbox
