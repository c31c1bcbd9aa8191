import LibcSandbox.MemGraph.Cursor

namespace LibcSandbox
open Library
set_option autoImplicit true

/-- All calls of the library of the tools. -/
inductive LibraryCall where
  | op (o : Op)
  | storeGraph (opened : Bool) (written : Nat)
  | resetProgstate
  | isStateTransitionValid (libccall : UInt64)
  | transitionToState (libccall : UInt64)

def LibraryCall.call (m : MemGraph) : LibraryCall → Outcome MemGraph Unit
  | .op o => o.call m
  | .storeGraph opened written =>
    ((LibcSandbox.storeGraph opened written m).map fun _ => (), m)
  | .resetProgstate => LibcSandbox.resetProgstate m
  | .isStateTransitionValid libccall =>
    ((LibcSandbox.isStateTransitionValid m libccall).map fun _ => (), m)
  | .transitionToState libccall =>
    let (r, m) := LibcSandbox.transitionToState m libccall
    (r.map fun _ => (), m)

/-- The calls have been made, and all of them returned. -/
inductive Reached : MemGraph → Prop
  | initial : Reached MemGraph.initial
  | call {m m' : MemGraph} (c : LibraryCall) :
      Reached m → c.call m = (.ok (), m') → Reached m'

variable {m m' : MemGraph} {p : Pool}

/-- A pool whose flag is not set and whose magic number is in place. -/
structure Unfinished (p : Pool) : Prop where
  finalized : p.graphFinalized = 0
  magic : p.magic = graphMetaMagicNumber

/-- What holds of every state that calls lead to. A pool that is not finished was made by
`create_pool` and written by `alloc_node` only. -/
structure ReachedOk (m : MemGraph) : Prop where
  listings : m.numNodesListings.toNat % 4096 = 0
  behind : ∀ p, m.pool = some p → nodeTableOffset ≤ m.poolEdge
  tableOffset : ∀ p, m.pool = some p → Unfinished p →
    p.nodesTableOffset = UInt64.ofNat nodeTableOffset
  numNodes : ∀ p, m.pool = some p → Unfinished p →
    m.poolEdge ≤ memoryPoolSize ∧ nodeTableOffset + 24 * p.numNodes.toNat ≤ m.poolEdge
  empty : ∀ p, m.pool = some p → Unfinished p → p.numNodes = 0 → m.poolEdge = nodeTableOffset

theorem ReachedOk.initial : ReachedOk MemGraph.initial where
  listings := rfl
  behind := fun p hp => by cases hp
  tableOffset := fun p hp => by cases hp
  numNodes := fun p hp => by cases hp
  empty := fun p hp => by cases hp

theorem ReachedOk.of_same (h : ReachedOk m) (hp : m'.pool = m.pool)
    (he : m'.poolEdge = m.poolEdge) (hc : m'.numNodesListings = m.numNodesListings) :
    ReachedOk m' where
  listings := by rw [hc]; exact h.listings
  behind := by rw [hp, he]; exact h.behind
  tableOffset := by rw [hp]; exact h.tableOffset
  numNodes := by rw [hp, he]; exact h.numNodes
  empty := by rw [hp, he]; exact h.empty

theorem ReachedOk.of_finished (hc : m.numNodesListings.toNat % 4096 = 0)
    (he : nodeTableOffset ≤ m.poolEdge) (hp : m.pool = some p) (hno : ¬Unfinished p) :
    ReachedOk m := by
  have hsame (q : Pool) (hq : m.pool = some q) : ¬Unfinished q := by
    cases hp.symm.trans hq
    exact hno
  exact ⟨hc, fun _ _ => he, fun q hq hu => absurd hu (hsame q hq),
    fun q hq hu => absurd hu (hsame q hq), fun q hq hu => absurd hu (hsame q hq)⟩

theorem ReachedOk.le_cursor (h : ReachedOk m) : nodeTableOffset ≤ m.cursor := by
  cases hp : m.pool with
  | none => rw [MemGraph.cursor, hp]; exact Nat.le_refl _
  | some p => rw [MemGraph.cursor_some hp]; exact h.behind p hp

/-- A call of `memset` breaks the magic number. -/
theorem not_unfinished_fill (p : Pool) (h : 0 < size) : ¬Unfinished (fill p size 0) := by
  intro hu
  have hlow := readWord_toNat_mod (fill p size 0) 0
  have hbyte : fill p size 0 0 = 0 := if_pos h
  have hmagic : readWord (fill p size 0) 0 = graphMetaMagicNumber := hu.magic
  rw [hbyte, hmagic] at hlow
  exact absurd hlow (by decide)

theorem verifyLoaded_finished (h : (verifyLoaded .user m).1 = .ok ()) (hp : m.pool = some p) :
    ¬Unfinished p := by
  have hv : (verifyGraph m).1 = .ok 1 := by
    rw [verifyLoaded] at h
    generalize verifyGraph m = x at h
    obtain ⟨r, m'⟩ := x
    cases r with
    | error e => cases h
    | ok code =>
      by_cases hcode : code = 1
      · rw [hcode]
      · simp only [ne_eq, hcode, not_false_eq_true, ↓reduceIte] at h
        cases h
  have hrun : verifyGraph m = (.ok 1, (verifyGraph m).2) := Prod.ext hv rfl
  obtain ⟨q, hq, hh, -⟩ := loaded_of_verifyGraph hrun
  cases hp.symm.trans hq
  exact fun hu => hh.finalized hu.finalized

theorem verifyLoaded_listings (build : Build) (m : MemGraph) :
    (verifyLoaded build m).2.numNodesListings = m.numNodesListings := by
  obtain ⟨nodes, hnodes⟩ := verifyGraph_state m
  rw [verifyLoaded_state, hnodes]

theorem initializePool_listings (build : Build) (data : Option Bytes) (size : Nat) (p : Pool)
    (m : MemGraph) :
    (initializePool build data size p m).2.numNodesListings = m.numNodesListings := by
  simp only [initializePool]
  split
  · rfl
  · split
    · split
      · rw [verifyLoaded_listings]
      · rfl
    · rfl

theorem initializeGraph_listings (build : Build) (data : Option Bytes) (size : Nat)
    (m : MemGraph) :
    (initializeGraph build data size m).2.numNodesListings = m.numNodesListings := by
  rw [initializeGraph]
  split
  · exact initializePool_listings build data size emptyPool (createPool m)
  · exact initializePool_listings build data size _ m

theorem loadGraph_listings (file : Option File) (m : MemGraph) :
    (loadGraph file m).2.numNodesListings = m.numNodesListings := by
  simp only [loadGraph]
  split
  · rfl
  · have hcreate : (if m.pool.isNone then createPool m else m).numNodesListings =
        m.numNodesListings := by
      split <;> rfl
    split
    · exact hcreate
    · rw [verifyLoaded_listings]
      exact hcreate

/-- An empty `initialize_graph` leaves the pool that is there, or makes one. -/
theorem ReachedOk.initialize_empty (h : ReachedOk m)
    (hp : m'.pool = some (m.pool.getD emptyPool)) (he : m'.poolEdge = m.cursor)
    (hc : m'.numNodesListings = m.numNodesListings) : ReachedOk m' := by
  cases hpool : m.pool with
  | some p =>
    rw [hpool, Option.getD_some] at hp
    rw [MemGraph.cursor_some hpool] at he
    exact h.of_same (hp.trans hpool.symm) he hc
  | none =>
    rw [hpool, Option.getD_none] at hp
    rw [MemGraph.cursor, hpool] at he
    have hheader := Pool.numNodes_header header_emptyPool
    have hsame (q : Pool) (hq : m'.pool = some q) : q = emptyPool := by
      cases hp.symm.trans hq
      rfl
    refine ⟨?_, fun q _ => Nat.le_of_eq he.symm, ?_, ?_, fun q _ _ _ => he⟩
    · rw [hc]
      exact h.listings
    · intro q hq _
      rw [hsame q hq]
      exact hheader.2.2.2
    · intro q hq _
      rw [hsame q hq, hheader.2.2.1, he, if_neg (by simp)]
      decide

theorem fill_zero (p : Pool) (b : UInt8) : fill p 0 b = p := by
  funext i
  simp only [fill, Nat.not_lt_zero, ↓reduceIte]

theorem copy_zero (p : Pool) (data : Bytes) : copy p data 0 = p := by
  funext i
  simp only [copy, Nat.not_lt_zero, ↓reduceIte]

theorem initializeGraph_size_le (hok : (initializeGraph .user data size m).1 = .ok ()) :
    size ≤ memoryPoolSize := by
  by_contra hlt
  rw [initializeGraph] at hok
  split at hok <;>
    · simp only [initializePool, if_pos (Nat.not_le.1 hlt)] at hok
      cases hok

/-- A buffer that was taken is a finished graph, and without one the magic number is gone. -/
theorem initializeGraph_finished (hpos : 0 < size)
    (hok : (initializeGraph .user data size m).1 = .ok ())
    (hb : (Op.initializeGraph data size).brings m = some p) : ¬Unfinished p := by
  cases data with
  | none =>
    cases hb
    exact not_unfinished_fill _ hpos
  | some data =>
    rw [initializeGraph_copied hpos (initializeGraph_size_le hok)] at hok
    cases hb
    exact verifyLoaded_finished hok (m.copied_pool data size)

theorem loadGraph_finished (hok : (loadGraph (some file) m).1 = .ok ())
    (hb : (Op.loadGraph file).brings m = some p) : ¬Unfinished p := by
  simp only [loadGraph] at hok
  by_cases hread : min file.length memoryPoolSize = memoryPoolSize
  · simp only [hread, ne_eq, not_true_eq_false, ↓reduceIte] at hok
    apply verifyLoaded_finished hok
    rw [← hb, Op.brings]
    cases hp : m.pool with
    | none => rfl
    | some p₀ =>
      simp only [Option.isNone_some, Bool.false_eq_true, ↓reduceIte, hp, Option.map_some,
        Option.getD_some]
  · simp only [hread, ne_eq, not_false_eq_true, ↓reduceIte] at hok
    cases hok

theorem growListings_listings (hc : m.numNodesListings.toNat % 4096 = 0)
    (hok : growListings m = (.ok L, m')) : m'.numNodesListings.toNat % 4096 = 0 := by
  rw [growListings] at hok
  split at hok
  · cases hok
    exact hc
  · split at hok
    · cases hok
    · split at hok
      · cases hok
        have hd : defaultNumberOfNodesListings.toNat = 4096 := rfl
        rw [UInt64.toNat_add, hd]
        omega
      · cases hok
        exact hc

theorem NodeWritten.unfinished_iff (h : NodeWritten p q node r es) :
    Unfinished q ↔ Unfinished p := by
  obtain ⟨hf, hm, -⟩ := Pool.numNodes_header h.header
  apply Iff.intro
  · intro hu
    exact ⟨hf.symm.trans hu.finalized, hm.symm.trans hu.magic⟩
  · intro hu
    exact ⟨hf.trans hu.finalized, hm.trans hu.magic⟩

theorem ReachedOk.alloc (h : ReachedOk m) {c : AllocCall}
    (hok : (c.run m).1.map (fun _ => ()) = .ok ()) : ReachedOk (c.run m).2 := by
  cases hrun : c.run m with
  | mk r m' =>
    rw [hrun] at hok
    cases r with
    | error e => cases hok
    | ok node =>
      obtain ⟨p, hpool⟩ := allocNode_pool hrun
      have hedge := h.behind p hpool
      obtain ⟨p', q, L, n, hp, rfl, hg, -, hw, rfl⟩ := allocNode_ok hedge hrun
      cases hpool.symm.trans hp
      obtain ⟨-, -, hnum, hoff⟩ := Pool.numNodes_header hw.header
      have hle := hw.end_le
      rw [length_arrayEdges] at hle
      -- an unfinished pool had room for its nodes, so that the count does not wrap
      have hcount (hu : Unfinished p) : q.numNodes.toNat = p.numNodes.toNat + 1 ∧
          nodeTableOffset + 24 * p.numNodes.toNat ≤ m.poolEdge := by
        obtain ⟨hroom, hnodes⟩ := h.numNodes p hpool hu
        rw [memoryPoolSize] at hroom
        rw [hnum, UInt64.toNat_add, show (1 : UInt64).toNat = 1 from rfl]
        omega
      have hsame (p' : Pool) (hp' : some q = some p') : q = p' := Option.some.inj hp'
      have hgrown := growListings_listings
        (m := { m with poolEdge := m.poolEdge + sizeofRecord }) h.listings hg
      refine ⟨hgrown, ?_, ?_, ?_, ?_⟩
      · intro _ _
        show nodeTableOffset ≤ m.poolEdge + sizeofRecord + c.numSuccessors.toNat * sizeofRecord
        omega
      · intro p' hp' hu
        cases hsame p' hp'
        exact hoff.trans (h.tableOffset p hpool (hw.unfinished_iff.1 hu))
      · intro p' hp' hu
        cases hsame p' hp'
        obtain ⟨hq, hnodes⟩ := hcount (hw.unfinished_iff.1 hu)
        refine ⟨hle, ?_⟩
        rw [hq]
        show _ ≤ m.poolEdge + sizeofRecord + c.numSuccessors.toNat * sizeofRecord
        rw [sizeofRecord]
        omega
      · intro p' hp' hu hz
        cases hsame p' hp'
        obtain ⟨hq, -⟩ := hcount (hw.unfinished_iff.1 hu)
        rw [hz] at hq
        cases hq

theorem ReachedOk.brings (h : ReachedOk m) {op : Op} (hr : op.Returns m)
    (hb : op.brings m = some p) (hc : (op.step m).numNodesListings = m.numNodesListings)
    (hno : ¬Unfinished p) : ReachedOk (op.step m) := by
  obtain ⟨hp, he⟩ := Op.brings_step hr hb
  apply ReachedOk.of_finished _ _ hp hno
  · rw [hc]
    exact h.listings
  · rw [he]
    exact h.le_cursor

theorem ReachedOk.op (h : ReachedOk m) {op : Op} (hr : op.Returns m) : ReachedOk (op.step m) := by
  cases op with
  | initializeGraph data size =>
    have hc := initializeGraph_listings .user data size m
    obtain ⟨p, hb⟩ : ∃ p, (Op.initializeGraph data size).brings m = some p := by
      cases data <;> exact ⟨_, rfl⟩
    cases Nat.eq_zero_or_pos size with
    | inl hz =>
      obtain ⟨hp, he⟩ := Op.brings_step hr hb
      refine h.initialize_empty (hp.trans ?_) he hc
      rw [← hb, hz]
      cases data with
      | none => rw [Op.brings, fill_zero]
      | some data => rw [Op.brings, copy_zero]
    | inr hpos => exact h.brings hr hb hc (initializeGraph_finished hpos hr hb)
  | loadGraph file =>
    exact h.brings hr rfl (loadGraph_listings (some file) m) (loadGraph_finished hr rfl)
  | allocNode c => exact h.alloc hr
  | finalizeGraph =>
    simp only [Op.step, Op.call, finalizeGraph]
    cases hpool : m.pool with
    | none => exact h.of_same rfl rfl rfl
    | some p =>
      refine .of_finished (p := p.setGraphFinalized 1) h.listings (h.behind p hpool) rfl ?_
      intro hu
      have hf := (Pool.numNodes_header (p.header_setGraphFinalized 1)).1
      rw [hu.finalized] at hf
      cases hf
  | verifyGraph =>
    obtain ⟨nodes, hstate⟩ := verifyGraph_state m
    have hstep : Op.verifyGraph.step m = { m with nodes := nodes } := hstate
    rw [hstep]
    exact h.of_same rfl rfl rfl
  | destroyGraph =>
    have hnone : (Op.destroyGraph.step m).pool = none := rfl
    refine ⟨h.listings, fun p hp => ?_, fun p hp => ?_, fun p hp => ?_, fun p hp => ?_⟩ <;>
    · rw [hnone] at hp
      cases hp

theorem resetProgstate_frame (m : MemGraph) :
    (LibcSandbox.resetProgstate m).2.pool = m.pool ∧
      (LibcSandbox.resetProgstate m).2.poolEdge = m.poolEdge ∧
      (LibcSandbox.resetProgstate m).2.numNodesListings = m.numNodesListings := by
  simp only [resetProgstate]
  split
  · exact ⟨rfl, rfl, rfl⟩
  · split <;> exact ⟨rfl, rfl, rfl⟩

theorem ReachedOk.call (h : ReachedOk m) (c : LibraryCall) (hr : c.call m = (.ok (), m')) :
    ReachedOk m' := by
  have hstep : (c.call m).2 = m' := by rw [hr]
  cases c with
  | op o =>
    have hret : o.Returns m := by rw [Op.Returns, ← LibraryCall.call, hr]
    exact hstep ▸ h.op hret
  | storeGraph opened written => exact hstep ▸ h
  | resetProgstate =>
    obtain ⟨hp, he, hc⟩ := resetProgstate_frame m
    exact hstep ▸ h.of_same hp he hc
  | isStateTransitionValid c => exact hstep ▸ h
  | transitionToState c =>
    obtain ⟨state, node, hm⟩ := transitionToState_state m c
    rw [← hstep, LibraryCall.call, hm]
    exact h.of_same rfl rfl rfl

theorem Reached.ok (h : Reached m) : ReachedOk m := by
  induction h with
  | initial => exact .initial
  | call c _ hr ih => exact ih.call c hr

end LibcSandbox
