import LibcSandbox.Library.Machine
import LibcSandbox.MemGraph.Alloc

namespace LibcSandbox
open Library
set_option autoImplicit true

/-- Where the last of the records ends that the metadata announces. -/
def Pool.tableEnd (p : Pool) : Nat := p.nodesTableOffset.toNat + extent Node.size p.table

theorem length_readEdges (p : Pool) (off n : Nat) : (p.readEdges off n).length = n := by
  induction n generalizing off with
  | zero => rfl
  | succ n ih => rw [Pool.readEdges, List.length_cons, ih]

theorem length_readTable (p : Pool) (off n : Nat) : (p.readTable off n).length = n := by
  induction n generalizing off with
  | zero => rfl
  | succ n ih => rw [Pool.readTable, List.length_cons, ih]

theorem size_readNode (p : Pool) (off : Nat) :
    (p.readNode off).size =
      sizeofRecord + (p.progstate off).numLibcalls.toNat * sizeofRecord := by
  rw [Node.size, Pool.readNode, length_readEdges]

theorem readEdges_congr (h : AgreeOn p q off (off + n * sizeofRecord)) :
    Pool.readEdges q off n = Pool.readEdges p off n := by
  induction n generalizing off with
  | zero => rfl
  | succ n ih =>
    rw [Nat.succ_mul] at h
    rw [Pool.readEdges, Pool.readEdges, ih (h.mono (Nat.le_add_right _ _) (by omega)),
      Pool.libcalls_congr (h.mono (Nat.le_refl _) (by omega))]

theorem readNode_congr (h : AgreeOn p q off (off + (Pool.readNode p off).size)) :
    Pool.readNode q off = Pool.readNode p off := by
  rw [size_readNode] at h
  rw [Pool.readNode, Pool.readNode, ← Pool.progstate_congr (h.mono (Nat.le_refl _) (by omega)),
    readEdges_congr (h.mono (Nat.le_add_right _ _) (by omega))]

theorem readTable_congr (h : AgreeOn p q off (off + extent Node.size (Pool.readTable p off n))) :
    Pool.readTable q off n = Pool.readTable p off n := by
  induction n generalizing off with
  | zero => rfl
  | succ n ih =>
    rw [Pool.readTable, extent_cons] at h
    have hnode : Pool.readNode q off = Pool.readNode p off :=
      readNode_congr (h.mono (Nat.le_refl _) (by omega))
    rw [Pool.readTable, Pool.readTable, hnode,
      ih (h.mono (Nat.le_add_right _ _) (by omega))]

theorem readTable_succ (p : Pool) (off n : Nat) :
    p.readTable off (n + 1) =
      p.readTable off n ++ [p.readNode (off + extent Node.size (p.readTable off n))] := by
  induction n generalizing off with
  | zero => rfl
  | succ n ih =>
    rw [Pool.readTable, ih, Pool.readTable, List.cons_append, extent_cons, Nat.add_assoc]

theorem Pool.tableEnd_congr {p q : Pool} (hoff : q.nodesTableOffset = p.nodesTableOffset)
    (hnum : q.numNodes = p.numNodes)
    (h : AgreeOn p q p.nodesTableOffset.toNat p.tableEnd) : q.tableEnd = p.tableEnd := by
  rw [Pool.tableEnd, Pool.tableEnd, Pool.table, Pool.table, hoff, hnum, readTable_congr h]

theorem NodeWritten.tableEnd {p q : Pool} (h : NodeWritten p q p.tableEnd r es)
    (hr : r.numLibcalls.toNat = es.length) (hoff : nodeTableOffset ≤ p.nodesTableOffset.toNat) :
    q.tableEnd = p.tableEnd + sizeofRecord + es.length * sizeofRecord := by
  have hnum : q.numNodes = p.numNodes + 1 := (Pool.numNodes_header (h.header.trans rfl)).2.2.1
  have htab : q.nodesTableOffset = p.nodesTableOffset :=
    (Pool.numNodes_header (h.header.trans rfl)).2.2.2
  have hlen := length_le_extent p.table
  have hend := h.end_le
  rw [Pool.table, length_readTable, ← Pool.table] at hlen
  have hsucc : q.numNodes.toNat = p.numNodes.toNat + 1 := by
    rw [Pool.tableEnd, memoryPoolSize] at hend
    rw [hnum, UInt64.toNat_add]
    exact Nat.mod_eq_of_lt (by rw [show (1 : UInt64).toNat = 1 from rfl]; omega)
  have hold : q.readTable p.nodesTableOffset.toNat p.numNodes.toNat = p.table :=
    readTable_congr (h.below.mono hoff (Nat.le_refl _))
  have hnew : (q.readNode p.tableEnd).size = sizeofRecord + es.length * sizeofRecord := by
    rw [size_readNode, h.record, hr]
  rw [Pool.tableEnd, Pool.table, htab, hsucc, readTable_succ, hold, extent_append, extent_cons,
    extent_nil, Nat.add_zero, ← Nat.add_assoc, ← Pool.tableEnd, hnew, Nat.add_assoc]

/-- The calls that make, replace, extend, finish, check and drop a graph. -/
inductive Op where
  | initializeGraph (data : Option Bytes) (size : Nat)
  | loadGraph (file : File)
  | allocNode (c : AllocCall)
  | finalizeGraph
  | verifyGraph
  | destroyGraph

/-- The library of the tools, which is the only build that has all of these calls. -/
def Op.call (m : MemGraph) : Op → Outcome MemGraph Unit
  | .initializeGraph data size => LibcSandbox.initializeGraph .user data size m
  | .loadGraph file => LibcSandbox.loadGraph (some file) m
  | .allocNode c => let (r, m) := c.run m; (r.map fun _ => (), m)
  | .finalizeGraph => LibcSandbox.finalizeGraph m
  | .verifyGraph => let (r, m) := LibcSandbox.verifyGraph m; (r.map fun _ => (), m)
  | .destroyGraph => (.ok (), LibcSandbox.destroyGraph m)

def Op.step (m : MemGraph) (op : Op) : MemGraph := (op.call m).2

/-- The call comes back: what it loads is accepted and what it allocates fits. -/
def Op.Returns (m : MemGraph) (op : Op) : Prop := (op.call m).1 = .ok ()

/-- The pool that a call brings in from outside. -/
def Op.brings (m : MemGraph) : Op → Option Pool
  | .initializeGraph (some data) size => some (copy (m.pool.getD emptyPool) data size)
  | .initializeGraph none size => some (fill (m.pool.getD emptyPool) size 0)
  | .loadGraph file => some (copy (m.pool.getD emptyPool) file.contents memoryPoolSize)
  | _ => none

/-- Where the cursor stands, once there is a pool. -/
def MemGraph.cursor (m : MemGraph) : Nat := if m.pool.isSome then m.poolEdge else nodeTableOffset

def CursorAtEnd (m : MemGraph) : Prop := ∀ p, m.pool = some p → m.poolEdge = p.tableEnd

/-- A call of `alloc_node` leaves the records of the nodes that were there. -/
def Op.KeepsRecords (m : MemGraph) (op : Op) : Prop :=
  ∀ c, op = .allocNode c → ∀ p q, m.pool = some p → (op.step m).pool = some q →
    AgreeOn p q p.nodesTableOffset.toNat p.tableEnd

/-- A pool that is brought in has its table end at the cursor; where a pool is written to its
table lies behind the metadata; and no number of successors is negative. -/
structure Op.KeepsCursor (m : MemGraph) (op : Op) : Prop where
  brings : ∀ p, op.brings m = some p → p.tableEnd = m.cursor
  finalize : op = .finalizeGraph → ∀ p, m.pool = some p →
    nodeTableOffset ≤ p.nodesTableOffset.toNat
  alloc : ∀ c, op = .allocNode c → 0 ≤ c.numSuccessors ∧
    ∀ p, m.pool = some p → nodeTableOffset ≤ p.nodesTableOffset.toNat

theorem verifyGraph_frame (m : MemGraph) :
    (verifyGraph m).2.pool = m.pool ∧ (verifyGraph m).2.poolEdge = m.poolEdge := by
  obtain ⟨nodes, hstate⟩ := verifyGraph_state m
  rw [hstate]
  exact ⟨rfl, rfl⟩

theorem verifyLoaded_frame (build : Build) (m : MemGraph) :
    (verifyLoaded build m).2.pool = m.pool ∧ (verifyLoaded build m).2.poolEdge = m.poolEdge := by
  rw [verifyLoaded_state]
  exact verifyGraph_frame m

theorem createPool_cursor {m : MemGraph} (hp : m.pool = none) :
    (createPool m).poolEdge = m.cursor := by
  rw [MemGraph.cursor, hp]
  rfl

theorem MemGraph.cursor_some {m : MemGraph} (hp : m.pool = some p) : m.cursor = m.poolEdge := by
  rw [MemGraph.cursor, hp]
  rfl

theorem initializePool_ok {m : MemGraph}
    (hok : (initializePool .user data size p m).1 = .ok ()) :
    (initializePool .user data size p m).2.pool =
        some (data.elim (fill p size 0) fun data => copy p data size) ∧
      (initializePool .user data size p m).2.poolEdge = m.poolEdge := by
  have hle : ¬memoryPoolSize < size := by
    intro hlt
    simp only [initializePool, if_pos hlt] at hok
    cases hok
  simp only [initializePool, if_neg hle] at hok ⊢
  cases data with
  | none => exact ⟨rfl, rfl⟩
  | some data =>
    by_cases hpos : 0 < size
    · simp only [if_pos hpos, copy_fill] at hok ⊢
      obtain ⟨hpool, hedge⟩ := verifyLoaded_frame .user { m with pool := some (copy p data size) }
      exact ⟨hpool, hedge⟩
    · obtain rfl : size = 0 := by omega
      have hsame : fill p 0 0 = copy p data 0 := by
        funext i
        simp only [fill, copy, Nat.not_lt_zero, ↓reduceIte]
      simp only [Nat.lt_irrefl, ↓reduceIte, hsame, Option.elim_some, and_self]

theorem Op.brings_step {op : Op} (hr : op.Returns m) (hb : op.brings m = some p) :
    (op.step m).pool = some p ∧ (op.step m).poolEdge = m.cursor := by
  cases op with
  | initializeGraph data size =>
    have hp : some (data.elim (fill (m.pool.getD emptyPool) size 0) fun data =>
        copy (m.pool.getD emptyPool) data size) = some p := by
      cases data <;> exact hb
    rw [← hp]
    simp only [Op.Returns, Op.step, Op.call, LibcSandbox.initializeGraph] at hr ⊢
    cases hpool : m.pool with
    | none =>
      simp only [hpool] at hr ⊢
      rw [← createPool_cursor hpool]
      exact initializePool_ok hr
    | some p₀ =>
      simp only [hpool] at hr ⊢
      rw [MemGraph.cursor_some hpool]
      exact initializePool_ok hr
  | loadGraph file =>
    simp only [Op.Returns, Op.step, Op.call, LibcSandbox.loadGraph] at hr ⊢
    by_cases hread : min file.length memoryPoolSize = memoryPoolSize
    · simp only [hread, ne_eq, not_true_eq_false, ↓reduceIte] at hr ⊢
      rw [(verifyLoaded_frame _ _).1, (verifyLoaded_frame _ _).2, ← hb, Op.brings]
      cases hpool : m.pool with
      | none => exact ⟨rfl, (createPool_cursor hpool).trans rfl⟩
      | some p₀ =>
        simp only [hpool, Option.isNone_some, Bool.false_eq_true, ↓reduceIte, Option.map_some,
          Option.getD_some, MemGraph.cursor_some hpool, and_self]
    · simp only [hread, ne_eq, not_false_eq_true, ↓reduceIte] at hr
      cases hr
  | allocNode n => cases hb
  | finalizeGraph => cases hb
  | verifyGraph => cases hb
  | destroyGraph => cases hb

/-- The cursor stands where the table ends, and never inside the metadata. -/
structure CursorOk (m : MemGraph) : Prop where
  atEnd : CursorAtEnd m
  behind : ∀ p, m.pool = some p → nodeTableOffset ≤ m.poolEdge

theorem CursorOk.le_cursor (h : CursorOk m) : nodeTableOffset ≤ m.cursor := by
  cases hp : m.pool with
  | none => rw [MemGraph.cursor, hp]; exact Nat.le_refl _
  | some p => rw [MemGraph.cursor_some hp]; exact h.behind p hp

theorem CursorOk.of_same (h : CursorOk m) (hp : m'.pool = m.pool)
    (he : m'.poolEdge = m.poolEdge) : CursorOk m' := by
  refine ⟨fun p hp' => ?_, fun p hp' => ?_⟩
  · rw [he]
    exact h.atEnd p (hp ▸ hp')
  · rw [he]
    exact h.behind p (hp ▸ hp')

theorem Op.brings_cursorAtEnd_iff {op : Op} (hr : op.Returns m) (hb : op.brings m = some p) :
    CursorAtEnd (op.step m) ↔ p.tableEnd = m.cursor := by
  obtain ⟨hpool, hedge⟩ := Op.brings_step hr hb
  rw [CursorAtEnd, hpool, hedge]
  apply Iff.intro
  · intro h
    exact (h p rfl).symm
  · intro h q hq
    cases hq
    exact h.symm

theorem CursorOk.brings {op : Op} (h : CursorOk m) (hr : op.Returns m)
    (hb : op.brings m = some p) (hk : p.tableEnd = m.cursor) : CursorOk (op.step m) := by
  refine ⟨(Op.brings_cursorAtEnd_iff hr hb).2 hk, fun q _ => ?_⟩
  rw [(Op.brings_step hr hb).2]
  exact h.le_cursor

theorem AllocCall.numLibcalls_eq (c : AllocCall) (h : 0 ≤ c.numSuccessors) :
    (toUnsignedLong c.numSuccessors).toNat = c.numSuccessors.toNat := by
  apply c.toNat_numSuccessors
  obtain ⟨-, hhi⟩ := c.isInt
  rw [toNat_toUnsignedLong]
  omega

/-- A node that is allocated at the end of the table becomes its last, and nothing of the table
is overwritten. -/
theorem CursorOk.alloc {c : AllocCall} (h : CursorOk m) (hr : (Op.allocNode c).Returns m)
    (hnum : 0 ≤ c.numSuccessors)
    (hoff : ∀ p, m.pool = some p → nodeTableOffset ≤ p.nodesTableOffset.toNat) :
    CursorOk ((Op.allocNode c).step m) ∧ (Op.allocNode c).KeepsRecords m := by
  simp only [Op.Returns, Op.step, Op.call, Op.KeepsRecords] at hr ⊢
  cases hrun : c.run m with
  | mk r m' =>
    cases r with
    | error e =>
      rw [hrun] at hr
      cases hr
    | ok node =>
      obtain ⟨p, hpool⟩ := allocNode_pool hrun
      have hedge := h.behind p hpool
      obtain ⟨p', q, L, n, hp, rfl, -, -, hw, rfl⟩ := allocNode_ok hedge hrun
      cases hpool.symm.trans hp
      have hend := h.atEnd p hpool
      rw [hend] at hw
      have hq := hw.tableEnd (by rw [length_arrayEdges]; exact c.numLibcalls_eq hnum)
        (hoff p hpool)
      rw [length_arrayEdges] at hq
      refine ⟨⟨?_, ?_⟩, ?_⟩
      · intro q' hq'
        cases hq'
        rw [hq, ← hend]
      · intro q' _
        exact Nat.le_trans hedge (Nat.le_trans (Nat.le_add_right _ _) (Nat.le_add_right _ _))
      · intro c' _ p' q' hp' hq'
        cases hpool.symm.trans hp'
        cases hq'
        exact hw.below.mono (hoff p hpool) (Nat.le_refl _)

theorem CursorOk.finalize (h : CursorOk m)
    (hoff : ∀ p, m.pool = some p → nodeTableOffset ≤ p.nodesTableOffset.toNat) :
    CursorOk (Op.finalizeGraph.step m) := by
  simp only [Op.step, Op.call, LibcSandbox.finalizeGraph]
  cases hpool : m.pool with
  | none => exact h.of_same rfl rfl
  | some p =>
    have hheader := p.header_setGraphFinalized 1
    have hlo : 33 ≤ p.nodesTableOffset.toNat := Nat.le_trans (by decide) (hoff p hpool)
    have hend : (p.setGraphFinalized 1).tableEnd = p.tableEnd :=
      Pool.tableEnd_congr (Pool.numNodes_header (hheader.trans rfl)).2.2.2
        (Pool.numNodes_header (hheader.trans rfl)).2.2.1 (p.setGraphFinalized_agree 1 (.inr hlo))
    refine ⟨fun q hq => ?_, fun q _ => h.behind p hpool⟩
    cases hq
    rw [hend]
    exact h.atEnd p hpool

theorem CursorOk.step {op : Op} (h : CursorOk m) (hr : op.Returns m) (hk : op.KeepsCursor m) :
    CursorOk (op.step m) ∧ op.KeepsRecords m := by
  cases op with
  | initializeGraph data size =>
    obtain ⟨p, hp⟩ : ∃ p, (Op.initializeGraph data size).brings m = some p := by
      cases data <;> exact ⟨_, rfl⟩
    exact ⟨h.brings hr hp (hk.brings p hp), fun c hc => by cases hc⟩
  | loadGraph file =>
    exact ⟨h.brings hr rfl (hk.brings _ rfl), fun c hc => by cases hc⟩
  | allocNode c => exact h.alloc hr (hk.alloc c rfl).1 (hk.alloc c rfl).2
  | finalizeGraph => exact ⟨h.finalize (hk.finalize rfl), fun c hc => by cases hc⟩
  | verifyGraph =>
    obtain ⟨hp, he⟩ := verifyGraph_frame m
    exact ⟨h.of_same hp he, fun c hc => by cases hc⟩
  | destroyGraph =>
    refine ⟨⟨fun p hp => ?_, fun p hp => ?_⟩, fun c hc => by cases hc⟩ <;> cases hp

theorem CursorOk.initial : CursorOk MemGraph.initial := by
  constructor <;> intro p hp <;> cases hp

/-- In every run of calls that return and meet the condition, the cursor stands at the end of the
table in every state, and no call of `alloc_node` overwrites a record. -/
theorem cursor_invariant (ops : List Op)
    (h : EveryStep Op.step (fun m op => op.Returns m ∧ op.KeepsCursor m) MemGraph.initial ops) :
    EveryState Op.step CursorAtEnd MemGraph.initial ops ∧
      EveryStep Op.step (fun m op => op.KeepsRecords m) MemGraph.initial ops := by
  obtain ⟨hstates, hsteps⟩ := h.invariant CursorOk.initial fun m op hm hop => hm.step hop.1 hop.2
  exact ⟨hstates.mono fun m hm => hm.atEnd, hsteps⟩

/-- A graph of one node is loaded, and another node is allocated. -/
def loadAndExtend : List Op :=
  [.initializeGraph (some (edgePool 0)) memoryPoolSize, .allocNode (.leaf 1)]

/-- The new node is written over the first one: its id takes the place of id 0. -/
theorem loadAndExtend_overwrites :
    ¬∀ ops : List Op, EveryStep Op.step (fun m op => op.Returns m) MemGraph.initial ops →
      EveryState Op.step CursorAtEnd MemGraph.initial ops ∧
        EveryStep Op.step (fun m op => op.KeepsRecords m) MemGraph.initial ops := by
  intro h
  have hload :
      (Op.initializeGraph (some (edgePool 0)) memoryPoolSize).Returns MemGraph.initial := by
    unfold Op.Returns
    decide +kernel
  have halloc : (Op.allocNode (.leaf 1)).Returns
      ((Op.initializeGraph (some (edgePool 0)) memoryPoolSize).step MemGraph.initial) := by
    unfold Op.Returns
    decide +kernel
  obtain ⟨-, -, hkeeps, -⟩ := h loadAndExtend ⟨hload, halloc, trivial⟩
  obtain ⟨hp, -⟩ := Op.brings_step hload rfl
  have hnew : ((Op.allocNode (.leaf 1)).step ((Op.initializeGraph (some (edgePool 0))
      memoryPoolSize).step MemGraph.initial)).pool.map (fun q => q 96) = some 1 := by
    decide +kernel
  obtain ⟨q, hq, hid⟩ := Option.map_eq_some_iff.1 hnew
  have hsame := hkeeps _ rfl _ _ hp hq 96 (by decide +kernel) (by decide +kernel)
  rw [hid] at hsame
  exact absurd hsame (by decide +kernel)

/-- A graph of one node is built and then loaded again over itself. -/
def buildAndReload : List Op :=
  [.initializeGraph none 0, .allocNode ⟨0, 1, fun _ => 0, fun _ => 7, by decide⟩, .finalizeGraph,
    .initializeGraph (some (edgePool 0)) memoryPoolSize]

theorem keepsCursor_of_brings {op : Op} (hb : (op.brings m).map Pool.tableEnd = some m.cursor) :
    op.KeepsCursor m := by
  obtain ⟨p, hp, hend⟩ := Option.map_eq_some_iff.1 hb
  refine ⟨fun q hq => ?_, fun hop => ?_, fun c hop => ?_⟩
  · cases hp.symm.trans hq
    exact hend
  · rw [hop] at hp
    cases hp
  · rw [hop] at hp
    cases hp

theorem keepsCursor_of_offset {op : Op} (hb : op.brings m = none)
    (hoff : m.pool.map (fun p => p.nodesTableOffset.toNat) = some nodeTableOffset)
    (hnum : ∀ c, op = .allocNode c → 0 ≤ c.numSuccessors) : op.KeepsCursor m := by
  have hle (p : Pool) (hp : m.pool = some p) : nodeTableOffset ≤ p.nodesTableOffset.toNat := by
    rw [hp, Option.map_some, Option.some.injEq] at hoff
    exact Nat.le_of_eq hoff.symm
  refine ⟨fun p hp => ?_, fun _ => hle, fun c hc => ⟨hnum c hc, hle⟩⟩
  rw [hb] at hp
  cases hp

theorem buildAndReload_cursor :
    EveryState Op.step CursorAtEnd MemGraph.initial buildAndReload ∧
      EveryStep Op.step (fun m op => op.KeepsRecords m) MemGraph.initial buildAndReload := by
  refine cursor_invariant buildAndReload ⟨⟨?_, keepsCursor_of_brings ?_⟩,
    ⟨?_, keepsCursor_of_offset rfl ?_ fun c hc => ?_⟩,
    ⟨?_, keepsCursor_of_offset rfl ?_ fun c hc => ?_⟩,
    ⟨?_, keepsCursor_of_brings ?_⟩, trivial⟩
  · rfl
  · decide +kernel
  · unfold Op.Returns
    decide +kernel
  · decide +kernel
  · cases hc
    decide
  · unfold Op.Returns
    decide +kernel
  · decide +kernel
  · cases hc
  · unfold Op.Returns
    decide +kernel
  · decide +kernel

end LibcSandbox
