import LibcSandbox.MemGraph.Atomic

namespace LibcSandbox
open Library
set_option autoImplicit true

variable {m m' : MemGraph} {p q : Pool}

/-- What a call reports. -/
def Query.reply (m : MemGraph) : Query → Except Halt Int
  | .resetProgstate => (LibcSandbox.resetProgstate m).1.map fun _ => 0
  | .isStateTransitionValid libccall => LibcSandbox.isStateTransitionValid m libccall
  | .transitionToState libccall => (LibcSandbox.transitionToState m libccall).1

def replies : List Query → MemGraph → List (Except Halt Int)
  | [], _ => []
  | q :: qs, m => q.reply m :: replies qs (q.step m)

/-- The pool, the listing and the current state are as they were, and so is every later reply. -/
structure AsBefore (m m' : MemGraph) : Prop where
  pool : ∃ p q, m.pool = some p ∧ m'.pool = some q ∧ AgreeOn p q 0 memoryPoolSize
  nodes : m'.nodes = m.nodes
  currentProgstate : m'.currentProgstate = m.currentProgstate
  replies : ∀ qs, LibcSandbox.replies qs m' = LibcSandbox.replies qs m

/-- An oversized load comes back, and nothing has changed. -/
def RefusesOversized (data : Option Bytes) (size : Nat) (m : MemGraph) : Prop :=
  ∃ m', initializeGraph .kernel data size m = (.ok (), m') ∧ AsBefore m m'

theorem findTransition_congr (h : AgreeOn p q 0 memoryPoolSize) :
    findTransition q libcalls c i n = findTransition p libcalls c i n := by
  induction n generalizing i with
  | zero => rfl
  | succ n ih =>
    by_cases hin : Inside (libcalls + i * sizeofRecord)
    · have hrec := Pool.libcalls_congr (h.mono (Nat.zero_le _) hin)
      simp only [findTransition, hin, not_true_eq_false, ↓reduceIte, hrec, ih]
    · simp only [findTransition, hin, not_false_eq_true, ↓reduceIte]

theorem isStateTransitionValid_congr (hp : m.pool = some p) (h : AgreeOn p q 0 memoryPoolSize)
    (c : UInt64) :
    isStateTransitionValid { m with pool := some q } c = isStateTransitionValid m c := by
  cases hs : m.startNode with
  | none => simp only [isStateTransitionValid, hs, hp]
  | some startNode =>
    by_cases hin : Inside startNode
    · have hnode := Pool.progstate_congr (h.mono (Nat.zero_le _) hin)
      by_cases hedge : Inside (startNode + sizeofRecord)
      · have hrec := Pool.libcalls_congr (h.mono (Nat.zero_le _) hedge)
        simp only [isStateTransitionValid, hs, hp, hin, hedge, not_true_eq_false, ↓reduceIte,
          hnode, hrec, findTransition_congr h]
      · simp only [isStateTransitionValid, hs, hp, hin, hedge, not_true_eq_false,
          not_false_eq_true, ↓reduceIte, hnode]
    · simp only [isStateTransitionValid, hs, hp, hin, not_false_eq_true, ↓reduceIte]

theorem transitionToState_congr (hp : m.pool = some p) (h : AgreeOn p q 0 memoryPoolSize)
    (c : UInt64) :
    transitionToState { m with pool := some q } c =
      ((transitionToState m c).1, { (transitionToState m c).2 with pool := some q }) := by
  have hcheck := isStateTransitionValid_congr hp h c
  have hnum : q.numNodes = p.numNodes := by
    have hword : AgreeOn p q 64 72 := h.mono (Nat.zero_le _) (by decide)
    exact (readWord_congr hword).symm
  simp only [transitionToState, hp, hcheck, hnum]
  by_cases hpast : p.numNodes ≤ m.currentProgstate
  · simp only [hpast, ↓reduceIte]
  · simp only [hpast, ↓reduceIte]
    cases isStateTransitionValid m c with
    | error e => rfl
    | ok next =>
      by_cases hz : toUnsignedLong next = 0
      · simp only [hz, ne_eq, not_true_eq_false, ↓reduceIte]
      · simp only [hz, ne_eq, not_false_eq_true, ↓reduceIte]
        cases m.nodes with
        | none => rfl
        | some L =>
          simp only
          cases L.read (toUnsignedLong next).toNat <;> rfl

theorem resetProgstate_congr (m : MemGraph) (q : Pool) :
    resetProgstate { m with pool := some q } =
      ((resetProgstate m).1, { (resetProgstate m).2 with pool := some q }) := by
  simp only [resetProgstate]
  cases m.nodes with
  | none => rfl
  | some L =>
    simp only
    cases L.read 0 <;> rfl

theorem Query.congr (hp : m.pool = some p) (h : AgreeOn p q 0 memoryPoolSize) (c : Query) :
    c.reply { m with pool := some q } = c.reply m ∧
      c.step { m with pool := some q } = { c.step m with pool := some q } := by
  cases c with
  | resetProgstate =>
    rw [Query.reply, Query.step, resetProgstate_congr]
    exact ⟨rfl, rfl⟩
  | isStateTransitionValid libccall =>
    exact ⟨isStateTransitionValid_congr hp h libccall, rfl⟩
  | transitionToState libccall =>
    rw [Query.reply, Query.step, transitionToState_congr hp h]
    exact ⟨rfl, rfl⟩

theorem Query.step_pool (m : MemGraph) (c : Query) : (c.step m).pool = m.pool := by
  cases c with
  | resetProgstate =>
    simp only [Query.step, LibcSandbox.resetProgstate]
    cases m.nodes with
    | none => rfl
    | some L =>
      simp only
      cases L.read 0 <;> rfl
  | isStateTransitionValid libccall => rfl
  | transitionToState libccall =>
    obtain ⟨state, node, hm⟩ := transitionToState_state m libccall
    rw [Query.step, hm]

theorem replies_congr (hp : m.pool = some p) (h : AgreeOn p q 0 memoryPoolSize)
    (qs : List Query) : replies qs { m with pool := some q } = replies qs m := by
  induction qs generalizing m with
  | nil => rfl
  | cons c qs ih =>
    obtain ⟨hreply, hstep⟩ := Query.congr hp h c
    rw [replies, replies, hreply, hstep, ih ((c.step_pool m).trans hp)]

/-- The pool is cleared, and the bytes behind it are next, before the size is looked at. -/
theorem initializeGraph_oversized (build : Build) (data : Option Bytes) (hp : m.pool = some p)
    (h : memoryPoolSize < size) :
    initializeGraph build data size m =
      (.error (.outOfPool memoryPoolSize), { m with pool := some (fill p size 0) }) := by
  simp only [initializeGraph, hp, initializePool, if_pos h]

theorem asBefore_fill_iff (hp : m.pool = some p) (h : memoryPoolSize < size) :
    AsBefore m { m with pool := some (fill p size 0) } ↔ ∀ i < memoryPoolSize, p i = 0 := by
  have hclear : ∀ i < memoryPoolSize, fill p size 0 i = 0 := by
    intro i hi
    exact if_pos (Nat.lt_trans hi h)
  apply Iff.intro
  · intro hx i hi
    obtain ⟨p', q, hp', hq, hagree⟩ := hx.pool
    cases hp.symm.trans hp'
    cases hq
    rw [hagree i (Nat.zero_le _) hi, hclear i hi]
  · intro hz
    have hagree : AgreeOn p (fill p size 0) 0 memoryPoolSize := by
      intro i _ hi
      rw [hz i hi, hclear i hi]
    exact ⟨⟨p, _, hp, rfl, hagree⟩, rfl, rfl, replies_congr hp hagree⟩

/-- No oversized load is refused: it is stopped where it writes behind the pool. What it finds in
the pool it has cleared by then, which goes unnoticed only if there was nothing. -/
theorem oversized_never_refused (m : MemGraph) (p : Pool) (hp : m.pool = some p)
    (data : Option Bytes) (size : Nat) (h : memoryPoolSize < size) :
    ¬RefusesOversized data size m ∧
      (AsBefore m (initializeGraph .kernel data size m).2 ↔ ∀ i < memoryPoolSize, p i = 0) := by
  have hrun := initializeGraph_oversized .kernel data hp h
  constructor
  · intro hx
    obtain ⟨m', hm', -⟩ := hx
    cases hrun.symm.trans hm'
  · rw [hrun]
    exact asBefore_fill_iff hp h

/-- A graph that allows call 7, loaded and reset. -/
def allowingGraph : MemGraph := (resetProgstate (verifyGraph stopGraph).2).2

/-- After the load of one byte too many it allows the call no longer. -/
theorem allowingGraph_cleared :
    ¬∀ m p data size, m.pool = some p → memoryPoolSize < size →
      AsBefore m (initializeGraph .kernel data size m).2 := by
  intro h
  obtain ⟨p, hp⟩ : ∃ p, allowingGraph.pool = some p := ⟨_, rfl⟩
  have hx := h allowingGraph p none (memoryPoolSize + 1) hp (Nat.lt_succ_self _)
  have hsame := hx.replies [.isStateTransitionValid 7]
  have hbefore : replies [.isStateTransitionValid 7] allowingGraph = [.ok 1] := by
    decide +kernel
  have hafter : replies [.isStateTransitionValid 7]
      (initializeGraph .kernel none (memoryPoolSize + 1) allowingGraph).2 = [.ok 0] := by
    decide +kernel
  rw [hbefore, hafter] at hsame
  exact absurd hsame (by decide)

theorem allowingGraph_never_refuses :
    ¬RefusesOversized none (memoryPoolSize + 1) allowingGraph ∧
      (AsBefore allowingGraph
          (initializeGraph .kernel none (memoryPoolSize + 1) allowingGraph).2 ↔
        ∀ i < memoryPoolSize, stopPool i = 0) :=
  oversized_never_refused allowingGraph stopPool rfl none (memoryPoolSize + 1)
    (Nat.lt_succ_self _)

end LibcSandbox
