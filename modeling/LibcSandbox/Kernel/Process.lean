import LibcSandbox.Kernel.Isolation
import LibcSandbox.Pass.Policy

namespace LibcSandbox
open Library
set_option autoImplicit true

variable {k : Kernel} {ns : List Node}

/-- The calls of one process, up to the first that is killed or does what the code leaves undefined.
What a call returns is not looked at. -/
def makeCalls : List Syscall → Kernel → Outcome Kernel Unit
  | [], k => (.ok (), k)
  | c :: cs, k =>
    match c.exec k with
    | (.error h, k) => (.error h, k)
    | (.ok _, k) => makeCalls cs k

/-- No call is killed, frees a buffer a second time or reads outside what was allocated. -/
def RunsClean (cs : List Syscall) (k : Kernel) : Prop := (makeCalls cs k).1 = .ok ()

instance (cs : List Syscall) (k : Kernel) : Decidable (RunsClean cs k) :=
  inferInstanceAs (Decidable ((makeCalls cs k).1 = .ok ()))

/-- The state that a call returns in without a fault. -/
def Kernel.returned (k : Kernel) (c : Syscall) : Option Kernel :=
  match c.exec k with
  | (.error _, _) => none
  | (.ok _, k) => some k

theorem returned_eq_some (h : c.exec k = (.ok v, k')) : k.returned c = some k' := by
  rw [Kernel.returned, h]

theorem returned_eq_none (h : (c.exec k).1 = .error e) : k.returned c = none := by
  rw [Kernel.returned]
  generalize c.exec k = x at h
  obtain ⟨_, k'⟩ := x
  cases h
  rfl

theorem runsClean_iff_run (cs : List Syscall) (k : Kernel) :
    RunsClean cs k ↔ (run Kernel.returned k cs).isSome := by
  induction cs generalizing k with
  | nil => exact iff_of_true rfl rfl
  | cons c cs ih =>
    rw [RunsClean, makeCalls, run, Kernel.returned]
    generalize c.exec k = x
    obtain ⟨r, k'⟩ := x
    cases r with
    | error e => simp only [reduceCtorEq, Option.bind_none, Option.isSome_none, Bool.false_eq_true]
    | ok v => exact ih k'

theorem makeCalls_of_run (h : run Kernel.returned k cs = some k') : makeCalls cs k = (.ok (), k') := by
  induction cs generalizing k with
  | nil =>
    cases h
    rfl
  | cons c cs ih =>
    rw [run, Kernel.returned] at h
    rw [makeCalls]
    generalize c.exec k = x at h ⊢
    obtain ⟨r, k₁⟩ := x
    cases r with
    | error e => cases h
    | ok v => exact ih h

theorem runsClean_cons (c : Syscall) (cs : List Syscall) (k : Kernel) :
    RunsClean (c :: cs) k ↔ ∃ k', k.returned c = some k' ∧ RunsClean cs k' := by
  simp only [runsClean_iff_run, run]
  cases k.returned c with
  | none => simp
  | some k' => simp only [Option.bind_some, Option.some.injEq, exists_eq_left']

theorem returned_step (h : k.returned c = some k') : k' = k.step c := by
  rw [Kernel.returned] at h
  rw [Kernel.step]
  generalize c.exec k = x at h
  obtain ⟨r, k'⟩ := x
  cases r with
  | error e => cases h
  | ok v =>
    cases h
    rfl

/-- `kernel_buffer` names a live allocation. -/
def Held (k : Kernel) : Prop := ∃ a, k.kernelBuffer = some a ∧ a ∈ k.heap.live

/-- `kernel_buffer` names an allocation that has been freed. -/
def Spent (k : Kernel) : Prop := ∃ a, k.kernelBuffer = some a ∧ a ∉ k.heap.live

theorem Held.owned (h : Held k) : Owned k := by
  obtain ⟨a, ha, hlive⟩ := h
  intro b hb
  rw [ha, Option.some.injEq] at hb
  exact hb ▸ hlive

theorem Held.of_frame {k' : Kernel} (h : Held k) (hheap : k'.heap = k.heap)
    (hbuffer : k'.kernelBuffer = k.kernelBuffer) : Held k' := by
  rw [Held, hheap, hbuffer]
  exact h

theorem Spent.of_frame {k' : Kernel} (h : Spent k) (hheap : k'.heap = k.heap)
    (hbuffer : k'.kernelBuffer = k.kernelBuffer) : Spent k' := by
  rw [Spent, hheap, hbuffer]
  exact h

theorem returned_cleanup_none (hb : k.kernelBuffer = none) : k.returned .cleanup = some k := by
  obtain ⟨graph, heap, buffer⟩ := k
  cases hb
  rfl

/-- The cleanup frees the buffer and does not forget it. -/
theorem Held.cleanup (h : Held k) :
    ∃ heap, sandboxCleanup k = (.ok 0, { k with heap := heap }) ∧ Spent { k with heap := heap } := by
  obtain ⟨heap, hheap⟩ := h.owned.kfree
  obtain ⟨a, ha, -⟩ := h
  refine ⟨heap, by rw [sandboxCleanup, hheap], a, ha, ?_⟩
  rw [ha] at hheap
  exact Heap.kfree_some_not_mem hheap

theorem Spent.kfree (h : Spent k) :
    ∃ a, k.kernelBuffer = some a ∧ k.heap.kfree k.kernelBuffer = .error (.doubleFree a) := by
  obtain ⟨a, ha, hlive⟩ := h
  exact ⟨a, ha, by rw [ha, Heap.kfree, if_neg hlive]⟩

/-- The calls that get as far as the `kfree`. -/
def Syscall.Frees : Syscall → Prop
  | .init c => ∃ data, c.Checked data
  | .cleanup => True
  | .dummycall _ => False

theorem Syscall.exec_frame {c : Syscall} (h : ¬c.Frees) (k : Kernel) :
    (c.exec k).2.heap = k.heap ∧ (c.exec k).2.kernelBuffer = k.kernelBuffer := by
  cases c with
  | init c =>
    rw [Syscall.exec, sandboxInit_unchecked (not_exists.1 h)]
    exact ⟨rfl, rfl⟩
  | cleanup => exact absurd trivial h
  | dummycall number => exact sandboxDummycall_frame number k

theorem foldl_step_frame {cs : List Syscall} (h : ∀ c ∈ cs, ¬c.Frees) (k : Kernel) :
    (cs.foldl Kernel.step k).heap = k.heap ∧
      (cs.foldl Kernel.step k).kernelBuffer = k.kernelBuffer := by
  induction cs generalizing k with
  | nil => exact ⟨rfl, rfl⟩
  | cons c cs ih =>
    obtain ⟨hc, hcs⟩ := List.forall_mem_cons.1 h
    obtain ⟨hheap, hbuffer⟩ := Syscall.exec_frame hc k
    obtain ⟨hheap', hbuffer'⟩ := ih hcs (k.step c)
    exact ⟨hheap'.trans hheap, hbuffer'.trans hbuffer⟩

/-- A call that does not get as far as the `kfree` leaves the buffer freed, and one that does frees
it again. -/
theorem Spent.exec (h : Spent k) (c : Syscall) :
    Spent (c.exec k).2 ∧
      (c.Frees → ∃ a, k.kernelBuffer = some a ∧ (c.exec k).1 = .error (.doubleFree a)) := by
  obtain ⟨a, hbuffer, ha⟩ := h.kfree
  cases c with
  | dummycall number =>
    obtain ⟨hheap, hkept⟩ := sandboxDummycall_frame number k
    exact ⟨h.of_frame hheap hkept, False.elim⟩
  | cleanup =>
    have hrun : sandboxCleanup k = (.error (.doubleFree a), k) := by rw [sandboxCleanup, ha]
    rw [Syscall.exec, hrun]
    exact ⟨h, fun _ => ⟨a, hbuffer, rfl⟩⟩
  | init c =>
    by_cases hc : ∃ data, c.Checked data
    · obtain ⟨data, hd⟩ := hc
      have hrun : sandboxInit c k = (.error (.doubleFree a), k) := by
        rw [sandboxInit_checked hd, replaceBuffer, ha]
      rw [Syscall.exec, hrun]
      exact ⟨h, fun _ => ⟨a, hbuffer, rfl⟩⟩
    · rw [Syscall.exec, sandboxInit_unchecked (not_exists.1 hc)]
      exact ⟨h, fun hf => absurd hf hc⟩

theorem Spent.returned_none (h : Spent k) (hf : c.Frees) : k.returned c = none := by
  obtain ⟨a, -, ha⟩ := (h.exec c).2 hf
  exact returned_eq_none ha

theorem Spent.not_runsClean (h : Spent k) {cs : List Syscall} (hc : c ∈ cs) (hf : c.Frees) :
    ¬RunsClean cs k := by
  induction cs generalizing k with
  | nil => cases hc
  | cons d cs ih =>
    intro hs
    obtain ⟨k', hk', hrest⟩ := (runsClean_cons d cs k).1 hs
    rcases List.mem_cons.1 hc with rfl | hc
    · rw [h.returned_none hf] at hk'
      cases hk'
    · rw [returned_step hk'] at hrest
      exact ih (h.exec d).1 hc hrest

/-- The recogniser stands at a node of a table that fills the listing. -/
structure Confined (k : Kernel) (p : Pool) (ns : List Node) (j : Nat) : Prop
    extends AtState k.graph p ns j where
  slots : k.graph.nodes.map Listing.slots = some ns.length

theorem Confined.dummycall_outside (h : Confined k p ns j) (hn : nextState ns j number = some v)
    (hv : ns.length ≤ v) : ∃ e, (sandboxDummycall number k).1 = .error e := by
  obtain ⟨z, hz, hcheck, hne, hv'⟩ := h.check_taken hn
  obtain ⟨L, hL, hslots⟩ := Option.map_eq_some_iff.1 h.slots
  have hread : L.read v = .error (.outOfListing v) := by
    rw [Listing.read, if_neg (Nat.not_lt.2 (hslots ▸ hv))]
  refine ⟨.outOfListing v, ?_⟩
  simp only [sandboxDummycall, hcheck, ne_eq, hz, not_false_eq_true, ↓reduceIte, transitionToState,
    h.pool, if_neg h.not_le, hne, hL, hv', hread]

/-- A call takes the transition of the table inside it, or is killed or reads outside. -/
theorem Confined.dummycall (h : Confined k p ns j) (number : UInt64) :
    Option.Rel (fun k' v => Confined k' p ns v) (k.returned (.dummycall number))
      (tableStep ns j number) := by
  rw [tableStep]
  cases hn : nextState ns j number with
  | none =>
    have herror : ∃ e, (sandboxDummycall number k).1 = .error e := by
      rcases h.check_refused hn with hc | ⟨o, hc⟩
      · exact ⟨.sigkill, by simp only [sandboxDummycall, hc, ne_eq, not_true_eq_false, ↓reduceIte]⟩
      · exact ⟨.outOfPool o, by simp only [sandboxDummycall, hc]⟩
    obtain ⟨e, he⟩ := herror
    rw [Option.filter_none, returned_eq_none (c := .dummycall number) he]
    exact .none
  | some v =>
    by_cases hlt : v < ns.length
    · rw [Option.filter_some, if_pos (decide_eq_true hlt)]
      obtain ⟨z, hz, hcheck, -⟩ := h.check_taken hn
      obtain ⟨m', hm', h'⟩ := (h.transition_taken hn).2 hlt
      have hrun : sandboxDummycall number k = (.ok (toInt m'.currentProgstate),
          { k with graph := m' }) := by
        simp only [sandboxDummycall, hcheck, ne_eq, hz, not_false_eq_true, ↓reduceIte, hm']
      rw [returned_eq_some (c := .dummycall number) hrun]
      refine .some { h' with slots := ?_ }
      obtain ⟨state, node, hstate⟩ := transitionToState_state k.graph number
      rw [hm'] at hstate
      change m' = _ at hstate
      rw [hstate]
      exact h.slots
    · rw [Option.filter_some, if_neg (by rw [decide_eq_true_eq]; exact hlt)]
      obtain ⟨e, he⟩ := h.dummycall_outside hn (Nat.not_lt.1 hlt)
      rw [returned_eq_none (c := .dummycall number) he]
      exact .none

theorem resetProgstate_nodes (m : MemGraph) : (resetProgstate m).2.nodes = m.nodes := by
  rw [resetProgstate]
  dsimp only
  split
  next => rfl
  next nodes hn =>
    split
    · rfl
    · rfl

/-- The call of `sandbox_init` with a buffer, where nothing fails. -/
def GraphBuffer.initCall (b : GraphBuffer) : InitCall :=
  ⟨some b.data, UInt64.ofNat b.size, true, true⟩

theorem GraphBuffer.initCall_checked (b : GraphBuffer) : b.initCall.Checked b.data := by
  have hsize : (UInt64.ofNat b.size).toNat = b.size := toNat_ofNat_length b.size_le
  refine ⟨fun hz => ?_, rfl⟩
  have hpos := b.size_pos
  rw [← hsize] at hpos
  simp only [initCall] at hz
  rw [hz] at hpos
  exact absurd hpos (by decide)

/-- A process is confined to its table, unless that has no nodes and the reset faults. -/
theorem GraphBuffer.init_confined (b : GraphBuffer) (ho : Owned k)
    (hslots : k.graph.slotsFor b.numNodes = b.numNodes) :
    if b.nodes = [] then ∃ e, (sandboxInit b.initCall k).1 = .error e
    else (sandboxInit b.initCall k).1 = .ok 0 ∧ Held (sandboxInit b.initCall k).2 ∧
      ∃ p, Confined (sandboxInit b.initCall k).2 p b.nodes 0 := by
  have hsize : (UInt64.ofNat b.size).toNat = b.size := toNat_ofNat_length b.size_le
  have hr := ho.init_replaced b.initCall_checked
  generalize sandboxInit b.initCall k = x at hr
  cases hr with
  | noMemory hm => cases hm
  | noCopy hm hc => cases hc
  | @copied a heap hm hc ha =>
    have hload : b.initCall.size.toNat = b.size := hsize
    rw [hload]
    obtain ⟨m₁, p, hm₁, hb, hl, hL⟩ := b.load .kernel k.graph (Nat.le_of_eq hslots.symm)
    rw [hslots] at hL
    obtain ⟨hheap, hbuffer⟩ := initializeAndReset_frame b.data b.size
      { k with heap := heap, kernelBuffer := some a }
    by_cases hempty : b.nodes = []
    · rw [if_pos hempty]
      obtain ⟨L, hnodes, hzero⟩ := Option.map_eq_some_iff.1 hL
      have hread : L.read 0 = .error (.outOfListing 0) := by
        rw [Listing.read, hzero, numNodes, hempty]
        rfl
      refine ⟨.outOfListing 0, ?_⟩
      simp only [initializeAndReset, hm₁, resetProgstate, hnodes, hread]
    · rw [if_neg hempty]
      obtain ⟨m₂, hm₂, hat⟩ := hl.resetProgstate (List.length_pos_of_ne_nil hempty)
      have hslots₂ : m₂.nodes.map Listing.slots = some b.nodes.length := by
        have hsame := resetProgstate_nodes m₁
        rw [hm₂] at hsame
        change m₂.nodes = m₁.nodes at hsame
        rw [hsame]
        exact hL
      have hrun : initializeAndReset b.data b.size
          { k with heap := heap, kernelBuffer := some a } =
          (.ok 0, { k with graph := m₂, heap := heap, kernelBuffer := some a }) := by
        simp only [initializeAndReset, hm₁, hm₂]
      rw [hrun]
      exact ⟨rfl, ⟨a, rfl, ha⟩, p, { hat with slots := hslots₂ }⟩

end LibcSandbox
