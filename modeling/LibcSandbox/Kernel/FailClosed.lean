import LibcSandbox.Kernel.Ownership

namespace LibcSandbox
open Library
set_option autoImplicit true

/-- The call gets as far as `verify_graph`, which returns 1 on the buffer that was copied. -/
def Accepted (k : Kernel) (c : InitCall) : Prop :=
  ∃ data heap, c.Checked data ∧ k.heap.kfree k.kernelBuffer = .ok heap ∧ c.kmallocOk = true ∧
    c.copyOk = true ∧ c.size.toNat ≤ memoryPoolSize ∧
    (verifyGraph (k.graph.copied data c.size.toNat)).1 = .ok 1

/-- A kernel together with what became of the most recent call of `sandbox_init`: whether there
was one and it was accepted. -/
def watch (s : Kernel × Prop) (c : Syscall) : Kernel × Prop :=
  (s.1.step c, match c with | .init c => Accepted s.1 c | _ => s.2)

@[simp] theorem watch_fst (s : Kernel × Prop) (c : Syscall) : (watch s c).1 = s.1.step c := rfl

/-- Only an accepted call of `sandbox_init` returns 0, and `sandbox_dummycall` only returns after
one. -/
def FailClosed (s : Kernel × Prop) : Syscall → Prop
  | .init c => (sandboxInit c s.1).1 = .ok 0 → Accepted s.1 c
  | .cleanup => True
  | .dummycall number => (∃ v, (sandboxDummycall number s.1).1 = .ok v) → s.2

/-- The buffer brings a finalized header and a complete table, for which the listing has room. -/
def BringsTable (m : MemGraph) (data : Bytes) (size : Nat) : Prop :=
  ∃ p ns, (m.copied data size).pool = some p ∧ HeaderOk p ∧
    TableAt p p.nodesTableOffset.toNat ns ∧ ns.length = p.numNodes.toNat ∧
    ns.length ≤ ((m.copied data size).listingFor p).slots

theorem bringsTable_iff :
    BringsTable m data size ↔ (verifyGraph (m.copied data size)).1 = .ok 1 := by
  apply Iff.intro
  · intro hx
    obtain ⟨p, ns, hp, hh, ht, hl, hs⟩ := hx
    rw [verifyGraph_eq_one_iff.2 ⟨p, ns, hp, hh, ht, hl, hs, rfl⟩]
  · intro h
    obtain ⟨p, ns, hp, hh, ht, hl, hs, -⟩ := verifyGraph_eq_one_iff.1 (Prod.ext h rfl)
    exact ⟨p, ns, hp, hh, ht, hl, hs⟩

/-- The call returns an error code before it comes to the library. -/
def EarlyExit (c : InitCall) : Prop :=
  (∀ data, ¬c.Checked data) ∨ c.kmallocOk = false ∨ c.copyOk = false

/-- The call loads a well-formed table. -/
def LoadsTable (m : MemGraph) (c : InitCall) : Prop :=
  ∃ data, c.Checked data ∧ c.kmallocOk = true ∧ c.copyOk = true ∧
    c.size.toNat ≤ memoryPoolSize ∧ BringsTable m data c.size.toNat

/-- The header is refused while there is no listing, so that the reset after it faults. -/
def FaultsInReset (m : MemGraph) (c : InitCall) : Prop :=
  ∃ data, c.Checked data ∧ c.size.toNat ≤ memoryPoolSize ∧ m.nodes = none ∧
    ∀ p, (m.copied data c.size.toNat).pool = some p → ¬HeaderOk p

/-- Every call of `sandbox_init` loads a well-formed table, except that before anything was loaded
it may also fail early or have its header refused. -/
def StaysClosed (s : Kernel × Prop) : Syscall → Prop
  | .init c => Owned s.1 ∧ (LoadsTable s.1.graph c ∨
      s.1.graph.startNode = none ∧ (EarlyExit c ∨ FaultsInReset s.1.graph c))
  | _ => True

/-- Without an accepted buffer there is no node to start from. -/
def Closed (s : Kernel × Prop) : Prop := s.2 ∨ s.1.graph.startNode = none

theorem Owned.accepted (h : Owned k) (hl : LoadsTable k.graph c) : Accepted k c := by
  obtain ⟨data, hd, hm, hc, hsize, ht⟩ := hl
  obtain ⟨heap, hheap⟩ := h.kfree
  exact ⟨data, heap, hd, hheap, hm, hc, hsize, bringsTable_iff.1 ht⟩

theorem Owned.earlyExit (h : Owned k) (he : EarlyExit c) :
    (∃ v, v ≠ 0 ∧ (sandboxInit c k).1 = .ok v) ∧ (sandboxInit c k).2.graph = k.graph := by
  by_cases hc : ∃ data, c.Checked data
  · obtain ⟨data, hd⟩ := hc
    have hr := h.init_replaced hd
    generalize sandboxInit c k = x at hr
    cases hr with
    | noMemory => exact ⟨⟨_, by decide, rfl⟩, rfl⟩
    | noCopy => exact ⟨⟨_, by decide, rfl⟩, rfl⟩
    | copied hm hcopy =>
      rcases he with hn | hn | hn
      · exact (hn data hd).elim
      · simp [hm] at hn
      · simp [hcopy] at hn
  · rw [sandboxInit_unchecked fun data hd => hc ⟨data, hd⟩]
    exact ⟨⟨_, by decide, rfl⟩, rfl⟩

theorem initializeAndReset_faults (hsize : 0 < size ∧ size ≤ memoryPoolSize)
    (hn : k.graph.nodes = none)
    (hh : ∀ p, (k.graph.copied data size).pool = some p → ¬HeaderOk p) :
    (initializeAndReset data size k).1 = .error .nullPointer ∧
      (initializeAndReset data size k).2.graph.startNode = k.graph.startNode := by
  obtain ⟨code, -, hv⟩ := verifyGraph_refuses hh
  have hload : initializeGraph .kernel (some data) size k.graph =
      (.ok (), k.graph.copied data size) := by
    simp only [initializeGraph_copied hsize.1 hsize.2, verifyLoaded, hv, Build.printErrorAndExit,
      ite_self]
  simp only [initializeAndReset, hload, resetProgstate, MemGraph.copied_nodes, hn,
    MemGraph.copied_startNode, and_self]

theorem InitCall.Checked.size_pos {c : InitCall} {data : Bytes} (h : c.Checked data) :
    0 < c.size.toNat := by
  apply Nat.pos_of_ne_zero
  intro hz
  apply h.1
  exact UInt64.toNat_inj.1 hz

theorem Owned.faultsInReset (h : Owned k) (hf : FaultsInReset k.graph c) (he : ¬EarlyExit c) :
    (sandboxInit c k).1 = .error .nullPointer ∧
      (sandboxInit c k).2.graph.startNode = k.graph.startNode := by
  obtain ⟨data, hd, hsize, hn, hh⟩ := hf
  have hr := h.init_replaced hd
  generalize sandboxInit c k = x at hr
  cases hr with
  | noMemory hm => exact (he (.inr (.inl hm))).elim
  | noCopy _ hc => exact (he (.inr (.inr hc))).elim
  | copied => exact initializeAndReset_faults ⟨hd.size_pos, hsize⟩ hn hh

theorem StaysClosed.init (hc : StaysClosed s (.init c)) :
    Closed (watch s (.init c)) ∧ FailClosed s (.init c) := by
  obtain ⟨ho, hl | ⟨hs, he⟩⟩ := hc
  · have ha := ho.accepted hl
    exact ⟨.inl ha, fun _ => ha⟩
  · by_cases hearly : EarlyExit c
    · obtain ⟨⟨v, hv, hr⟩, hg⟩ := ho.earlyExit hearly
      refine ⟨.inr ?_, fun h0 => ?_⟩
      · rw [watch_fst, Kernel.step, Syscall.exec, hg, hs]
      · rw [hr, Except.ok.injEq] at h0
        exact (hv h0).elim
    · obtain ⟨hr, hg⟩ := ho.faultsInReset (he.resolve_left hearly) hearly
      refine ⟨.inr ?_, fun h0 => ?_⟩
      · rw [watch_fst, Kernel.step, Syscall.exec, hg, hs]
      · rw [hr] at h0
        cases h0

theorem sandboxDummycall_unloaded (h : k.graph.startNode = none) (number : UInt64) :
    sandboxDummycall number k = (.error .nullPointer, k) := by
  have hv : isStateTransitionValid k.graph number = .error .nullPointer := by
    cases hp : k.graph.pool <;> simp only [isStateTransitionValid, hp, h]
  simp only [sandboxDummycall, hv]

theorem Closed.dummycall (h : Closed s) (number : UInt64) :
    Closed (watch s (.dummycall number)) ∧ FailClosed s (.dummycall number) := by
  rcases h with h | h
  · exact ⟨.inl h, fun _ => h⟩
  · have hd := sandboxDummycall_unloaded h number
    refine ⟨.inr ?_, ?_⟩
    · rw [watch_fst, Kernel.step, Syscall.exec, hd]
      exact h
    · intro hx
      obtain ⟨v, hv⟩ := hx
      rw [hd] at hv
      cases hv

theorem sandboxCleanup_graph (k : Kernel) : (sandboxCleanup k).2.graph = k.graph := by
  rw [sandboxCleanup]
  split <;> rfl

theorem Closed.step (h : Closed s) (hc : StaysClosed s c) :
    Closed (watch s c) ∧ FailClosed s c := by
  cases c with
  | init c => exact StaysClosed.init hc
  | cleanup =>
    refine ⟨?_, trivial⟩
    rcases h with h | h
    · exact .inl h
    · apply Or.inr
      rw [watch_fst, Kernel.step, Syscall.exec, sandboxCleanup_graph, h]
  | dummycall number => exact h.dummycall number

/-- In every run from boot whose calls of `sandbox_init` all meet the condition, the sandbox is
fail-closed. -/
theorem runSyscalls_failClosed (cs : List Syscall)
    (h : EveryStep watch StaysClosed (Kernel.boot, False) cs) :
    EveryStep watch FailClosed (Kernel.boot, False) cs :=
  (h.invariant (I := Closed) (.inr rfl) fun _ _ hI hP => hI.step hP).2

/-- A finalized header that announces one node, with no node behind it. -/
def nodelessCall : InitCall :=
  ⟨some ((emptyPool.setGraphFinalized 1).setNumNodes 1), UInt64.ofNat memoryPoolSize, true, true⟩

/-- The buffer is rejected, and `sandbox_init` returns 0. -/
theorem nodelessCall_returns_zero :
    ¬∀ cs : List Syscall, (∀ c ∈ cs, c ≠ .cleanup) →
      EveryStep watch FailClosed (Kernel.boot, False) cs := by
  intro h
  have hrun := (h [.init nodelessCall] (by simp)).1
  have hzero : (sandboxInit nodelessCall Kernel.boot).1 = .ok 0 := by decide +kernel
  obtain ⟨data, heap, ⟨-, hd⟩, -, -, -, -, hv⟩ := hrun hzero
  have hcode : (verifyGraph (MemGraph.initial.copied
      ((emptyPool.setGraphFinalized 1).setNumNodes 1) memoryPoolSize)).1 =
      .ok errorInvalidNode := by
    decide +kernel
  cases hd
  cases hcode.symm.trans hv

/-- A graph of one node is loaded, and its only edge leads nowhere. -/
theorem edgeCall_failClosed :
    EveryStep watch FailClosed (Kernel.boot, False) [.init edgeCall, .dummycall 7] :=
  runSyscalls_failClosed [.init edgeCall, .dummycall 7]
    ⟨⟨owned_boot, .inl ⟨edgePool 0, ⟨by decide, rfl⟩, rfl, rfl, by decide,
      bringsTable_iff.2 (by decide +kernel)⟩⟩, trivial, trivial⟩

end LibcSandbox
