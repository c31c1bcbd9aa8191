import LibcSandbox.Kernel.Sandboxing
import LibcSandbox.MemGraph.Recogniser
import LibcSandbox.Library.Machine

namespace LibcSandbox
open Library
set_option autoImplicit true

/-- `kernel_buffer` is null or names a live allocation. -/
def Owned (k : Kernel) : Prop := ∀ a, k.kernelBuffer = some a → a ∈ k.heap.live

instance (k : Kernel) : Decidable (Owned k) :=
  decidable_of_iff (∀ a ∈ k.kernelBuffer, a ∈ k.heap.live) (by simp only [Owned, Option.mem_def])

theorem owned_boot : Owned Kernel.boot := by
  intro a ha
  cases ha

theorem Owned.kfree (h : Owned k) : ∃ heap, k.heap.kfree k.kernelBuffer = .ok heap := by
  cases hb : k.kernelBuffer with
  | none => exact ⟨k.heap, rfl⟩
  | some a => exact ⟨_, by rw [Heap.kfree, if_pos (h a hb)]⟩

theorem Heap.kfree_some_not_mem (h : Heap.kfree H (some a) = .ok H') : a ∉ H'.live := by
  rw [Heap.kfree] at h
  split at h
  · cases h
    exact Finset.notMem_erase a H.live
  · cases h

theorem Heap.kmalloc_live (H : Heap) : H.kmalloc.1 ∈ H.kmalloc.2.live :=
  Finset.mem_insert_self _ _

theorem Heap.kfree_kmalloc (H : Heap) : ∃ H', H.kmalloc.2.kfree (some H.kmalloc.1) = .ok H' :=
  ⟨_, if_pos H.kmalloc_live⟩

theorem initializeAndReset_frame (data : Bytes) (size : Nat) (k : Kernel) :
    (initializeAndReset data size k).2.heap = k.heap ∧
      (initializeAndReset data size k).2.kernelBuffer = k.kernelBuffer := by
  rw [initializeAndReset]
  split
  · exact ⟨rfl, rfl⟩
  · split <;> exact ⟨rfl, rfl⟩

theorem sandboxDummycall_frame (number : UInt64) (k : Kernel) :
    (sandboxDummycall number k).2.heap = k.heap ∧
      (sandboxDummycall number k).2.kernelBuffer = k.kernelBuffer := by
  rw [sandboxDummycall]
  split
  · exact ⟨rfl, rfl⟩
  · split <;> exact ⟨rfl, rfl⟩

/-- How `sandbox_init` goes on behind the check of its arguments while the old buffer is live. -/
inductive Replaced (c : InitCall) (data : Bytes) (k : Kernel) : Outcome Kernel Int → Prop
  | noMemory : c.kmallocOk = false →
      Replaced c data k (.ok (-enomem), { k with heap := heap, kernelBuffer := none })
  | noCopy : c.kmallocOk = true → c.copyOk = false → a ∉ heap.live →
      Replaced c data k (.ok (-efault), { k with heap := heap, kernelBuffer := some a })
  | copied : c.kmallocOk = true → c.copyOk = true → a ∈ heap.live →
      Replaced c data k
        (initializeAndReset data c.size.toNat { k with heap := heap, kernelBuffer := some a })

theorem Owned.replaceBuffer (h : Owned k) (c : InitCall) (data : Bytes) :
    Replaced c data k (replaceBuffer c data k) := by
  obtain ⟨heap, hheap⟩ := h.kfree
  obtain ⟨heap', hheap'⟩ := heap.kfree_kmalloc
  rw [LibcSandbox.replaceBuffer, hheap]
  dsimp only
  cases hm : c.kmallocOk with
  | false => exact .noMemory hm
  | true =>
    cases hc : c.copyOk with
    | false =>
      simp only [not_true_eq_false, Bool.false_eq_true, not_false_eq_true, ↓reduceIte, hheap']
      exact .noCopy hm hc (Heap.kfree_some_not_mem hheap')
    | true => exact .copied hm hc heap.kmalloc_live

/-- The arguments of `sandbox_init` that pass its check. -/
def InitCall.Checked (c : InitCall) (data : Bytes) : Prop := c.size ≠ 0 ∧ c.data = some data

theorem sandboxInit_checked (h : c.Checked data) (k : Kernel) :
    sandboxInit c k = replaceBuffer c data k := by
  simp only [sandboxInit, if_neg h.1, h.2]

theorem Owned.init_replaced (h : Owned k) (hd : c.Checked data) :
    Replaced c data k (sandboxInit c k) := by
  rw [sandboxInit_checked hd]
  exact h.replaceBuffer c data

theorem sandboxInit_unchecked (h : ∀ data, ¬c.Checked data) (k : Kernel) :
    sandboxInit c k = (.ok (-einval), k) := by
  by_cases hs : c.size = 0
  · rw [sandboxInit, if_pos hs]
  · cases hd : c.data with
    | none => simp only [sandboxInit, if_neg hs, hd]
    | some data => exact (h data ⟨hs, hd⟩).elim

/-- The calls after which `kernel_buffer` is still owned: no cleanup of a buffer that is there, and
no failing copy into a buffer that was allocated. -/
def KeepsOwnership (k : Kernel) : Syscall → Prop
  | .init c => ¬((∃ data, c.Checked data) ∧ c.kmallocOk = true ∧ c.copyOk = false)
  | .cleanup => k.kernelBuffer = none
  | .dummycall _ => True

theorem Owned.init_iff (h : Owned k) (c : InitCall) :
    Owned (sandboxInit c k).2 ↔ KeepsOwnership k (.init c) := by
  by_cases hc : ∃ data, c.Checked data
  · obtain ⟨data, hd⟩ := hc
    have hr := h.init_replaced hd
    generalize sandboxInit c k = x at hr
    cases hr with
    | noMemory hm =>
      simp only [KeepsOwnership, hm, Bool.false_eq_true, false_and, and_false, not_false_eq_true,
        iff_true]
      intro b hb
      cases hb
    | noCopy hm hcopy ha =>
      refine ⟨fun ho => (ha (ho _ rfl)).elim, fun hk => (hk ⟨⟨data, hd⟩, hm, hcopy⟩).elim⟩
    | @copied a heap hm hcopy ha =>
      obtain ⟨hheap, hbuf⟩ := initializeAndReset_frame data c.size.toNat
        { k with heap := heap, kernelBuffer := some a }
      refine ⟨fun _ hk => by simp [hcopy] at hk, fun _ b hb => ?_⟩
      rw [hbuf, Option.some.injEq] at hb
      rwa [hheap, ← hb]
  · rw [sandboxInit_unchecked fun data hd => hc ⟨data, hd⟩]
    exact ⟨fun _ hk => hc hk.1, fun _ => h⟩

theorem Owned.cleanup_iff (h : Owned k) :
    Owned (sandboxCleanup k).2 ↔ KeepsOwnership k .cleanup := by
  obtain ⟨heap, hheap⟩ := h.kfree
  rw [sandboxCleanup, hheap, KeepsOwnership]
  cases hb : k.kernelBuffer with
  | none =>
    rw [hb] at hheap
    simp only [iff_true]
    intro a ha
    cases ha
  | some a =>
    rw [hb] at hheap
    refine ⟨fun ho => (Heap.kfree_some_not_mem hheap (ho a rfl)).elim, fun hk => ?_⟩
    cases hk

theorem Owned.step_iff (h : Owned k) (c : Syscall) : Owned (k.step c) ↔ KeepsOwnership k c := by
  cases c with
  | init c => exact h.init_iff c
  | cleanup => exact h.cleanup_iff
  | dummycall number =>
    obtain ⟨hheap, hbuf⟩ := sandboxDummycall_frame number k
    refine ⟨fun _ => trivial, fun _ a ha => ?_⟩
    rw [Kernel.step, Syscall.exec] at ha ⊢
    rw [hbuf] at ha
    rw [hheap]
    exact h a ha

/-- The halts that an access of the library to memory can lead to. -/
inductive MemoryFault : Halt → Prop
  | nullPointer : MemoryFault .nullPointer
  | outOfPool (offset : Nat) : MemoryFault (.outOfPool offset)
  | outOfListing (index : Nat) : MemoryFault (.outOfListing index)

theorem Listing.read_fault (h : Listing.read L i = .error e) : MemoryFault e := by
  rw [Listing.read] at h
  split at h
  · cases h
  · cases h
    exact .outOfListing i

theorem verifyGraph_fault (h : (verifyGraph m).1 = .error e) : MemoryFault e := by
  by_cases hok : ∃ p, m.pool = some p ∧ HeaderOk p
  · obtain ⟨p, hp, hh⟩ := hok
    obtain ⟨x, hends, hrun⟩ := verifyGraph_ends hp hh
    rw [hrun] at h
    cases hends with
    | accepted => cases h
    | outOfListing =>
      cases h
      exact .outOfListing _
    | fails _ _ _ _ hx =>
      cases hx with
      | outside =>
        cases h
        exact .outOfPool _
      | magic => cases h
      | edgeOutside =>
        cases h
        exact .outOfPool _
      | edgeMagic => cases h
  · obtain ⟨code, -, he⟩ := verifyGraph_refuses fun p hp hh => hok ⟨p, hp, hh⟩
    rw [he] at h
    cases h

theorem initializeGraph_fault (h : (initializeGraph .kernel data size m).1 = .error e) :
    MemoryFault e := by
  have hpool (p : Pool) (m : MemGraph)
      (h : (initializePool .kernel data size p m).1 = .error e) : MemoryFault e := by
    unfold initializePool at h
    dsimp only at h
    split at h
    · cases h
      exact .outOfPool _
    · split at h
      · split at h
        · rw [verifyLoaded] at h
          split at h
          next hv =>
            cases h
            exact verifyGraph_fault (congrArg Prod.fst hv)
          next hv =>
            simp only [Build.printErrorAndExit, ite_self] at h
            cases h
        · cases h
      · cases h
  rw [initializeGraph] at h
  split at h <;> exact hpool _ _ h

theorem resetProgstate_fault (h : (resetProgstate m).1 = .error e) : MemoryFault e := by
  rw [resetProgstate] at h
  dsimp only at h
  split at h
  · cases h
    exact .nullPointer
  · split at h
    next hr =>
      cases h
      exact Listing.read_fault hr
    next => cases h

theorem findTransition_fault (h : findTransition p libcalls c i n = .error e) : MemoryFault e := by
  induction n generalizing i with
  | zero => cases h
  | succ n ih =>
    rw [findTransition] at h
    split at h
    · cases h
      exact .outOfPool _
    · dsimp only at h
      split at h
      · cases h
      · exact ih h

theorem isStateTransitionValid_fault (h : isStateTransitionValid m c = .error e) :
    MemoryFault e := by
  rw [isStateTransitionValid] at h
  split at h
  · split at h
    · cases h
      exact .outOfPool _
    · dsimp only at h
      split at h
      · cases h
      · split at h
        · cases h
          exact .outOfPool _
        · split at h
          · cases h
          · exact findTransition_fault h
  · cases h
    exact .nullPointer

theorem transitionToState_fault (h : (transitionToState m c).1 = .error e) : MemoryFault e := by
  rw [transitionToState] at h
  split at h
  · cases h
    exact .nullPointer
  · split at h
    · cases h
    · split at h
      next hv =>
        cases h
        exact isStateTransitionValid_fault hv
      next =>
        dsimp only at h
        split at h
        · split at h
          · cases h
            exact .nullPointer
          · split at h
            next hr =>
              cases h
              exact Listing.read_fault hr
            next => cases h
        · cases h

theorem initializeAndReset_fault (h : (initializeAndReset data size k).1 = .error e) :
    MemoryFault e := by
  rw [initializeAndReset] at h
  split at h
  next hi =>
    cases h
    exact initializeGraph_fault (congrArg Prod.fst hi)
  next =>
    split at h
    next hr =>
      cases h
      exact resetProgstate_fault (congrArg Prod.fst hr)
    next => cases h

/-- The call frees an allocation a second time. -/
def FreesTwice (k : Kernel) (c : Syscall) : Prop := ∃ a, (c.exec k).1 = .error (.doubleFree a)

theorem Owned.not_freesTwice (h : Owned k) (c : Syscall) : ¬FreesTwice k c := by
  intro hx
  obtain ⟨a, ha⟩ := hx
  cases c with
  | init c =>
    rw [Syscall.exec] at ha
    by_cases hc : ∃ data, c.Checked data
    · obtain ⟨data, hd⟩ := hc
      have hr := h.init_replaced hd
      generalize sandboxInit c k = x at hr ha
      cases hr with
      | noMemory => cases ha
      | noCopy => cases ha
      | copied =>
        have hf := initializeAndReset_fault ha
        cases hf
    · rw [sandboxInit_unchecked fun data hd => hc ⟨data, hd⟩] at ha
      cases ha
  | cleanup =>
    obtain ⟨heap, hheap⟩ := h.kfree
    simp only [Syscall.exec, sandboxCleanup, hheap] at ha
    cases ha
  | dummycall number =>
    rw [Syscall.exec, sandboxDummycall] at ha
    split at ha
    next hv =>
      cases ha
      have hf := isStateTransitionValid_fault hv
      cases hf
    next =>
      split at ha
      · have hf := transitionToState_fault ha
        cases hf
      · cases ha

/-- In a run from boot `kernel_buffer` is always owned, and nothing is ever freed twice, if and
only if every call keeps the ownership. -/
theorem runSyscalls_owned_iff (cs : List Syscall) :
    EveryState Kernel.step Owned Kernel.boot cs ∧
        EveryStep Kernel.step (fun k c => ¬FreesTwice k c) Kernel.boot cs ↔
      EveryStep Kernel.step KeepsOwnership Kernel.boot cs := by
  rw [← everyState_iff owned_boot fun k c h => h.step_iff c]
  apply Iff.intro
  · exact And.left
  · intro h
    exact ⟨h, h.everyStep fun k c ho => ho.not_freesTwice c⟩

/-- A call of `sandbox_init` with a graph of one node, in which everything succeeds. -/
def edgeCall : InitCall := ⟨some (edgePool 0), UInt64.ofNat memoryPoolSize, true, true⟩

/-- The buffer is freed by the cleanup and again by the next call of `sandbox_init`. -/
theorem cleanup_frees_twice :
    ¬∀ cs : List Syscall, EveryState Kernel.step Owned Kernel.boot cs ∧
      EveryStep Kernel.step (fun k c => ¬FreesTwice k c) Kernel.boot cs := by
  intro h
  have hrun := (h [.init edgeCall, .cleanup, .init edgeCall]).2
  apply hrun.2.2.1
  refine ⟨0, ?_⟩
  decide +kernel

end LibcSandbox
