import Mathlib.Data.Finset.Basic
import LibcSandbox.MemGraph.Functions

namespace LibcSandbox
open Library
set_option autoImplicit true

def einval : Int := 22
def enomem : Int := 12
def efault : Int := 14

/-- The allocations of `kmalloc`, by ids that are never used again. -/
structure Heap where
  live : Finset Nat
  next : Nat
  fresh : ∀ a ∈ live, a < next

def Heap.empty : Heap := ⟨∅, 0, by simp⟩

def Heap.kmalloc (h : Heap) : Nat × Heap :=
  (h.next, ⟨insert h.next h.live, h.next + 1, by
    intro a ha
    rcases Finset.mem_insert.1 ha with rfl | ha
    · exact Nat.lt_add_one _
    · exact Nat.lt_succ_of_lt (h.fresh a ha)⟩)

/-- Freeing a null pointer does nothing. -/
def Heap.kfree (h : Heap) : Option Nat → Except Halt Heap
  | none => .ok h
  | some a =>
    if a ∈ h.live then
      .ok ⟨h.live.erase a, h.next, fun b hb => h.fresh b (Finset.mem_of_mem_erase hb)⟩
    else .error (.doubleFree a)

/-- The state that all processes share: the library inside the kernel and `kernel_buffer`. -/
structure Kernel where
  graph : MemGraph
  heap : Heap
  kernelBuffer : Option Nat

def Kernel.boot : Kernel := ⟨.initial, .empty, none⟩

/-- The arguments of `sandbox_init`, and whether its `kmalloc` and its `copy_from_user` succeed. -/
structure InitCall where
  data : Option Bytes
  size : UInt64
  kmallocOk : Bool
  copyOk : Bool

/-- The end of `sandbox_init`, with the copied buffer at hand. -/
def initializeAndReset (data : Bytes) (size : Nat) (k : Kernel) : Outcome Kernel Int :=
  match initializeGraph .kernel (some data) size k.graph with
  | (.error h, m) => (.error h, { k with graph := m })
  | (.ok (), m) =>
    match resetProgstate m with
    | (.error h, m) => (.error h, { k with graph := m })
    | (.ok (), m) => (.ok 0, { k with graph := m })

/-- The part of `sandbox_init` behind the check of its arguments. -/
def replaceBuffer (c : InitCall) (data : Bytes) (k : Kernel) : Outcome Kernel Int :=
  match k.heap.kfree k.kernelBuffer with
  | .error h => (.error h, k)
  | .ok heap =>
    if ¬c.kmallocOk then (.ok (-enomem), { k with heap := heap, kernelBuffer := none })
    else
      let (buffer, heap) := heap.kmalloc
      let k := { k with heap := heap, kernelBuffer := some buffer }
      if ¬c.copyOk then
        match heap.kfree (some buffer) with
        | .error h => (.error h, k)
        | .ok heap => (.ok (-efault), { k with heap := heap })
      else initializeAndReset data c.size.toNat k

def sandboxInit (c : InitCall) (k : Kernel) : Outcome Kernel Int :=
  if c.size = 0 then (.ok (-einval), k)
  else
    match c.data with
    | none => (.ok (-einval), k)
    | some data => replaceBuffer c data k

def sandboxCleanup (k : Kernel) : Outcome Kernel Int :=
  match k.heap.kfree k.kernelBuffer with
  | .error h => (.error h, k)
  | .ok heap => (.ok 0, { k with heap := heap })

def sandboxDummycall (number : UInt64) (k : Kernel) : Outcome Kernel Int :=
  match isStateTransitionValid k.graph number with
  | .error h => (.error h, k)
  | .ok valid =>
    if valid ≠ 0 then
      let (r, m) := transitionToState k.graph number
      (r, { k with graph := m })
    else (.error .sigkill, k)

inductive Syscall where
  | init (c : InitCall)
  | cleanup
  | dummycall (number : UInt64)

def Syscall.exec : Syscall → Kernel → Outcome Kernel Int
  | .init c => sandboxInit c
  | .cleanup => sandboxCleanup
  | .dummycall number => sandboxDummycall number

/-- The kernel goes on after a call that does not return, in the state the call left. -/
def Kernel.step (k : Kernel) (c : Syscall) : Kernel := (c.exec k).2

end LibcSandbox
