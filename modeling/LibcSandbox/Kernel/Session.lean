import LibcSandbox.Kernel.Process
import LibcSandbox.Pass.Shape

namespace LibcSandbox
open Library
set_option autoImplicit true

variable {G : Graaf} {k : Kernel} {ns : List Node}

/-- What the `kmalloc` and the `copy_from_user` of a call of `sandbox_init` come to. -/
structure InitResult where
  kmallocOk : Bool
  copyOk : Bool

structure InitResult.Succeeds (result : InitResult) : Prop where
  kmalloc : result.kmallocOk = true
  copy : result.copyOk = true

def InitResult.done : InitResult := ⟨true, true⟩

theorem InitResult.done_succeeds : InitResult.done.Succeeds := ⟨rfl, rfl⟩

/-- What the kernel is asked for, by the numbers in its table of system calls. The section of the
program is what `sandbox_init` is given. -/
def InjectedCall.syscall (data : Bytes) (result : InitResult) : InjectedCall → Syscall
  | .sandboxInit size => .init ⟨some data, UInt64.ofNat size, result.kmallocOk, result.copyOk⟩
  | .sandboxDummycall id => .dummycall id
  | .sandboxCleanup => .cleanup

section session

variable {w : List (InjectedCall × InitResult)} {result : InitResult}

def kernelCalls (data : Bytes) (w : List (InjectedCall × InitResult)) : List Syscall :=
  w.map fun c => c.1.syscall data c.2

theorem kernelCalls_cons (data : Bytes) (c : InjectedCall × InitResult)
    (w : List (InjectedCall × InitResult)) :
    kernelCalls data (c :: w) = c.1.syscall data c.2 :: kernelCalls data w := rfl

/-- What has become of `kernel_buffer`. -/
inductive BufferState where
  | null
  | live
  | freed
  deriving DecidableEq

def Kernel.Holds (k : Kernel) : BufferState → Prop
  | .null => k.kernelBuffer = none
  | .live => Held k
  | .freed => Spent k

theorem Kernel.Holds.owned {state : BufferState} (h : k.Holds state) (hs : state ≠ .freed) :
    Owned k := by
  cases state with
  | null =>
    intro a ha
    cases h.symm.trans ha
  | live => exact Held.owned h
  | freed => exact absurd rfl hs

theorem Kernel.Holds.of_frame {k' : Kernel} {state : BufferState} (h : k.Holds state)
    (hheap : k'.heap = k.heap) (hbuffer : k'.kernelBuffer = k.kernelBuffer) : k'.Holds state := by
  cases state with
  | null => exact hbuffer.trans h
  | live => exact Held.of_frame h hheap hbuffer
  | freed => exact Spent.of_frame h hheap hbuffer

/-- A process that has set up its sandbox: the node of its table that it stands at, and what has
become of the buffer. -/
structure Session where
  node : Nat
  buffer : BufferState
  deriving DecidableEq

/-- The sandbox can be set up again and taken down until the buffer is freed. A set up that gets no
memory leaves no buffer, and one whose copy fails leaves a freed one; the table stays in force. -/
def sessionStep (ns : List Node) (s : Session) : InjectedCall × InitResult → Option Session
  | (.sandboxInit _, result) =>
    if s.buffer = .freed then none
    else if result.kmallocOk = false then some { s with buffer := .null }
    else if result.copyOk = false then some { s with buffer := .freed }
    else some ⟨0, .live⟩
  | (.sandboxDummycall id, _) => (tableStep ns s.node id).map fun node => { s with node := node }
  | (.sandboxCleanup, _) =>
    match s.buffer with
    | .null => some s
    | .live => some { s with buffer := .freed }
    | .freed => none

/-- The kernel behind a session. -/
structure Tracks (ns : List Node) (k : Kernel) (s : Session) : Prop where
  confined : ∃ p, Confined k p ns s.node
  buffer : k.Holds s.buffer

theorem GraphBuffer.syscall_init (b : GraphBuffer) (hr : result.Succeeds) :
    InjectedCall.syscall b.data result (.sandboxInit b.size) = .init b.initCall := by
  rw [InjectedCall.syscall, hr.kmalloc, hr.copy]
  rfl

theorem GraphBuffer.init_tracks (b : GraphBuffer) (ho : Owned k)
    (hslots : k.graph.slotsFor b.numNodes = b.numNodes) (hr : result.Succeeds) :
    if b.nodes = [] then
      k.returned (InjectedCall.syscall b.data result (.sandboxInit b.size)) = none
    else ∃ k', k.returned (InjectedCall.syscall b.data result (.sandboxInit b.size)) = some k' ∧
      Tracks b.nodes k' ⟨0, .live⟩ := by
  have hinit := b.init_confined ho hslots
  rw [b.syscall_init hr]
  split at hinit
  next hempty =>
    obtain ⟨e, he⟩ := hinit
    rw [if_pos hempty]
    exact returned_eq_none (c := .init b.initCall) he
  next hempty =>
    obtain ⟨hreturn, hheld, hconf⟩ := hinit
    rw [if_neg hempty]
    exact ⟨_, returned_eq_some (c := .init b.initCall) (Prod.ext hreturn rfl), hconf, hheld⟩

theorem Tracks.slotsFor (b : GraphBuffer) (h : Tracks b.nodes k s) :
    k.graph.slotsFor b.numNodes = b.numNodes := by
  obtain ⟨p, hconf⟩ := h.confined
  rw [MemGraph.slotsFor, hconf.slots, Option.getD_some, GraphBuffer.numNodes]

theorem Owned.init_noMemory {c : InitCall} (ho : Owned k) (hd : c.Checked data)
    (hm : c.kmallocOk = false) : ∃ heap,
    sandboxInit c k = (.ok (-enomem), { k with heap := heap, kernelBuffer := none }) := by
  have hr := ho.init_replaced hd
  generalize sandboxInit c k = x at hr ⊢
  cases hr with
  | noMemory => exact ⟨_, rfl⟩
  | noCopy hm' => cases hm'.symm.trans hm
  | copied hm' => cases hm'.symm.trans hm

theorem Owned.init_noCopy {c : InitCall} (ho : Owned k) (hd : c.Checked data)
    (hm : c.kmallocOk = true) (hc : c.copyOk = false) : ∃ heap a, a ∉ heap.live ∧
    sandboxInit c k = (.ok (-efault), { k with heap := heap, kernelBuffer := some a }) := by
  have hr := ho.init_replaced hd
  generalize sandboxInit c k = x at hr ⊢
  cases hr with
  | noMemory hm' => cases hm'.symm.trans hm
  | noCopy _ _ ha => exact ⟨_, _, ha, rfl⟩
  | copied _ hc' => cases hc'.symm.trans hc

theorem Tracks.init (b : GraphBuffer) (h : Tracks b.nodes k s) (result : InitResult) :
    Option.Rel (Tracks b.nodes)
      (k.returned (InjectedCall.syscall b.data result (.sandboxInit b.size)))
      (sessionStep b.nodes s (.sandboxInit b.size, result)) := by
  have hslots := Tracks.slotsFor b h
  obtain ⟨⟨p, hconf⟩, hbuffer⟩ := h
  have hd : InitCall.Checked ⟨some b.data, UInt64.ofNat b.size, result.kmallocOk, result.copyOk⟩
    b.data := ⟨b.initCall_checked.1, rfl⟩
  rw [sessionStep]
  by_cases hfreed : s.buffer = .freed
  · rw [hfreed] at hbuffer
    rw [if_pos hfreed, InjectedCall.syscall, Spent.returned_none (c := .init _) hbuffer ⟨b.data, hd⟩]
    exact .none
  · rw [if_neg hfreed]
    have ho := hbuffer.owned hfreed
    by_cases hm : result.kmallocOk = false
    · obtain ⟨heap, hrun⟩ := ho.init_noMemory hd hm
      rw [if_pos hm, InjectedCall.syscall, returned_eq_some (c := .init _) hrun]
      exact .some ⟨⟨p, { hconf with }⟩, rfl⟩
    · rw [if_neg hm]
      rw [Bool.not_eq_false] at hm
      by_cases hc : result.copyOk = false
      · obtain ⟨heap, a, ha, hrun⟩ := ho.init_noCopy hd hm hc
        rw [if_pos hc, InjectedCall.syscall, returned_eq_some (c := .init _) hrun]
        exact .some ⟨⟨p, { hconf with }⟩, a, rfl, ha⟩
      · rw [if_neg hc]
        rw [Bool.not_eq_false] at hc
        have hinit := b.init_tracks ho hslots ⟨hm, hc⟩
        rw [if_neg (List.ne_nil_of_length_pos (Nat.zero_lt_of_lt hconf.lt))] at hinit
        obtain ⟨k', hk', ht⟩ := hinit
        rw [hk']
        exact .some ht

theorem Tracks.dummycall (h : Tracks ns k s) (id : UInt64) (result : InitResult) :
    Option.Rel (Tracks ns) (k.returned (.dummycall id))
      (sessionStep ns s (.sandboxDummycall id, result)) := by
  obtain ⟨⟨p, hconf⟩, hbuffer⟩ := h
  have hstep := hconf.dummycall id
  obtain ⟨hheap, hkept⟩ := sandboxDummycall_frame id k
  rw [sessionStep]
  cases hk : k.returned (.dummycall id) with
  | none =>
    rw [hk] at hstep
    generalize tableStep ns s.node id = next at hstep ⊢
    cases hstep
    exact .none
  | some k' =>
    rw [hk] at hstep
    generalize tableStep ns s.node id = next at hstep ⊢
    cases hstep with
    | some hconf' =>
      cases returned_step hk
      exact .some ⟨⟨p, hconf'⟩, hbuffer.of_frame hheap hkept⟩

theorem Tracks.cleanup (h : Tracks ns k s) (result : InitResult) :
    Option.Rel (Tracks ns) (k.returned .cleanup) (sessionStep ns s (.sandboxCleanup, result)) := by
  obtain ⟨⟨p, hconf⟩, hbuffer⟩ := h
  obtain ⟨node, state⟩ := s
  rw [sessionStep]
  cases state with
  | null =>
    rw [returned_cleanup_none hbuffer]
    exact .some ⟨⟨p, hconf⟩, hbuffer⟩
  | live =>
    obtain ⟨heap, hrun, hspent⟩ := Held.cleanup hbuffer
    rw [returned_eq_some (c := .cleanup) hrun]
    exact .some ⟨⟨p, { hconf with }⟩, hspent⟩
  | freed =>
    rw [Spent.returned_none (c := .cleanup) hbuffer trivial]
    exact .none

theorem Tracks.step {c : InjectedCall × InitResult} (b : GraphBuffer) (h : Tracks b.nodes k s)
    (hc : ∀ n, c.1 = .sandboxInit n → n = b.size) :
    Option.Rel (Tracks b.nodes) (k.returned (c.1.syscall b.data c.2)) (sessionStep b.nodes s c) := by
  obtain ⟨call, result⟩ := c
  cases call with
  | sandboxInit n =>
    rw [hc n rfl]
    exact Tracks.init b h result
  | sandboxDummycall id => exact h.dummycall id result
  | sandboxCleanup => exact h.cleanup result

theorem Tracks.run (b : GraphBuffer) (h : Tracks b.nodes k s)
    (hw : ∀ c ∈ w, ∀ n, c.1 = .sandboxInit n → n = b.size) :
    Option.Rel (Tracks b.nodes) (run Kernel.returned k (kernelCalls b.data w))
      (run (sessionStep b.nodes) s w) := by
  rw [kernelCalls, run_map]
  exact run_rel (fun k s h c hc => h.step b (hw c hc)) h

theorem GraphBuffer.runsClean_iff (b : GraphBuffer) (ho : Owned k)
    (hslots : k.graph.slotsFor b.numNodes = b.numNodes) (hr : result.Succeeds)
    (hw : ∀ c ∈ w, ∀ n, c.1 = .sandboxInit n → n = b.size) :
    RunsClean (kernelCalls b.data ((.sandboxInit b.size, result) :: w)) k ↔
      b.nodes ≠ [] ∧ (run (sessionStep b.nodes) ⟨0, .live⟩ w).isSome := by
  have hinit := b.init_tracks ho hslots hr
  rw [kernelCalls_cons, runsClean_cons]
  by_cases hempty : b.nodes = []
  · rw [if_pos hempty] at hinit
    simp only [hinit, reduceCtorEq, false_and, exists_false, hempty, ne_eq, not_true_eq_false]
  · rw [if_neg hempty] at hinit
    obtain ⟨k', hk', ht⟩ := hinit
    simp only [hk', Option.some.injEq, exists_eq_left', ne_eq, hempty, not_false_eq_true, true_and]
    rw [runsClean_iff_run]
    exact isSome_of_rel (ht.run b hw)

/-- A process that sets up a sandbox with any table and goes on to make any calls, with whatever
fails in them, is followed by its session: they run clean exactly if the session takes them, and the
kernel is left behind as the session is. -/
theorem process_follows_session (b : GraphBuffer) (ho : Owned k) (hne : b.nodes ≠ [])
    (hslots : k.graph.slotsFor b.numNodes = b.numNodes) (hr : result.Succeeds)
    (hw : ∀ c ∈ w, ∀ n, c.1 = .sandboxInit n → n = b.size) :
    Option.Rel (Tracks b.nodes)
      (run Kernel.returned k (kernelCalls b.data ((.sandboxInit b.size, result) :: w)))
      (run (sessionStep b.nodes) ⟨0, .live⟩ w) := by
  have hinit := b.init_tracks ho hslots hr
  rw [if_neg hne] at hinit
  obtain ⟨k', hk', ht⟩ := hinit
  rw [kernelCalls_cons, Library.run, hk', Option.bind_some]
  exact ht.run b hw

/-- A set up that gets no memory and one whose copy fails. -/
def failingCalls : List (InjectedCall × InitResult) :=
  [(.sandboxDummycall 7, .done), (.sandboxInit memoryPoolSize, ⟨false, true⟩),
    (.sandboxCleanup, .done), (.sandboxCleanup, .done),
    (.sandboxInit memoryPoolSize, ⟨true, false⟩), (.sandboxDummycall 7, .done)]

/-- Without a buffer the cleanups do no harm, and the first table stays in force. -/
theorem firstPolicy_followed : ∃ k',
    run Kernel.returned .boot
      (kernelCalls firstPolicy.data ((.sandboxInit memoryPoolSize, .done) :: failingCalls)) =
      some k' ∧ Tracks firstPolicy.nodes k' ⟨1, .freed⟩ := by
  have hsize : firstPolicy.size = memoryPoolSize := rfl
  have hrel := process_follows_session (w := failingCalls) firstPolicy.toGraphBuffer owned_boot
    (by decide) rfl InitResult.done_succeeds (by simp [failingCalls, hsize])
  have hsession : run (sessionStep firstPolicy.nodes) ⟨0, .live⟩ failingCalls =
      some ⟨1, .freed⟩ := by decide +kernel
  rw [hsession] at hrel
  generalize hrun : run Kernel.returned Kernel.boot _ = x at hrel
  cases hrel with
  | some h => exact ⟨_, hrun, h⟩

end session

section monitor

variable {w : List InjectedCall}

def InjectedCall.libcallId : InjectedCall → Option UInt64
  | .sandboxDummycall id => some id
  | _ => none

/-- The library functions that an execution announces. -/
def libcallIds (w : List InjectedCall) : List UInt64 := w.filterMap InjectedCall.libcallId

theorem libcallIds_append (w w' : List InjectedCall) :
    libcallIds (w ++ w') = libcallIds w ++ libcallIds w' := List.filterMap_append

/-- A sandbox whose table has no memory of the calls: the numbers that it allows, and whether it has
been taken down. -/
def monitorStep (allowed : UInt64 → Bool) (closed : Bool) : InjectedCall → Option Bool
  | .sandboxInit _ => if closed then none else some false
  | .sandboxDummycall id => if allowed id then some closed else none
  | .sandboxCleanup => if closed then none else some true

/-- A cleanup is followed by nothing but library functions. -/
def ClosesLast (w : List InjectedCall) : Prop :=
  ∀ u v, w = u ++ .sandboxCleanup :: v → ∀ c ∈ v, c.isDummycall = true

theorem closesLast_cons : ClosesLast (c :: w) ↔
    (c = .sandboxCleanup → ∀ d ∈ w, d.isDummycall = true) ∧ ClosesLast w := by
  apply Iff.intro
  · intro h
    refine ⟨?_, fun u v hw => h (c :: u) v (by rw [hw]; rfl)⟩
    rintro rfl
    exact h [] w rfl
  · intro h u v hw
    cases u with
    | nil =>
      cases hw
      exact h.1 rfl
    | cons d u =>
      cases hw
      exact h.2 u v rfl

theorem closesLast_of_dummycalls (h : ∀ c ∈ w, c.isDummycall = true) : ClosesLast w := by
  rintro u v rfl c hc
  exact h c (List.mem_append_right _ (List.mem_cons_of_mem _ hc))

theorem monitor_run_iff (allowed : UInt64 → Bool) (closed : Bool) (w : List InjectedCall) :
    (run (monitorStep allowed) closed w).isSome ↔
      (∀ number ∈ libcallIds w, allowed number = true) ∧
      if closed then ∀ c ∈ w, c.isDummycall = true else ClosesLast w := by
  induction w generalizing closed with
  | nil =>
    refine iff_of_true rfl ⟨List.forall_mem_nil _, ?_⟩
    cases closed with
    | true => exact List.forall_mem_nil _
    | false => exact closesLast_of_dummycalls (List.forall_mem_nil _)
  | cons c w ih =>
    rw [run]
    cases c with
    | sandboxInit n =>
      have hids : libcallIds (.sandboxInit n :: w) = libcallIds w := rfl
      rw [monitorStep, hids, closesLast_cons, List.forall_mem_cons]
      cases closed with
      | true => exact iff_of_false Bool.false_ne_true fun h => Bool.false_ne_true h.2.1
      | false => simpa using ih false
    | sandboxDummycall number =>
      have hids : libcallIds (.sandboxDummycall number :: w) = number :: libcallIds w := rfl
      have hcall : (InjectedCall.sandboxDummycall number).isDummycall = true := rfl
      rw [monitorStep, hids, closesLast_cons, List.forall_mem_cons, List.forall_mem_cons]
      cases hallowed : allowed number with
      | true => simpa [hcall] using ih closed
      | false => exact iff_of_false Bool.false_ne_true fun h => Bool.false_ne_true h.1.1
    | sandboxCleanup =>
      have hids : libcallIds (.sandboxCleanup :: w) = libcallIds w := rfl
      rw [monitorStep, hids, closesLast_cons, List.forall_mem_cons]
      cases closed with
      | true => exact iff_of_false Bool.false_ne_true fun h => Bool.false_ne_true h.2.1
      | false =>
        have hrest := ih true
        simp only [Bool.false_eq_true, ↓reduceIte, Option.bind_some, forall_const] at hrest ⊢
        rw [hrest]
        apply and_congr_right
        intro _
        exact ⟨fun h => ⟨h, closesLast_of_dummycalls h⟩, fun h => h.1⟩

end monitor

/-- Where every set up succeeds, a session with the table of the pass follows the monitor of its
policy. -/
theorem passTable_run_iff {w : List (InjectedCall × InitResult)} {g : LibcCallgraph G}
    (stringMap : String → Option Int)
    (hash : String → UInt64) (hr : ∀ c ∈ w, c.2.Succeeds)
    (hleft : ∀ c ∈ libcallIds (w.map Prod.fst), ¬Leftover g stack c)
    (hn : 0 < g.getVertices.length) :
    (run (sessionStep (passTable stringMap hash g stack)) ⟨0, .live⟩ w).isSome ↔
      (∀ c ∈ libcallIds (w.map Prod.fst), (policy stringMap hash g c).isSome = true) ∧
        ClosesLast (w.map Prod.fst) := by
  let R (s : Session) (closed : Bool) : Prop :=
    s.buffer = (if closed then .freed else .live) ∧ s.node < g.getVertices.length
  have hstep : ∀ s closed, R s closed → ∀ c ∈ w,
      Option.Rel R (sessionStep (passTable stringMap hash g stack) s c)
        (monitorStep (fun c => (policy stringMap hash g c).isSome) closed c.1) := by
    rintro ⟨node, _⟩ closed ⟨rfl, hnode⟩ ⟨call, result⟩ hc
    cases call with
    | sandboxInit n =>
      rw [sessionStep, monitorStep]
      cases closed with
      | true => exact .none
      | false =>
        rw [(hr _ hc).kmalloc, (hr _ hc).copy]
        exact .some ⟨rfl, hn⟩
    | sandboxDummycall number =>
      have hmem : number ∈ libcallIds (w.map Prod.fst) :=
        List.mem_filterMap.2 ⟨_, List.mem_map_of_mem hc, rfl⟩
      rw [sessionStep, monitorStep, tableStep_passTable (hleft number hmem) hnode]
      cases hp : policy stringMap hash g number with
      | none => exact .none
      | some t => exact .some ⟨rfl, policy_lt hp⟩
    | sandboxCleanup =>
      rw [sessionStep, monitorStep]
      cases closed with
      | true => exact .none
      | false => exact .some ⟨rfl, hnode⟩
  have hrun := run_rel hstep (s := ⟨0, .live⟩) (t := false) ⟨rfl, hn⟩
  rw [isSome_of_rel hrun, ← run_map, monitor_run_iff, if_neg Bool.false_ne_true]

end LibcSandbox
