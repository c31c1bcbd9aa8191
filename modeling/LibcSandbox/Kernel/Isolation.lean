import LibcSandbox.Kernel.FailClosed
import LibcSandbox.MemGraph.Capacity

namespace LibcSandbox
open Library
set_option autoImplicit true

/-- A produced buffer with at least one node, whose edges all lead to nodes. -/
structure PolicyBuffer extends GraphBuffer where
  nonempty : 0 < nodes.length
  targets : ∀ n ∈ nodes, ∀ e ∈ n.edges, e.nextProgstate.toNat < nodes.length

/-- The calls of a process that only passes well-formed graphs. -/
inductive ProcessCall where
  | init (b : PolicyBuffer) (kmallocOk copyOk : Bool)
  | cleanup
  | dummycall (number : UInt64)

def PolicyBuffer.call (b : PolicyBuffer) (kmallocOk copyOk : Bool) : InitCall :=
  ⟨some b.data, UInt64.ofNat b.size, kmallocOk, copyOk⟩

def ProcessCall.syscall : ProcessCall → Syscall
  | .init b kmallocOk copyOk => .init (b.call kmallocOk copyOk)
  | .cleanup => .cleanup
  | .dummycall number => .dummycall number

/-- The kernel and the processes that were killed. -/
structure System where
  kernel : Kernel
  killed : Nat → Bool

def System.boot : System := ⟨.boot, fun _ => false⟩

/-- A process makes its next call, unless it was killed; a call that does not return kills it. -/
def System.step (s : System) (x : Nat × ProcessCall) : System :=
  if s.killed x.1 then s
  else
    match x.2.syscall.exec s.kernel with
    | (.ok _, k) => { s with kernel := k }
    | (.error _, k) => ⟨k, Function.update s.killed x.1 true⟩

/-- The value that a call of the process returns, or nothing if it is killed in the call. -/
def System.outcome (pid : Nat) (s : System) (x : Nat × ProcessCall) : List (Option Int) :=
  if x.1 = pid ∧ s.killed pid = false then [(x.2.syscall.exec s.kernel).1.toOption] else []

def outcomes (pid : Nat) (w : List (Nat × ProcessCall)) : List (Option Int) :=
  outputs System.step (System.outcome pid) System.boot w

/-- The calls that change the graph that is loaded or the state of the recogniser. -/
def changesGraph (k : Kernel) : ProcessCall → Bool
  | .init _ kmallocOk copyOk => kmallocOk && copyOk
  | .cleanup => false
  | .dummycall number =>
    match isStateTransitionValid k.graph number with
    | .ok valid => valid ≠ 0
    | .error _ => false

/-- A system together with the process that changed the graph last. -/
def track (s : System × Option Nat) (x : Nat × ProcessCall) : System × Option Nat :=
  (s.1.step x, if ¬s.1.killed x.1 ∧ changesGraph s.1.kernel x.2 then some x.1 else s.2)

/-- No buffer is freed twice, and no graph is loaded that the listing has no room for. -/
def Sound (k : Kernel) : ProcessCall → Prop
  | .init b _ _ => Owned k ∧ b.numNodes ≤ k.graph.slotsFor b.numNodes
  | .cleanup => Owned k
  | .dummycall _ => True

def System.Sound (s : System) (x : Nat × ProcessCall) : Prop :=
  s.killed x.1 = false → LibcSandbox.Sound s.kernel x.2

/-- The graph was last changed by the process itself, or never. -/
def Holds (pid : Nat) (changer : Option Nat) : Prop := ∀ i ∈ changer, i = pid

/-- The process only makes its library calls while no other process has changed the graph since
it did so itself. -/
def Undisturbed (pid : Nat) (s : System × Option Nat) (x : Nat × ProcessCall) : Prop :=
  s.1.Sound x ∧ ∀ number, x = (pid, .dummycall number) → Holds pid s.2

/-- Two libraries have nothing loaded, or the same table at the same place and state. -/
def SameState (m m' : MemGraph) : Prop :=
  (m.startNode = none ∧ m'.startNode = none) ∨
    ∃ p p' ns k, AtState m p ns k ∧ AtState m' p' ns k ∧
      p.nodesTableOffset.toNat = nodeTableOffset ∧ p'.nodesTableOffset.toNat = nodeTableOffset ∧
      ns.length ≤ memoryPoolSize ∧ ∀ n ∈ ns, ∀ e ∈ n.edges, e.nextProgstate.toNat < ns.length

theorem changesGraph_false (h : changesGraph k c = false) :
    (c.syscall.exec k).2.graph = k.graph := by
  cases c with
  | init b kmallocOk copyOk =>
    rw [ProcessCall.syscall, Syscall.exec, sandboxInit]
    split
    · rfl
    · dsimp only [PolicyBuffer.call]
      rw [replaceBuffer]
      split
      · rfl
      · dsimp only
        split
        · rfl
        · split
          · split <;> rfl
          · simp_all [changesGraph]
  | cleanup => exact sandboxCleanup_graph k
  | dummycall number =>
    rw [ProcessCall.syscall, Syscall.exec, sandboxDummycall]
    split
    · rfl
    next hv =>
      rw [changesGraph, hv] at h
      simp only [ne_eq, decide_not, Bool.not_eq_eq_eq_not, Bool.not_false, decide_eq_true_eq] at h
      simp only [h, ne_eq, not_true_eq_false, ↓reduceIte]

theorem PolicyBuffer.checked (b : PolicyBuffer) (kmallocOk copyOk : Bool) :
    (b.call kmallocOk copyOk).Checked b.data := by
  refine ⟨fun hz => ?_, rfl⟩
  have hpos := b.size_pos
  rw [← toNat_ofNat_length b.size_le] at hpos
  simp only [PolicyBuffer.call] at hz
  rw [hz] at hpos
  exact absurd hpos (by decide)

theorem PolicyBuffer.initializeAndReset (b : PolicyBuffer) (k : Kernel)
    (h : b.numNodes ≤ k.graph.slotsFor b.numNodes) :
    ∃ m p, initializeAndReset b.data b.size k = (.ok 0, { k with graph := m }) ∧
      AtState m p b.nodes 0 ∧ p.nodesTableOffset.toNat = nodeTableOffset := by
  obtain ⟨m₁, p, hm₁, hb, hl, -⟩ := b.load .kernel k.graph h
  obtain ⟨m, hm, ha⟩ := hl.resetProgstate b.nonempty
  refine ⟨m, p, ?_, ha, hb.tableOffset⟩
  simp only [LibcSandbox.initializeAndReset, hm₁, hm]

def initCode (kmallocOk copyOk : Bool) : Int :=
  if ¬kmallocOk then -enomem else if ¬copyOk then -efault else 0

/-- What a call of `sandbox_init` returns does not depend on the state of the kernel, and neither
does the graph that is loaded if it returns 0. -/
theorem PolicyBuffer.sandboxInit (b : PolicyBuffer) (kmallocOk copyOk : Bool) (ho : Owned k)
    (hs : b.numNodes ≤ k.graph.slotsFor b.numNodes) :
    (sandboxInit (b.call kmallocOk copyOk) k).1 = .ok (initCode kmallocOk copyOk) ∧
      (kmallocOk = true → copyOk = true →
        ∃ p, AtState (sandboxInit (b.call kmallocOk copyOk) k).2.graph p b.nodes 0 ∧
          p.nodesTableOffset.toNat = nodeTableOffset) := by
  have hr := ho.init_replaced (b.checked kmallocOk copyOk)
  generalize LibcSandbox.sandboxInit (b.call kmallocOk copyOk) k = x at hr
  cases hr with
  | noMemory hm =>
    change kmallocOk = false at hm
    subst hm
    exact ⟨rfl, fun h => by cases h⟩
  | noCopy hm hc =>
    change kmallocOk = true at hm
    change copyOk = false at hc
    subst hm hc
    exact ⟨rfl, fun _ h => by cases h⟩
  | @copied a heap hm hc ha =>
    change kmallocOk = true at hm
    change copyOk = true at hc
    subst hm hc
    obtain ⟨m, p, hrun, hat, hp⟩ :=
      b.initializeAndReset { k with heap := heap, kernelBuffer := some a } hs
    have hsize : (b.call true true).size.toNat = b.size := toNat_ofNat_length b.size_le
    rw [hsize, hrun]
    exact ⟨rfl, fun _ _ => ⟨p, hat, hp⟩⟩

theorem nextState_lt (ht : ∀ n ∈ ns, ∀ e ∈ n.edges, e.nextProgstate.toNat < ns.length)
    (hlen : ns.length ≤ memoryPoolSize) (h : nextState ns k c = some v) : v < ns.length := by
  rw [memoryPoolSize] at hlen
  obtain ⟨n, hn, h⟩ := Option.bind_eq_some_iff.1 h
  have hmem := List.mem_of_getElem? hn
  dsimp only at h
  split at h
  · cases h
  next hne =>
    cases h
    rw [transitionCode] at hne ⊢
    cases hl : lookup n.edges c with
    | none =>
      rw [hl, Option.elim_none] at hne
      exact (hne toUnsignedLong_zero).elim
    | some t =>
      rw [lookup, Option.map_eq_some_iff] at hl
      obtain ⟨e, he, rfl⟩ := hl
      have hlt := ht n hmem e (List.mem_of_find?_eq_some he)
      rw [Option.elim_some, toUnsignedLong_toInt (by omega)]
      exact hlt

theorem AtState.dummycall {k : Kernel} (h : AtState k.graph p ns j)
    (ht : ∀ n ∈ ns, ∀ e ∈ n.edges, e.nextProgstate.toNat < ns.length)
    (hlen : ns.length ≤ memoryPoolSize) (number : UInt64) :
    match nextState ns j number with
    | some v => (sandboxDummycall number k).1 = .ok v ∧
        AtState (sandboxDummycall number k).2.graph p ns v
    | none => (∃ e, (sandboxDummycall number k).1 = .error e) ∧
        (sandboxDummycall number k).2 = k := by
  cases hn : nextState ns j number with
  | none =>
    rcases h.check_refused hn with hc | ⟨o, hc⟩
    · simp only [sandboxDummycall, hc, ne_eq, not_true_eq_false, ↓reduceIte, Except.error.injEq,
        exists_eq', and_self]
    · simp only [sandboxDummycall, hc, Except.error.injEq, exists_eq', and_self]
  | some v =>
    obtain ⟨z, hz, hcheck, -⟩ := h.check_taken hn
    obtain ⟨m', hm', h'⟩ := (h.transition_taken hn).2 (nextState_lt ht hlen hn)
    simp only [sandboxDummycall, hcheck, ne_eq, hz, not_false_eq_true, ↓reduceIte, hm',
      h'.toInt_current hlen, true_and]
    exact h'

theorem SameState.dummycall {k k' : Kernel} (h : SameState k.graph k'.graph) (number : UInt64) :
    (sandboxDummycall number k).1.toOption = (sandboxDummycall number k').1.toOption ∧
      SameState (sandboxDummycall number k).2.graph (sandboxDummycall number k').2.graph := by
  have hsame := h
  rcases h with ⟨hn, hn'⟩ | ⟨p, p', ns, j, ha, ha', hp, hp', hlen, ht⟩
  · rw [sandboxDummycall_unloaded hn, sandboxDummycall_unloaded hn']
    exact ⟨rfl, hsame⟩
  · have hd := ha.dummycall ht hlen number
    have hd' := ha'.dummycall ht hlen number
    cases hn : nextState ns j number with
    | none =>
      rw [hn] at hd hd'
      obtain ⟨⟨e, he⟩, hk⟩ := hd
      obtain ⟨⟨e', he'⟩, hk'⟩ := hd'
      rw [he, he', hk, hk']
      exact ⟨rfl, hsame⟩
    | some v =>
      rw [hn] at hd hd'
      obtain ⟨hv, hat⟩ := hd
      obtain ⟨hv', hat'⟩ := hd'
      rw [hv, hv']
      exact ⟨rfl, .inr ⟨p, p', ns, v, hat, hat', hp, hp', hlen, ht⟩⟩

theorem PolicyBuffer.length_le (b : PolicyBuffer) : b.nodes.length ≤ memoryPoolSize := by
  have hlen := length_le_extent b.nodes
  have hfits := b.fits
  have hsize := b.size_le
  omega

theorem sandboxCleanup_owned (h : Owned k) : (sandboxCleanup k).1 = .ok 0 := by
  obtain ⟨heap, hheap⟩ := h.kfree
  simp only [sandboxCleanup, hheap]

theorem exec_same {k k' : Kernel} (hs : hold → SameState k.graph k'.graph)
    (hd : ∀ number, c = .dummycall number → hold) (h : Sound k c) (h' : Sound k' c) :
    (c.syscall.exec k).1.toOption = (c.syscall.exec k').1.toOption ∧
      (changesGraph k c = true ∨ hold →
        SameState (c.syscall.exec k).2.graph (c.syscall.exec k').2.graph) := by
  cases c with
  | init b kmallocOk copyOk =>
    obtain ⟨hr, hat⟩ := b.sandboxInit kmallocOk copyOk h.1 h.2
    obtain ⟨hr', hat'⟩ := b.sandboxInit kmallocOk copyOk h'.1 h'.2
    refine ⟨by simp only [ProcessCall.syscall, Syscall.exec, hr, hr'], fun hch => ?_⟩
    cases hc : kmallocOk && copyOk with
    | true =>
      obtain ⟨hm, hcopy⟩ := Bool.and_eq_true_iff.1 hc
      obtain ⟨p, ha, hp⟩ := hat hm hcopy
      obtain ⟨p', ha', hp'⟩ := hat' hm hcopy
      exact .inr ⟨p, p', b.nodes, 0, ha, ha', hp, hp', b.length_le, b.targets⟩
    | false =>
      rw [changesGraph_false (c := .init b kmallocOk copyOk) hc,
        changesGraph_false (c := .init b kmallocOk copyOk) hc]
      exact hs (hch.resolve_left (by rw [changesGraph, hc]; exact Bool.false_ne_true))
  | cleanup =>
    refine ⟨?_, fun hch => ?_⟩
    · simp only [ProcessCall.syscall, Syscall.exec, sandboxCleanup_owned h, sandboxCleanup_owned h']
    · rw [changesGraph_false (c := .cleanup) rfl, changesGraph_false (c := .cleanup) rfl]
      exact hs (hch.resolve_left Bool.false_ne_true)
  | dummycall number =>
    obtain ⟨hr, hsame⟩ := (hs (hd number rfl)).dummycall number
    exact ⟨hr, fun _ => hsame⟩

theorem System.step_killed {s : System} (h : s.killed x.1 = true) : s.step x = s := by
  rw [System.step, if_pos h]

theorem System.step_alive {s : System} (h : s.killed x.1 = false) :
    (s.step x).kernel = (x.2.syscall.exec s.kernel).2 ∧
      (s.step x).killed =
        if (x.2.syscall.exec s.kernel).1.toOption = none then Function.update s.killed x.1 true
        else s.killed := by
  rw [System.step, h]
  generalize x.2.syscall.exec s.kernel = r
  obtain ⟨r, k⟩ := r
  cases r <;> exact ⟨rfl, rfl⟩

/-- The process is as well off in the one system as in the other, and sees the same table as long
as no other process has changed it. -/
def Related (pid : Nat) (s : System × Option Nat) (s' : System) : Prop :=
  s.1.killed pid = s'.killed pid ∧
    (Holds pid s.2 → SameState s.1.kernel.graph s'.kernel.graph)

theorem Related.own (h : Related pid s s') (hu : Undisturbed pid s (pid, c))
    (hs : s'.Sound (pid, c)) :
    System.outcome pid s.1 (pid, c) = System.outcome pid s' (pid, c) ∧
      Related pid (track s (pid, c)) (s'.step (pid, c)) := by
  obtain ⟨hk, hg⟩ := h
  cases hkill : s.1.killed pid with
  | true =>
    have hkill' := hk.symm.trans hkill
    simp only [System.outcome, hkill, hkill', Bool.true_eq_false, and_false, ↓reduceIte, true_and]
    rw [Related, track, System.step_killed (x := (pid, c)) hkill,
      System.step_killed (x := (pid, c)) hkill', if_neg (by simp [hkill])]
    exact ⟨hk, hg⟩
  | false =>
    have hkill' := hk.symm.trans hkill
    obtain ⟨hr, hsame⟩ := exec_same (c := c) hg (fun number hc => hu.2 number (by rw [hc]))
      (hu.1 hkill) (hs hkill')
    obtain ⟨hkernel, hkilled⟩ := s.1.step_alive (x := (pid, c)) hkill
    obtain ⟨hkernel', hkilled'⟩ := s'.step_alive (x := (pid, c)) hkill'
    refine ⟨?_, ?_, fun hh => ?_⟩
    · simp only [System.outcome, hkill, hkill', and_self, ↓reduceIte, hr]
    · rw [track, hkilled, hkilled', hr]
      split
      · simp only [Function.update_self]
      · exact hk
    · rw [track, hkernel, hkernel']
      apply hsame
      by_cases hch : changesGraph s.1.kernel c = true
      · exact .inl hch
      · rw [track, if_neg (by simp [hch])] at hh
        exact .inr hh

theorem Related.other (h : Related pid s s') (hx : x.1 ≠ pid) :
    System.outcome pid s.1 x = [] ∧ Related pid (track s x) s' := by
  obtain ⟨hk, hg⟩ := h
  refine ⟨if_neg fun hh => hx hh.1, ?_⟩
  cases hkill : s.1.killed x.1 with
  | true =>
    rw [Related, track, System.step_killed hkill, if_neg (by simp [hkill])]
    exact ⟨hk, hg⟩
  | false =>
    obtain ⟨hkernel, hkilled⟩ := s.1.step_alive hkill
    refine ⟨?_, fun hh => ?_⟩
    · rw [track, hkilled]
      split
      · rw [Function.update_of_ne hx.symm, hk]
      · exact hk
    · rw [track] at hh ⊢
      by_cases hch : changesGraph s.1.kernel x.2 = true
      · rw [if_pos ⟨by simp [hkill], hch⟩] at hh
        exact (hx (hh x.1 rfl)).elim
      · rw [if_neg (by simp [hch])] at hh
        rw [hkernel, changesGraph_false (Bool.eq_false_iff.2 hch)]
        exact hg hh

/-- The outcomes of the calls of a process do not depend on the calls of the others, as long as
these do not change the graph that it goes by. -/
theorem outcomes_isolated (pid : Nat) (w : List (Nat × ProcessCall))
    (h : EveryStep track (Undisturbed pid) (System.boot, none) w)
    (h' : EveryStep System.step System.Sound System.boot (w.filter fun x => x.1 = pid)) :
    outcomes pid w = outcomes pid (w.filter fun x => x.1 = pid) := by
  have htrack : outputs track (fun s => System.outcome pid s.1) (System.boot, none) w =
      outcomes pid w :=
    outputs_map Prod.fst (fun _ _ => rfl) (fun _ _ => rfl) (System.boot, none) w
  rw [← htrack]
  refine outputs_filter (R := Related pid) (fun x => decide (x.1 = pid)) ?_ ?_
    ⟨rfl, fun _ => .inl ⟨rfl, rfl⟩⟩ h h'
  · intro s s' hx hR hi hu hs
    obtain ⟨i, c⟩ := hx
    obtain rfl : i = pid := of_decide_eq_true hi
    exact hR.own hu hs
  · intro s s' x hR hi _
    exact hR.other (of_decide_eq_false hi)

/-- A graph of one call, and a graph of another one. -/
def firstPolicy : PolicyBuffer where
  toGraphBuffer := .ofSpecs [[⟨7, 1⟩], [⟨7, 1⟩]] (by decide)
  nonempty := by decide
  targets := by decide

def secondPolicy : PolicyBuffer where
  toGraphBuffer := .ofSpecs [[⟨8, 1⟩], [⟨8, 1⟩]] (by decide)
  nonempty := by decide
  targets := by decide

/-- The graph of the second process is in force when the first one makes its call. -/
theorem outcomes_interfere :
    ¬∀ (w : List (Nat × ProcessCall)) (pid : Nat),
      outcomes pid w = outcomes pid (w.filter fun x => x.1 = pid) := by
  intro h
  have hw := h [(0, .init firstPolicy true true), (1, .init secondPolicy true true),
    (0, .dummycall 7)] 0
  revert hw
  decide +kernel

/-- The second process only loads its graph when the first one has made its calls. -/
theorem outcomes_apart :
    let w : List (Nat × ProcessCall) :=
      [(0, .init firstPolicy true true), (0, .dummycall 7), (1, .init secondPolicy true true)]
    outcomes 0 w = outcomes 0 (w.filter fun x => x.1 = 0) := by
  refine outcomes_isolated 0 [(0, .init firstPolicy true true), (0, .dummycall 7),
    (1, .init secondPolicy true true)] ⟨⟨fun _ => ?_, ?_⟩, ⟨fun _ => trivial, ?_⟩,
      ⟨fun _ => ?_, ?_⟩, trivial⟩ ⟨fun _ => ?_, fun _ => trivial, trivial⟩
  · exact ⟨by decide +kernel, by decide +kernel⟩
  · intro _ hx
    obtain ⟨⟩ := hx
  · intro _ hx
    obtain ⟨⟩ := hx
    unfold Holds
    decide +kernel
  · exact ⟨by decide +kernel, by decide +kernel⟩
  · intro _ hx
    obtain ⟨⟩ := hx
  · exact ⟨by decide +kernel, by decide +kernel⟩

end LibcSandbox
