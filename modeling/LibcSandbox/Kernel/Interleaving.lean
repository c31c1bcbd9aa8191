import LibcSandbox.Kernel.Isolation
import LibcSandbox.Library.Interleaving

namespace LibcSandbox
open Library
set_option autoImplicit true

variable {ι : Type*} [DecidableEq ι] {m : MemGraph} {p : Pool} {ns : List Node} {c : UInt64}

/-- How far a process has come in `sandbox_dummycall`. From one constructor to the next it reads or
writes `start_node` or `current_progstate` once; nobody writes to the pool or the listing. -/
inductive Progress where
  | called
  | checks (node : Option Nat)
  | valid
  | inRange
  | checksAgain (node : Option Nat)
  | moves (temp : UInt64)
  | moved
  | indexed (node : Option Nat)
  | written
  | returned (value : Int)
  | halted (h : Halt)
  deriving DecidableEq

/-- The check with the values of its two reads of `start_node`. -/
def checkBetween (m : MemGraph) (node libcalls : Option Nat) (libccall : UInt64) :
    Except Halt Int :=
  match m.pool, node, libcalls with
  | some p, some node, some start =>
    if ¬Inside node then .error (.outOfPool node)
    else
      let libcalls := start + sizeofRecord
      if (p.progstate node).magic ≠ nodeMagicNumber then .ok 0
      else if ¬Inside libcalls then .error (.outOfPool libcalls)
      else if (p.libcalls libcalls).magic ≠ edgeMagicNumber then .ok 0
      else findTransition p libcalls libccall 0 (p.progstate node).numLibcalls.toNat
  | _, _, _ => .error .nullPointer

/-- The next access of a process, with what it does up to the one after. -/
def accessShared (number : UInt64) (m : MemGraph) : Progress → MemGraph × Progress
  | .called => (m, .checks m.startNode)
  | .checks node =>
    match checkBetween m node m.startNode number with
    | .error h => (m, .halted h)
    | .ok valid => (m, if valid ≠ 0 then .valid else .halted .sigkill)
  | .valid =>
    match m.pool with
    | none => (m, .halted .nullPointer)
    | some p =>
      (m, if p.numNodes ≤ m.currentProgstate then .returned errorInvalidState else .inRange)
  | .inRange => (m, .checksAgain m.startNode)
  | .checksAgain node =>
    match checkBetween m node m.startNode number with
    | .error h => (m, .halted h)
    | .ok next =>
      let temp := toUnsignedLong next
      (m, if temp ≠ 0 then .moves temp else .returned errorInvalidState)
  | .moves temp => ({ m with currentProgstate := temp }, .moved)
  | .moved =>
    match m.nodes with
    | none => (m, .halted .nullPointer)
    | some nodes =>
      match nodes.read m.currentProgstate.toNat with
      | .error h => (m, .halted h)
      | .ok node => (m, .indexed node)
  | .indexed node => ({ m with startNode := node }, .written)
  | .written => (m, .returned (toInt m.currentProgstate))
  | .returned value => (m, .returned value)
  | .halted h => (m, .halted h)

/-- A process in a call with a number. -/
structure Caller where
  number : UInt64
  progress : Progress

def Caller.step (m : MemGraph) (t : Caller) : MemGraph × Caller :=
  ((accessShared t.number m t.progress).1, ⟨t.number, (accessShared t.number m t.progress).2⟩)

def Progress.of : Except Halt Int → Progress
  | .ok value => .returned value
  | .error h => .halted h

theorem checkBetween_same (m : MemGraph) (number : UInt64) :
    checkBetween m m.startNode m.startNode number = isStateTransitionValid m number := by
  cases hp : m.pool with
  | none => simp only [checkBetween, isStateTransitionValid, hp]
  | some p =>
    cases hs : m.startNode with
    | none => simp only [checkBetween, isStateTransitionValid, hp, hs]
    | some start => simp only [checkBetween, isStateTransitionValid, hp, hs]

theorem accessShared_halted (number : UInt64) (m : MemGraph) (h : Halt) (n : Nat) :
    (Function.uncurry (accessShared number))^[n] (m, .halted h) = (m, .halted h) :=
  Function.iterate_fixed rfl n

theorem accessShared_returned (number : UInt64) (m : MemGraph) (value : Int) (n : Nat) :
    (Function.uncurry (accessShared number))^[n] (m, .returned value) = (m, .returned value) :=
  Function.iterate_fixed rfl n

/-- The accesses of `transition_to_state`, without others between them. -/
theorem accessShared_transition (number : UInt64) (m : MemGraph) :
    (Function.uncurry (accessShared number))^[7] (m, .valid) =
      ((transitionToState m number).2, .of (transitionToState m number).1) := by
  rw [Function.iterate_succ_apply, transitionToState, Function.uncurry_apply_pair]
  obtain ⟨pool, poolEdge, nodes, numNodesListings, currentProgstate, startNode⟩ := m
  cases pool with
  | none =>
    simp only [accessShared, Progress.of]
    exact accessShared_halted ..
  | some p =>
    by_cases hle : p.numNodes ≤ currentProgstate
    · simp only [accessShared, if_pos hle, Progress.of]
      exact accessShared_returned ..
    · simp only [accessShared, if_neg hle]
      rw [Function.iterate_succ_apply, Function.iterate_succ_apply]
      simp only [Function.uncurry_apply_pair, accessShared]
      rw [checkBetween_same ⟨some p, poolEdge, nodes, numNodesListings, currentProgstate, startNode⟩]
      generalize isStateTransitionValid _ number = valid
      cases valid with
      | error h =>
        simp only [Progress.of]
        exact accessShared_halted ..
      | ok next =>
        by_cases hz : toUnsignedLong next = 0
        · simp only [hz, ne_eq, not_true_eq_false, ↓reduceIte, Progress.of]
          exact accessShared_returned ..
        · simp only [hz, ne_eq, not_false_eq_true, ↓reduceIte]
          rw [Function.iterate_succ_apply, Function.iterate_succ_apply]
          simp only [Function.uncurry_apply_pair, accessShared]
          cases nodes with
          | none =>
            simp only [Progress.of]
            exact accessShared_halted ..
          | some nodes =>
            cases hread : nodes.read (toUnsignedLong next).toNat with
            | error h =>
              simp only [hread, Progress.of]
              exact accessShared_halted ..
            | ok node =>
              simp only [hread, Progress.of]
              rfl

/-- A call that no other comes between is one of the sequential model. -/
theorem accessShared_alone (number : UInt64) (k : Kernel) :
    (Function.uncurry (accessShared number))^[9] (k.graph, .called) =
      ((sandboxDummycall number k).2.graph, .of (sandboxDummycall number k).1) := by
  rw [Function.iterate_succ_apply, Function.iterate_succ_apply]
  simp only [Function.uncurry_apply_pair, accessShared, checkBetween_same, sandboxDummycall]
  cases hv : isStateTransitionValid k.graph number with
  | error h =>
    simp only [Progress.of]
    exact accessShared_halted ..
  | ok valid =>
    by_cases hz : valid = 0
    · simp only [hz, ne_eq, not_true_eq_false, ↓reduceIte, Progress.of]
      exact accessShared_halted ..
    · simp only [hz, ne_eq, not_false_eq_true, ↓reduceIte]
      exact accessShared_transition ..

theorem Caller.step_iterate (m : MemGraph) (number : UInt64) (progress : Progress) (n : Nat) :
    (Function.uncurry Caller.step)^[n] (m, ⟨number, progress⟩) =
      (((Function.uncurry (accessShared number))^[n] (m, progress)).1,
        ⟨number, ((Function.uncurry (accessShared number))^[n] (m, progress)).2⟩) := by
  induction n generalizing m progress with
  | zero => rfl
  | succ n ih =>
    rw [Function.iterate_succ_apply, Function.iterate_succ_apply, Function.uncurry_apply_pair,
      Function.uncurry_apply_pair, Caller.step, ih]

/-- The node of a state. -/
def entryOf (p : Pool) (ns : List Node) (state : UInt64) : Option Nat :=
  some (nodeOffset p.nodesTableOffset.toNat ns state.toNat)

/-- A table whose edges lead to nodes, with room for a record behind it. -/
structure Contained (p : Pool) (ns : List Node) : Prop where
  targets : ∀ n ∈ ns, ∀ e ∈ n.edges, e.nextProgstate.toNat < ns.length
  room : p.nodesTableOffset.toNat + extent Node.size ns + sizeofRecord ≤ memoryPoolSize

def IsEntry (p : Pool) (ns : List Node) (node : Option Nat) : Prop :=
  ∃ j < ns.length, node = some (nodeOffset p.nodesTableOffset.toNat ns j)

/-- The two variables hold nodes of the table, if perhaps not the same. -/
structure Guarded (p : Pool) (ns : List Node) (m : MemGraph) : Prop extends Loaded m p ns where
  current : m.currentProgstate.toNat < ns.length
  start : IsEntry p ns m.startNode

/-- A call has only read nodes of the table, and ends with one, with a refusal or killed. -/
def Progress.Guarded (p : Pool) (ns : List Node) : Progress → Prop
  | .checks node => IsEntry p ns node
  | .checksAgain node => IsEntry p ns node
  | .indexed node => IsEntry p ns node
  | .moves temp => temp.toNat < ns.length
  | .returned value => value = errorInvalidState ∨ ∃ j < ns.length, value = j
  | .halted h => h = .sigkill
  | _ => True

theorem Contained.length_le (h : Contained p ns) : ns.length ≤ memoryPoolSize := by
  have hle := length_le_extent ns
  have hroom := h.room
  omega

theorem Contained.inside (h : Contained p ns) (hj : j < ns.length) :
    Inside (nodeOffset p.nodesTableOffset.toNat ns j + sizeofRecord) := by
  have hsplit : extent Node.size (ns.take j ++ ns.drop j) =
      extent Node.size (ns.take j) + extent Node.size (ns.drop j) := extent_append ..
  rw [List.take_append_drop, List.drop_eq_getElem_cons hj, extent_cons, Node.size] at hsplit
  have hroom := h.room
  rw [Inside, nodeOffset]
  omega

theorem Guarded.check (h : Guarded p ns m) (hc : Contained p ns) (number : UInt64) :
    ∃ z, checkBetween m m.startNode m.startNode number = .ok z ∧
      (toUnsignedLong z ≠ 0 → (toUnsignedLong z).toNat < ns.length) := by
  obtain ⟨j, hj, hstart⟩ := h.start
  have hn : ns[j]? = some ns[j] := List.getElem?_eq_getElem hj
  refine ⟨transitionCode ns[j].edges number, ?_, fun hz => ?_⟩
  · rw [checkBetween_same, isStateTransitionValid_nodeAt h.pool hstart (h.nodeAt hn), checkAt,
      if_pos (hc.inside hj)]
  · apply nextState_lt hc.targets hc.length_le (k := j) (c := number)
    simp only [nextState, hn, Option.bind_some, if_neg hz]

/-- Nobody has moved the recogniser between the two reads of a check. -/
def Progress.Untorn (m : MemGraph) : Progress → Prop
  | .checks node => m.startNode = node
  | .checksAgain node => m.startNode = node
  | _ => True

instance (m : MemGraph) : (progress : Progress) → Decidable (progress.Untorn m)
  | .checks node => inferInstanceAs (Decidable (m.startNode = node))
  | .checksAgain node => inferInstanceAs (Decidable (m.startNode = node))
  | .called | .valid | .inRange | .moves _ | .moved | .indexed _ | .written | .returned _
  | .halted _ => isTrue trivial

/-- What is written to `start_node` is the node of the current state. -/
def Progress.Fresh (entry : UInt64 → Option Nat) (m : MemGraph) : Progress → Prop
  | .indexed node => node = entry m.currentProgstate
  | _ => True

instance (entry : UInt64 → Option Nat) (m : MemGraph) :
    (progress : Progress) → Decidable (progress.Fresh entry m)
  | .indexed node => inferInstanceAs (Decidable (node = entry m.currentProgstate))
  | .called | .checks _ | .valid | .inRange | .checksAgain _ | .moves _ | .moved | .written
  | .returned _ | .halted _ => isTrue trivial

theorem Guarded.of_graph {m' : MemGraph} (h : Guarded p ns m) (hpool : m'.pool = m.pool)
    (hnodes : m'.nodes = m.nodes) (hcurrent : m'.currentProgstate.toNat < ns.length)
    (hstart : IsEntry p ns m'.startNode) : Guarded p ns m' :=
  { h.of_nodes hpool hnodes with current := hcurrent, start := hstart }

theorem Guarded.access (h : Guarded p ns m) (hc : Contained p ns) {progress : Progress}
    (hp : progress.Guarded p ns) (hu : progress.Untorn m) (number : UInt64) :
    Guarded p ns (accessShared number m progress).1 ∧
      (accessShared number m progress).2.Guarded p ns := by
  cases progress with
  | called => exact ⟨h, h.start⟩
  | inRange => exact ⟨h, h.start⟩
  | checks node =>
    cases hu
    obtain ⟨z, hz, -⟩ := h.check hc number
    simp only [accessShared, hz]
    refine ⟨h, ?_⟩
    split
    · trivial
    · rfl
  | valid =>
    simp only [accessShared, h.pool]
    refine ⟨h, ?_⟩
    split
    · exact .inl rfl
    · trivial
  | checksAgain node =>
    cases hu
    obtain ⟨z, hz, hlt⟩ := h.check hc number
    simp only [accessShared, hz]
    refine ⟨h, ?_⟩
    split
    next hne => exact hlt hne
    next => exact .inl rfl
  | moves temp => exact ⟨h.of_graph rfl rfl hp h.start, trivial⟩
  | moved =>
    obtain ⟨L, hL, hslots, hentry⟩ := h.listing
    have hread : L.read m.currentProgstate.toNat =
        .ok (some (nodeOffset p.nodesTableOffset.toNat ns m.currentProgstate.toNat)) := by
      rw [Listing.read, if_pos (Nat.lt_of_lt_of_le h.current hslots), hentry _ h.current]
    simp only [accessShared, hL, hread]
    exact ⟨h, _, h.current, rfl⟩
  | indexed node => exact ⟨h.of_graph rfl rfl h.current hp, trivial⟩
  | written =>
    refine ⟨h, .inr ⟨_, h.current, toInt_of_lt ?_⟩⟩
    have hlen := hc.length_le
    have hlt := h.current
    rw [memoryPoolSize] at hlen
    omega
  | returned value => exact ⟨h, hp⟩
  | halted e => exact ⟨h, hp⟩

/-- The calls in flight and the variables they share. -/
abbrev Calls (ι : Type*) := Threads ι MemGraph Caller

/-- One of the calls makes its next access. -/
def Calls.turn (s : Calls ι) (i : ι) : Calls ι := Threads.turn Caller.step s i

def Calls.Guarded (p : Pool) (ns : List Node) (s : Calls ι) : Prop :=
  Threads.All (LibcSandbox.Guarded p ns) (fun t => t.progress.Guarded p ns) s

def Calls.Untorn (s : Calls ι) (i : ι) : Prop := (s.thread i).progress.Untorn s.shared

instance (s : Calls ι) (i : ι) : Decidable (s.Untorn i) :=
  inferInstanceAs (Decidable ((s.thread i).progress.Untorn s.shared))

theorem Calls.Guarded.turn {s : Calls ι} (h : s.Guarded p ns) (hc : Contained p ns)
    (hu : s.Untorn i) : (s.turn i).Guarded p ns :=
  Threads.All.turn h (h.shared.access hc (h.thread i) hu (s.thread i).number)

/-- `start_node` is the node of the current state, or a call is about to make it so. -/
def Calls.Settling (p : Pool) (ns : List Node) (s : Calls ι) : Prop :=
  s.shared.startNode = entryOf p ns s.shared.currentProgstate ∨
    ∃ i, (s.thread i).progress = .moved ∨
      (s.thread i).progress = .indexed (entryOf p ns s.shared.currentProgstate)

def Calls.Fresh (entry : UInt64 → Option Nat) (s : Calls ι) (i : ι) : Prop :=
  (s.thread i).progress.Fresh entry s.shared

instance (entry : UInt64 → Option Nat) (s : Calls ι) (i : ι) : Decidable (s.Fresh entry i) :=
  inferInstanceAs (Decidable ((s.thread i).progress.Fresh entry s.shared))

/-- Only three accesses are of another kind than a read that is compared. -/
theorem accessShared_cases (number : UInt64) (m : MemGraph) (progress : Progress) :
    (∃ temp, progress = .moves temp) ∨ progress = .moved ∨ (∃ node, progress = .indexed node) ∨
      (accessShared number m progress).1 = m ∧ progress ≠ .moved ∧
        ∀ node, progress ≠ .indexed node := by
  cases progress with
  | moves temp => exact .inl ⟨temp, rfl⟩
  | moved => exact .inr (.inl rfl)
  | indexed node => exact .inr (.inr (.inl ⟨node, rfl⟩))
  | called => exact .inr (.inr (.inr ⟨rfl, nofun, nofun⟩))
  | inRange => exact .inr (.inr (.inr ⟨rfl, nofun, nofun⟩))
  | written => exact .inr (.inr (.inr ⟨rfl, nofun, nofun⟩))
  | returned value => exact .inr (.inr (.inr ⟨rfl, nofun, nofun⟩))
  | halted h => exact .inr (.inr (.inr ⟨rfl, nofun, nofun⟩))
  | checks node =>
    refine .inr (.inr (.inr ⟨?_, nofun, nofun⟩))
    simp only [accessShared]
    split <;> rfl
  | checksAgain node =>
    refine .inr (.inr (.inr ⟨?_, nofun, nofun⟩))
    simp only [accessShared]
    split <;> rfl
  | valid =>
    refine .inr (.inr (.inr ⟨?_, nofun, nofun⟩))
    simp only [accessShared]
    split <;> rfl

theorem Calls.Settling.turn {s : Calls ι} (h : s.Settling p ns) (hg : s.Guarded p ns)
    (hf : s.Fresh (entryOf p ns) i) : (s.turn i).Settling p ns := by
  have hself : (s.turn i).thread i = (Caller.step s.shared (s.thread i)).2 := Threads.turn_self s i
  have hshared : (s.turn i).shared =
      (accessShared (s.thread i).number s.shared (s.thread i).progress).1 := rfl
  rcases accessShared_cases (s.thread i).number s.shared (s.thread i).progress with
    ⟨temp, hi⟩ | hi | ⟨node, hi⟩ | ⟨hsame, hmoved, hindexed⟩
  · refine .inr ⟨i, .inl ?_⟩
    rw [hself, Caller.step, hi]
    rfl
  · refine .inr ⟨i, .inr ?_⟩
    obtain ⟨L, hL, hslots, hentry⟩ := hg.shared.listing
    have hread : L.read s.shared.currentProgstate.toNat =
        .ok (entryOf p ns s.shared.currentProgstate) := by
      rw [Listing.read, if_pos (Nat.lt_of_lt_of_le hg.shared.current hslots),
        hentry _ hg.shared.current, entryOf]
    rw [hself, hshared, Caller.step, hi]
    simp only [accessShared, hL, hread]
  · left
    rw [Fresh, hi] at hf
    rw [hshared, hi]
    exact hf
  · rw [Settling, hshared, hsame]
    rcases h with heq | ⟨j, hj⟩
    · exact .inl heq
    · have hne : j ≠ i := by
        rintro rfl
        rcases hj with hj | hj
        · exact hmoved hj
        · exact hindexed _ hj
      have hother : (s.turn i).thread j = s.thread j := Threads.turn_of_ne s hne
      refine .inr ⟨j, ?_⟩
      rw [hother]
      exact hj

def Progress.Ended : Progress → Prop
  | .returned _ => True
  | .halted _ => True
  | _ => False

omit [DecidableEq ι] in
theorem Calls.Settling.atState {s : Calls ι} (h : s.Settling p ns) (hg : s.Guarded p ns)
    (hended : ∀ i, (s.thread i).progress.Ended) : ∃ v, AtState s.shared p ns v := by
  refine ⟨_, { hg.shared.toLoaded with lt := hg.shared.current, current := rfl, start := ?_ }⟩
  rcases h with heq | ⟨i, hi | hi⟩
  · exact heq
  · have hi' := hended i
    rw [hi] at hi'
    cases hi'
  · have hi' := hended i
    rw [hi] at hi'
    cases hi'

def afterCall (k : Kernel) (number : UInt64) : Kernel := (sandboxDummycall number k).2

theorem Calls.turn_nine (s : Calls ι) (k : Kernel) (hk : k.graph = s.shared) {i : ι}
    (hi : (s.thread i).progress = .called) :
    (List.replicate 9 i).foldl Calls.turn s = ⟨(afterCall k (s.thread i).number).graph,
      Function.update s.thread i ⟨(s.thread i).number,
        .of (sandboxDummycall (s.thread i).number k).1⟩⟩ := by
  have hthread : s.thread i = ⟨(s.thread i).number, .called⟩ := by rw [← hi]
  have hturns : (List.replicate 9 i).foldl Calls.turn s =
      ⟨((Function.uncurry Caller.step)^[9] (s.shared, s.thread i)).1,
        Function.update s.thread i ((Function.uncurry Caller.step)^[9] (s.shared, s.thread i)).2⟩ :=
    Threads.foldl_replicate s i 9
  rw [hthread, Caller.step_iterate, ← hk, accessShared_alone] at hturns
  exact hturns

/-- Calls that are made one after another, in whatever order, are those of the sequential model. -/
theorem calls_serial {s : Calls ι} {k : Kernel} (hk : k.graph = s.shared) {order : List ι}
    (hd : order.Nodup) (hcalled : ∀ i ∈ order, (s.thread i).progress = .called) :
    ((order.flatMap (List.replicate 9)).foldl Calls.turn s).shared =
        ((order.map fun i => (s.thread i).number).foldl afterCall k).graph ∧
      order.map (fun i => (((order.flatMap (List.replicate 9)).foldl Calls.turn s).thread i).progress) =
        outputs afterCall (fun k number => [.of (sandboxDummycall number k).1]) k
          (order.map fun i => (s.thread i).number) := by
  induction order generalizing s k with
  | nil => exact ⟨hk.symm, rfl⟩
  | cons i order ih =>
    rw [List.nodup_cons] at hd
    rw [List.forall_mem_cons] at hcalled
    rw [List.flatMap_cons, List.foldl_append, s.turn_nine k hk hcalled.1]
    generalize hs₁ : (⟨(afterCall k (s.thread i).number).graph, Function.update s.thread i
      ⟨(s.thread i).number, .of (sandboxDummycall (s.thread i).number k).1⟩⟩ : Calls ι) = s₁
    have hother (j : ι) (hj : j ∈ order) : s₁.thread j = s.thread j := by
      have hne : j ≠ i := by
        rintro rfl
        exact hd.1 hj
      rw [← hs₁]
      exact Function.update_of_ne hne ..
    have hnumbers : (order.map fun j => (s₁.thread j).number) =
        order.map fun j => (s.thread j).number :=
      List.map_congr_left fun j hj => by rw [hother j hj]
    obtain ⟨hshared, hresults⟩ := ih (s := s₁) (k := afterCall k (s.thread i).number)
      (by rw [← hs₁]) hd.2 fun j hj => by rw [hother j hj, hcalled.2 j hj]
    rw [hnumbers] at hshared hresults
    refine ⟨hshared, ?_⟩
    have hlast : (((order.flatMap (List.replicate 9)).foldl Calls.turn s₁).thread i).progress =
        .of (sandboxDummycall (s.thread i).number k).1 := by
      have hself : s₁.thread i =
          ⟨(s.thread i).number, .of (sandboxDummycall (s.thread i).number k).1⟩ := by
        rw [← hs₁]
        exact Function.update_self ..
      have hkept : ((order.flatMap (List.replicate 9)).foldl Calls.turn s₁).thread i =
          s₁.thread i := by
        apply Threads.foldl_of_not_mem
        intro hmem
        obtain ⟨j, hj, hmem⟩ := List.mem_flatMap.1 hmem
        exact hd.1 (List.eq_of_mem_replicate hmem ▸ hj)
      exact (congrArg Caller.progress hkept).trans (congrArg Caller.progress hself)
    rw [List.map_cons, List.map_cons, hlast, hresults]
    rfl

theorem twoCalls_serial :
    let s : Calls Bool := ⟨(sandboxInit (firstPolicy.call true true) .boot).2.graph,
      fun _ => ⟨7, .called⟩⟩
    [true, false].map (fun i =>
      ((([true, false].flatMap (List.replicate 9)).foldl Calls.turn s).thread i).progress) =
        [.returned 1, .returned 1] := by
  intro s
  have hd : [true, false].Nodup := by simp
  rw [(calls_serial (s := s) (k := (sandboxInit (firstPolicy.call true true) .boot).2) rfl hd
    fun i _ => rfl).2]
  decide +kernel

/-- Any number of calls, in every order of their accesses where no check reads `start_node` twice
with a move between, only touch nodes of the table and end with one, with a refusal or killed. If
besides none writes the node of a state that is no longer current, the recogniser stands at a node
whenever no call is in flight. -/
theorem calls_guarded {s : Calls ι} {j : Nat} (h : AtState s.shared p ns j)
    (hc : Contained p ns) (hcalled : ∀ i, (s.thread i).progress = .called) {w : List ι}
    (hu : EveryStep Calls.turn Calls.Untorn s w) :
    EveryState Calls.turn (Calls.Guarded p ns) s w ∧
      (EveryStep Calls.turn (Calls.Fresh (entryOf p ns)) s w →
        EveryState Calls.turn (fun s => (∀ i, (s.thread i).progress.Ended) →
          ∃ v, AtState s.shared p ns v) s w) := by
  have hg : s.Guarded p ns := by
    refine ⟨{ h.toLoaded with current := h.current ▸ h.lt, start := ⟨j, h.lt, h.start⟩ }, fun i => ?_⟩
    rw [hcalled i]
    trivial
  have hs : s.Settling p ns := .inl (by rw [h.start, entryOf, h.current])
  constructor
  · exact (hu.invariant (Q := fun _ _ => True) hg fun s i hg hu => ⟨hg.turn hc hu, trivial⟩).1
  · intro hf
    have hboth := (hu.and hf).invariant (Q := fun _ _ => True)
      (I := fun s => s.Guarded p ns ∧ s.Settling p ns) ⟨hg, hs⟩ fun s i hI hP =>
        ⟨⟨hI.1.turn hc hP.1, hI.2.turn hI.1 hP.2⟩, trivial⟩
    exact hboth.1.mono fun s hI hended => hI.2.atState hI.1 hended

/-- Two calls that both make their check before either moves the recogniser. -/
def bothChecking : List Bool :=
  [true, false, true, false] ++ List.replicate 7 true ++ List.replicate 7 false

theorem bothChecking_guarded :
    let s : Calls Bool := ⟨(sandboxInit (firstPolicy.call true true) .boot).2.graph,
      fun _ => ⟨7, .called⟩⟩
    ∃ p, EveryState Calls.turn (Calls.Guarded p firstPolicy.nodes) s bothChecking ∧
      ∃ v, AtState (bothChecking.foldl Calls.turn s).shared p firstPolicy.nodes v := by
  intro s
  obtain ⟨p, hat, hp⟩ := (firstPolicy.sandboxInit true true owned_boot (Nat.le_refl _)).2 rfl rfl
  have hc : Contained p firstPolicy.nodes := ⟨firstPolicy.targets, by rw [hp]; decide⟩
  have hu : EveryStep Calls.turn Calls.Untorn s bothChecking := by decide +kernel
  have hentry : entryOf p firstPolicy.nodes =
      fun state => some (nodeOffset nodeTableOffset firstPolicy.nodes state.toNat) := by
    funext state
    rw [entryOf, hp]
  have hf : EveryStep Calls.turn (Calls.Fresh (entryOf p firstPolicy.nodes)) s bothChecking := by
    rw [hentry]
    decide +kernel
  obtain ⟨hguarded, hsettled⟩ := calls_guarded (s := s) hat hc (fun _ => rfl) hu
  have hreturned : ∀ i, ((bothChecking.foldl Calls.turn s).thread i).progress = .returned 1 := by
    decide +kernel
  refine ⟨p, hguarded, (hsettled hf).last fun i => ?_⟩
  rw [hreturned i]
  trivial

end LibcSandbox
