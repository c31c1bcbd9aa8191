import LibcSandbox.Library.Path
import LibcSandbox.MemGraph.Verify

namespace LibcSandbox
open Library
set_option autoImplicit true

theorem toNat_toUnsignedLong (z : Int) : (toUnsignedLong z).toNat = (z % 2 ^ 64).toNat := by
  have hlt : (z % 2 ^ 64).toNat < 2 ^ 64 := by
    have hz := Int.emod_lt_of_pos z (b := 2 ^ 64) (by decide)
    rw [Int.toNat_lt' (by decide)]
    exact hz
  rw [toUnsignedLong, UInt64.ofInt, UInt64.toNat_ofNat', Nat.mod_eq_of_lt hlt]

theorem toUnsignedLong_zero : toUnsignedLong 0 = 0 := rfl

theorem toInt_of_lt (h : v.toNat < 2 ^ 31) : toInt v = v.toNat := by
  refine Int.bmod_eq_of_le ?_ ?_ <;> omega

theorem toUnsignedLong_toInt (h : v.toNat < 2 ^ 31) : toUnsignedLong (toInt v) = v := by
  have hz : ((v.toNat : Int) % 2 ^ 64).toNat = v.toNat := by
    rw [Int.emod_eq_of_lt (by omega) (by omega), Int.toNat_natCast]
  apply UInt64.toNat_inj.1
  rw [toNat_toUnsignedLong, toInt_of_lt h, hz]

theorem toUnsignedLong_eq_zero_iff (h : -2 ^ 31 ≤ z ∧ z < 2 ^ 31) :
    toUnsignedLong z = 0 ↔ z = 0 := by
  rw [← UInt64.toNat_inj, toNat_toUnsignedLong, UInt64.toNat_zero]
  omega

theorem toInt_bounds (v : UInt64) : -2 ^ 31 ≤ toInt v ∧ toInt v < 2 ^ 31 :=
  ⟨Int.le_bmod (by decide), Int.bmod_lt (by decide)⟩

/-- The target of the first edge with this id. -/
def lookup (es : List Edge) (c : UInt64) : Option UInt64 :=
  (es.find? fun e => e.libcallid = c).map (·.nextProgstate)

/-- What `is_state_transition_valid` makes of the edges: the target of the first match, cut to an
`int`, or 0 without one. -/
def transitionCode (es : List Edge) (c : UInt64) : Int := (lookup es c).elim 0 toInt

@[simp] theorem transitionCode_nil (c : UInt64) : transitionCode [] c = 0 := by
  simp only [transitionCode, lookup, List.find?_nil, Option.map_none, Option.elim_none]

theorem lookup_cons (e : Edge) (es : List Edge) (c : UInt64) :
    lookup (e :: es) c = if e.libcallid = c then some e.nextProgstate else lookup es c := by
  by_cases hc : e.libcallid = c <;>
    simp only [lookup, List.find?_cons, hc, decide_true, decide_false, Option.map_some, ↓reduceIte]

theorem lookup_mem (h : lookup es c = some t) : (⟨c, t⟩ : Edge) ∈ es := by
  induction es with
  | nil => simp [lookup] at h
  | cons e es ih =>
    rw [lookup_cons] at h
    by_cases hc : e.libcallid = c
    · rw [if_pos hc, Option.some.injEq] at h
      subst hc h
      exact List.mem_cons_self
    · rw [if_neg hc] at h
      exact List.mem_cons_of_mem _ (ih h)

theorem transitionCode_cons (e : Edge) (es : List Edge) (c : UInt64) :
    transitionCode (e :: es) c =
      if e.libcallid = c then toInt e.nextProgstate else transitionCode es c := by
  rw [transitionCode, lookup_cons]
  split
  · rw [Option.elim_some]
  · rw [transitionCode]

theorem transitionCode_eq_zero (h : toUnsignedLong (transitionCode es c) = 0) :
    transitionCode es c = 0 := by
  rw [transitionCode] at h ⊢
  cases hl : lookup es c with
  | none => rw [Option.elim_none]
  | some v =>
    rw [hl, Option.elim_some] at h
    rw [Option.elim_some]
    exact (toUnsignedLong_eq_zero_iff (toInt_bounds v)).1 h

/-- The state that `transition_to_state` then moves to; a 0 means that it refuses. -/
def nextState (ns : List Node) (k : Nat) (c : UInt64) : Option Nat :=
  ns[k]?.bind fun n =>
    let temp := toUnsignedLong (transitionCode n.edges c)
    if temp = 0 then none else some temp.toNat

theorem findTransition_edgesAt (h : EdgesAt p (libcalls + i * sizeofRecord) es) :
    findTransition p libcalls c i es.length = .ok (transitionCode es c) := by
  induction es generalizing i with
  | nil => simp only [List.length_nil, findTransition, transitionCode_nil]
  | cons e es ih =>
    have ht : EdgesAt p (libcalls + (i + 1) * sizeofRecord) es := by
      rw [Nat.succ_mul, ← Nat.add_assoc]
      exact h.2
    rw [List.length_cons, findTransition, if_neg (not_not.2 h.1.1), h.1.2]
    by_cases hc : e.libcallid = c
    · rw [if_pos hc, transitionCode_cons, if_pos hc]
    · rw [if_neg hc, ih ht, transitionCode_cons, if_neg hc]

theorem NodeAt.inside_edges (h : NodeAt p off n) (hn : n.edges ≠ []) :
    Inside (off + sizeofRecord) := by
  have he := h.edges
  cases hes : n.edges with
  | nil => exact (hn hes).elim
  | cons e es =>
    rw [hes] at he
    exact he.1.1

/-- The check at a node, by what the node says and where it lies. Only a node without edges at the
very end of the pool makes the check read outside. -/
def checkAt (off : Nat) (n : Node) (c : UInt64) : Except Halt Int :=
  if Inside (off + sizeofRecord) then .ok (transitionCode n.edges c)
  else .error (.outOfPool (off + sizeofRecord))

theorem isStateTransitionValid_nodeAt {m : MemGraph} (hp : m.pool = some p)
    (hs : m.startNode = some off) (h : NodeAt p off n) :
    isStateTransitionValid m c = checkAt off n c := by
  simp only [isStateTransitionValid, hp, hs, h.inside, h.magic, not_true_eq_false, ne_eq,
    ↓reduceIte, checkAt]
  by_cases hi : Inside (off + sizeofRecord)
  · have hfind : findTransition p (off + sizeofRecord) c 0 (p.progstate off).numLibcalls.toNat =
        .ok (transitionCode n.edges c) := by
      rw [h.numLibcalls]
      exact findTransition_edgesAt (by simpa only [Nat.zero_mul, Nat.add_zero] using h.edges)
    simp only [hi, not_true_eq_false, ↓reduceIte, hfind]
    by_cases hm : (p.libcalls (off + sizeofRecord)).magic = edgeMagicNumber
    · rw [if_neg (not_not.2 hm)]
    · -- the next record is no edge, so the node has none
      have hn : n.edges = [] := by
        by_contra hne
        have he := h.edges
        cases hes : n.edges with
        | nil => exact hne hes
        | cons e es =>
          rw [hes] at he
          exact hm (by rw [he.1.2])
      rw [if_pos hm, hn]
      rfl
  · simp only [hi, not_false_eq_true, ↓reduceIte]

/-- The recogniser stands at node `k` of a loaded graph. -/
structure AtState (m : MemGraph) (p : Pool) (ns : List Node) (k : Nat) : Prop
    extends Loaded m p ns where
  lt : k < ns.length
  current : m.currentProgstate.toNat = k
  start : m.startNode = some (nodeOffset p.nodesTableOffset.toNat ns k)

theorem Loaded.nodeAt (h : Loaded m p ns) (hk : ns[k]? = some n) :
    NodeAt p (nodeOffset p.nodesTableOffset.toNat ns k) n :=
  LaidOut.get h.table hk

theorem Loaded.of_nodes {m m' : MemGraph} (h : Loaded m p ns) (hp : m'.pool = m.pool)
    (hn : m'.nodes = m.nodes) : Loaded m' p ns :=
  ⟨hp.trans h.pool, h.table, h.numNodes, by rw [hn]; exact h.listing⟩

theorem Loaded.resetProgstate (h : Loaded m p ns) (hn : 0 < ns.length) :
    ∃ m', resetProgstate m = (.ok (), m') ∧ AtState m' p ns 0 := by
  obtain ⟨L, hL, hs, he⟩ := h.listing
  refine ⟨{ m with currentProgstate := 0, startNode := L.entry 0 }, ?_, ?_⟩
  · simp only [LibcSandbox.resetProgstate, hL, Listing.read, if_pos (Nat.lt_of_lt_of_le hn hs)]
  · exact { h.of_nodes rfl rfl with lt := hn, current := rfl, start := he 0 hn }

theorem AtState.check (h : AtState m p ns k) (hk : ns[k]? = some n) :
    isStateTransitionValid m c = checkAt (nodeOffset p.nodesTableOffset.toNat ns k) n c :=
  isStateTransitionValid_nodeAt h.pool h.start (h.nodeAt hk)

theorem AtState.node (h : AtState m p ns k) : ∃ n, ns[k]? = some n :=
  ⟨ns.get ⟨k, h.lt⟩, List.getElem?_eq_getElem h.lt⟩

theorem AtState.not_le (h : AtState m p ns k) : ¬p.numNodes ≤ m.currentProgstate := by
  rw [UInt64.le_iff_toNat_le, h.numNodes, h.current]
  exact Nat.not_le.2 h.lt

theorem AtState.toInt_current (h : AtState m p ns k) (hlen : ns.length ≤ memoryPoolSize) :
    toInt m.currentProgstate = k := by
  have hlt := h.lt
  rw [memoryPoolSize] at hlen
  rw [toInt_of_lt (by rw [h.current]; omega), h.current]

/-- The check answers 0 where the table has no transition, unless it runs out of the pool. -/
theorem AtState.check_refused (h : AtState m p ns k) (hn : nextState ns k c = none) :
    isStateTransitionValid m c = .ok 0 ∨
      ∃ o, isStateTransitionValid m c = .error (.outOfPool o) := by
  obtain ⟨n, hk⟩ := h.node
  have hz : toUnsignedLong (transitionCode n.edges c) = 0 := by
    simpa [nextState, hk] using hn
  rw [h.check hk, checkAt, transitionCode_eq_zero hz]
  by_cases hi : Inside (nodeOffset p.nodesTableOffset.toNat ns k + sizeofRecord)
  · exact .inl (if_pos hi)
  · exact .inr ⟨_, if_neg hi⟩

theorem AtState.check_taken (h : AtState m p ns k) (hn : nextState ns k c = some v) :
    ∃ z, z ≠ 0 ∧ isStateTransitionValid m c = .ok z ∧ toUnsignedLong z ≠ 0 ∧
      (toUnsignedLong z).toNat = v := by
  obtain ⟨n, hk⟩ := h.node
  obtain ⟨hne, hv⟩ : toUnsignedLong (transitionCode n.edges c) ≠ 0 ∧
      (toUnsignedLong (transitionCode n.edges c)).toNat = v := by
    simpa [nextState, hk] using hn
  have hcode : transitionCode n.edges c ≠ 0 := fun hz => hne (by rw [hz, toUnsignedLong_zero])
  have hedges : n.edges ≠ [] := fun he => hcode (by rw [he, transitionCode_nil])
  refine ⟨_, hcode, ?_, hne, hv⟩
  rw [h.check hk, checkAt, if_pos ((h.nodeAt hk).inside_edges hedges)]

theorem AtState.transition_refused (h : AtState m p ns k) (hn : nextState ns k c = none) :
    transitionToState m c = (.ok errorInvalidState, m) ∨
      ∃ o, transitionToState m c = (.error (.outOfPool o), m) := by
  rcases h.check_refused hn with hc | ⟨o, hc⟩
  · left
    simp only [transitionToState, h.pool, if_neg h.not_le, hc, toUnsignedLong_zero, ne_eq,
      not_true_eq_false, ↓reduceIte]
  · right
    exact ⟨o, by simp only [transitionToState, h.pool, if_neg h.not_le, hc]⟩

theorem AtState.transition_taken (h : AtState m p ns k) (hn : nextState ns k c = some v) :
    (transitionToState m c).2.currentProgstate.toNat = v ∧
      (v < ns.length → ∃ m', transitionToState m c = (.ok (toInt m'.currentProgstate), m') ∧
        AtState m' p ns v) := by
  obtain ⟨z, -, hcheck, hne, hv⟩ := h.check_taken hn
  obtain ⟨L, hL, hs, he⟩ := h.listing
  by_cases hlt : v < L.slots
  · have hrun : transitionToState m c = (.ok (toInt (toUnsignedLong z)),
        { m with currentProgstate := toUnsignedLong z, startNode := L.entry v }) := by
      simp only [transitionToState, h.pool, if_neg h.not_le, hcheck, hne, ne_eq, not_false_eq_true,
        ↓reduceIte, hL, hv, Listing.read, if_pos hlt]
    rw [hrun]
    refine ⟨hv, fun hl => ⟨{ m with
      currentProgstate := toUnsignedLong z, startNode := L.entry v }, rfl, ?_⟩⟩
    exact { h.of_nodes rfl rfl with lt := hl, current := hv, start := he v hl }
  · refine ⟨?_, fun hl => (hlt (Nat.lt_of_lt_of_le hl hs)).elim⟩
    simp only [transitionToState, h.pool, if_neg h.not_le, hcheck, hne, ne_eq, not_false_eq_true,
      ↓reduceIte, hL, hv, Listing.read, if_neg hlt]

theorem transitionToState_state (m : MemGraph) (c : UInt64) :
    ∃ state node, (transitionToState m c).2 =
      { m with currentProgstate := state, startNode := node } := by
  rw [transitionToState]
  split
  · exact ⟨_, _, rfl⟩
  · split
    · exact ⟨_, _, rfl⟩
    · split
      · exact ⟨_, _, rfl⟩
      · dsimp only
        split
        · split
          · exact ⟨_, _, rfl⟩
          · split <;> exact ⟨_, _, rfl⟩
        · exact ⟨_, _, rfl⟩

/-- A sequence of calls of `transition_to_state`; refused ones do not end it. -/
def runTransitions : List UInt64 → MemGraph → Outcome MemGraph Unit
  | [], m => (.ok (), m)
  | c :: cs, m =>
    match transitionToState m c with
    | (.error h, m) => (.error h, m)
    | (.ok _, m) => runTransitions cs m

theorem runTransitions_singleton (m : MemGraph) (c : UInt64) :
    (runTransitions [c] m).2 = (transitionToState m c).2 := by
  rw [runTransitions]
  generalize transitionToState m c = x
  obtain ⟨r, m'⟩ := x
  cases r <;> rfl

/-- `reset_progstate` and then a sequence of calls of `transition_to_state`. -/
def exercise (cs : List UInt64) (m : MemGraph) : Outcome MemGraph Unit :=
  match resetProgstate m with
  | (.error h, m) => (.error h, m)
  | (.ok (), m) => runTransitions cs m

/-- Whatever the listing holds, the reset goes to state 0 and keeps the pool. -/
theorem exercise_nil (m : MemGraph) :
    (exercise [] m).2.pool = m.pool ∧ (exercise [] m).2.currentProgstate = 0 := by
  simp only [exercise, resetProgstate]
  cases m.nodes with
  | none => exact ⟨rfl, rfl⟩
  | some L => cases h : L.read 0 <;> simp only [h, runTransitions, and_self]

/-- The current state is one of the nodes, and `start_node` is its entry in the listing. -/
def InRange (m : MemGraph) : Prop :=
  ∃ p L, m.pool = some p ∧ m.nodes = some L ∧ m.currentProgstate < p.numNodes ∧
    m.startNode = L.entry m.currentProgstate.toNat

theorem AtState.inRange (h : AtState m p ns k) : InRange m := by
  obtain ⟨L, hL, -, he⟩ := h.listing
  refine ⟨p, L, h.pool, hL, ?_, ?_⟩
  · exact UInt64.not_le.1 h.not_le
  · rw [h.current, he k h.lt, h.start]

/-- There is a node, and no state that can be reached from node 0 has an edge, first with its id
in its node, that leads to a state which is not a node. -/
def TargetsInRange (ns : List Node) : Prop :=
  0 < ns.length ∧ ∀ k, Reaches (fun k c v => nextState ns k c = some v) 0 k →
    ∀ c v, nextState ns k c = some v → v < ns.length

theorem runTransitions_inRange (h : AtState m p ns k)
    (ht : ∀ j, Reaches (fun k c v => nextState ns k c = some v) k j →
      ∀ c v, nextState ns j c = some v → v < ns.length) (cs : List UInt64) :
    InRange (runTransitions cs m).2 := by
  induction cs generalizing m k with
  | nil => exact h.inRange
  | cons c cs ih =>
    cases hn : nextState ns k c with
    | none =>
      rcases h.transition_refused hn with hr | ⟨o, hr⟩
      · rw [runTransitions, hr]
        exact ih h ht
      · rw [runTransitions, hr]
        exact h.inRange
    | some v =>
      obtain ⟨m', hr, h'⟩ := (h.transition_taken hn).2 (ht k (.refl k) c v hn)
      rw [runTransitions, hr]
      refine ih h' fun j ⟨w, hw⟩ => ht j ⟨c :: w, .cons hn hw⟩

theorem runTransitions_path (h : AtState m p ns k) (hr : ∀ cs, InRange (runTransitions cs m).2)
    (hw : Path (fun k c v => nextState ns k c = some v) k w j) :
    ∃ m', runTransitions w m = (.ok (), m') ∧ AtState m' p ns j ∧
      ∀ cs, InRange (runTransitions cs m').2 := by
  induction hw generalizing m with
  | nil => exact ⟨m, rfl, h, hr⟩
  | @cons k c v w j hn hw ih =>
    have hv : v < ns.length := by
      obtain ⟨p', L, hp', -, hlt, -⟩ := hr [c]
      rw [runTransitions_singleton] at hp' hlt
      obtain ⟨state, node, hm⟩ := transitionToState_state m c
      rw [hm, h.pool, Option.some.injEq] at hp'
      rwa [UInt64.lt_iff_toNat_lt, (h.transition_taken hn).1, ← hp', h.numNodes] at hlt
    obtain ⟨m', hm', h'⟩ := (h.transition_taken hn).2 hv
    have hr' (cs : List UInt64) : InRange (runTransitions cs m').2 := by
      have hcs := hr (c :: cs)
      simpa only [runTransitions, hm'] using hcs
    obtain ⟨m'', hm'', h''⟩ := ih h' hr'
    exact ⟨m'', by simpa only [runTransitions, hm'] using hm'', h''⟩

/-- For an accepted pool the recogniser stays in range for ever if and only if there is a node and
no edge that can be taken leads out of the table. -/
theorem inRange_iff (m m' : MemGraph) (p : Pool) (h : verifyGraph m = (.ok 1, m'))
    (hp : m.pool = some p) :
    (∀ cs, InRange (exercise cs m').2) ↔ TargetsInRange p.table := by
  obtain ⟨p', hp', -, hl⟩ := loaded_of_verifyGraph h
  cases hp.symm.trans hp'
  apply Iff.intro
  · intro hr
    have hpos : 0 < p.table.length := by
      obtain ⟨q, L, hq, -, hlt, -⟩ := hr []
      rw [(exercise_nil m').1, hl.pool, Option.some.injEq] at hq
      rwa [(exercise_nil m').2, ← hq, UInt64.lt_iff_toNat_lt, hl.numNodes] at hlt
    obtain ⟨m₀, hm₀, h₀⟩ := hl.resetProgstate hpos
    have hr₀ (cs : List UInt64) : InRange (runTransitions cs m₀).2 := by
      have hcs := hr cs
      simpa only [exercise, hm₀] using hcs
    refine ⟨hpos, fun k ⟨w, hw⟩ c v hv => ?_⟩
    obtain ⟨m₁, -, h₁, hr₁⟩ := runTransitions_path h₀ hr₀ (hw.snoc hv)
    exact h₁.lt
  · intro hx cs
    obtain ⟨hpos, ht⟩ := hx
    obtain ⟨m₀, hm₀, h₀⟩ := hl.resetProgstate hpos
    simp only [exercise, hm₀]
    exact runTransitions_inRange h₀ ht cs

/-- A graph of one node, whose only edge leads to the given state. -/
def edgePool (target : UInt64) : Pool :=
  let p := (emptyPool.setGraphFinalized 1).setNumNodes 1
  let p := p.putProgstate nodeTableOffset ⟨nodeMagicNumber, 0, 1⟩
  p.putLibcalls (nodeTableOffset + sizeofRecord) ⟨edgeMagicNumber, 7, target⟩

def edgeGraph (target : UInt64) : MemGraph :=
  { MemGraph.initial with pool := some (edgePool target) }

theorem verifyGraph_edgeGraph_five : (verifyGraph (edgeGraph 5)).1 = .ok 1 := by
  decide +kernel

theorem edgeGraph_leaves_range :
    ¬∀ m m', verifyGraph m = (.ok 1, m') → ∀ cs, InRange (exercise cs m').2 := by
  intro h
  obtain ⟨p, L, hp, -, hlt, -⟩ :=
    h (edgeGraph 5) (verifyGraph (edgeGraph 5)).2 (Prod.ext verifyGraph_edgeGraph_five rfl) [7]
  have hc : (exercise [7] (verifyGraph (edgeGraph 5)).2).2.currentProgstate = 5 := by
    decide +kernel
  have hn : (exercise [7] (verifyGraph (edgeGraph 5)).2).2.pool.map Pool.numNodes = some 1 := by
    decide +kernel
  rw [hp, Option.map_some, Option.some.injEq] at hn
  rw [hc, hn] at hlt
  exact absurd hlt (by decide)

/-- An edge back to the only node is never taken, since 0 stands for a refusal. -/
theorem edgeGraph_inRange : InRange (exercise [7, 7] (verifyGraph (edgeGraph 0)).2).2 := by
  have htable : (edgePool 0).table = [⟨0, [⟨7, 0⟩]⟩] := by decide +kernel
  have hnone (k : Nat) (c : UInt64) : nextState [⟨0, [⟨7, 0⟩]⟩] k c = none := by
    cases k with
    | zero =>
      have hcode : transitionCode [⟨7, 0⟩] c = 0 := by
        have hz : toInt 0 = 0 := by decide
        by_cases hc : 7 = c <;> simp [transitionCode, lookup, hc, hz]
      simp only [nextState, List.getElem?_cons_zero, Option.bind_some, hcode]
      rfl
    | succ k => rfl
  have htargets : TargetsInRange (edgePool 0).table := by
    rw [htable]
    refine ⟨by decide, fun k _ c v hv => ?_⟩
    rw [hnone] at hv
    cases hv
  exact (inRange_iff (edgeGraph 0) (verifyGraph (edgeGraph 0)).2 (edgePool 0)
    (Prod.ext (by decide +kernel) rfl) rfl).2 htargets [7, 7]

end LibcSandbox
