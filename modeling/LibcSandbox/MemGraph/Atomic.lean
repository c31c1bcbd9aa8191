import LibcSandbox.MemGraph.Build
import LibcSandbox.MemGraph.Recogniser

namespace LibcSandbox
open Library
set_option autoImplicit true

variable {m m' : MemGraph} {p : Pool} {ns : List Node}

/-- The calls of the recogniser. -/
inductive Query where
  | resetProgstate
  | isStateTransitionValid (libccall : UInt64)
  | transitionToState (libccall : UInt64)

/-- The state after a call. The check has none to change. -/
def Query.step (m : MemGraph) : Query → MemGraph
  | .resetProgstate => (LibcSandbox.resetProgstate m).2
  | .isStateTransitionValid _ => m
  | .transitionToState libccall => (LibcSandbox.transitionToState m libccall).2

/-- The check allows the call. -/
def Allows (m : MemGraph) (c : UInt64) : Prop := ∃ z, isStateTransitionValid m c = .ok z ∧ z ≠ 0

/-- The step succeeds. -/
def Succeeds (m : MemGraph) (c : UInt64) : Prop := ∃ z, (transitionToState m c).1 = .ok z ∧ 0 ≤ z

/-- Those calls of a sequence that succeed. -/
def acceptedCalls (m : MemGraph) : List UInt64 → List UInt64
  | [] => []
  | c :: cs =>
    match transitionToState m c with
    | (.ok state, m) => if 0 ≤ state then c :: acceptedCalls m cs else acceptedCalls m cs
    | (.error _, m) => acceptedCalls m cs

/-- All edges lead to nodes other than the first one. -/
def TargetsOk (ns : List Node) : Prop :=
  ∀ n ∈ ns, ∀ e ∈ n.edges, 1 ≤ e.nextProgstate.toNat ∧ e.nextProgstate.toNat < ns.length

theorem TargetsOk.nextState_lt (ht : TargetsOk ns) (hlen : ns.length ≤ memoryPoolSize)
    (hn : nextState ns k c = some v) : v < ns.length := by
  rw [nextState, Option.bind_eq_some_iff] at hn
  obtain ⟨n, hk, hn⟩ := hn
  rw [transitionCode] at hn
  cases hl : lookup n.edges c with
  | none =>
    rw [hl, Option.elim_none, toUnsignedLong_zero] at hn
    cases hn
  | some t =>
    have hlt : t.toNat < ns.length := (ht n (List.mem_of_getElem? hk) _ (lookup_mem hl)).2
    rw [memoryPoolSize] at hlen
    rw [hl, Option.elim_some, toUnsignedLong_toInt (by omega)] at hn
    simp only [Option.ite_none_left_eq_some, Option.some.injEq] at hn
    obtain ⟨-, rfl⟩ := hn
    exact hlt

theorem transitionCode_bounds (es : List Edge) (c : UInt64) :
    -2 ^ 31 ≤ transitionCode es c ∧ transitionCode es c < 2 ^ 31 := by
  rw [transitionCode]
  cases lookup es c with
  | none =>
    rw [Option.elim_none]
    constructor <;> omega
  | some t =>
    rw [Option.elim_some]
    exact toInt_bounds t

theorem TableAt.length_le (h : TableAt p off ns) : ns.length ≤ memoryPoolSize := by
  cases ns with
  | nil => exact Nat.zero_le _
  | cons n ns =>
    have hin : Inside off := h.1.inside
    rw [Inside] at hin
    have hend := h.end_le (by omega)
    have hlen := length_le_extent (n :: ns)
    omega

/-- What the check and the step make of a call that the table refuses. -/
structure Refused (m : MemGraph) (c : UInt64) : Prop where
  check : ¬Allows m c
  step : ¬Succeeds m c
  state : (transitionToState m c).2 = m

theorem AtState.refused (h : AtState m p ns k) (hn : nextState ns k c = none) : Refused m c := by
  constructor
  · intro hx
    obtain ⟨z, hz, hne⟩ := hx
    rcases h.check_refused hn with hc | ⟨o, hc⟩
    · rw [hc, Except.ok.injEq] at hz
      exact hne hz.symm
    · rw [hc] at hz
      cases hz
  · intro hx
    obtain ⟨z, hz, hpos⟩ := hx
    rcases h.transition_refused hn with hr | ⟨o, hr⟩
    · rw [hr, Except.ok.injEq] at hz
      subst hz
      exact absurd hpos (by decide)
    · rw [hr] at hz
      cases hz
  · rcases h.transition_refused hn with hr | ⟨o, hr⟩ <;> rw [hr]

/-- What they make of a call that the table takes: both return the new current state. -/
structure Taken (m : MemGraph) (c : UInt64) (m' : MemGraph) : Prop where
  nonzero : m'.currentProgstate ≠ 0
  check : isStateTransitionValid m c = .ok m'.currentProgstate.toNat
  step : transitionToState m c = (.ok m'.currentProgstate.toNat, m')

theorem Taken.allows (h : Taken m c m') : Allows m c := by
  refine ⟨_, h.check, fun hz => h.nonzero ?_⟩
  rw [← UInt64.toNat_inj]
  exact Int.ofNat_inj.1 hz

theorem Taken.succeeds (h : Taken m c m') : Succeeds m c :=
  ⟨_, by rw [h.step], Int.natCast_nonneg _⟩

theorem AtState.taken (h : AtState m p ns k) (ht : TargetsOk ns)
    (hn : nextState ns k c = some v) : ∃ m', Taken m c m' ∧ AtState m' p ns v := by
  have hlen := h.table.length_le
  have hlt := ht.nextState_lt hlen hn
  obtain ⟨z, hz, hcheck, hne, hv⟩ := h.check_taken hn
  obtain ⟨m', hm', h'⟩ := (h.transition_taken hn).2 hlt
  obtain ⟨n, hk⟩ := h.node
  have hbounds : -2 ^ 31 ≤ z ∧ z < 2 ^ 31 := by
    rw [h.check hk, checkAt] at hcheck
    split at hcheck
    next =>
      cases hcheck
      exact transitionCode_bounds n.edges c
    next => cases hcheck
  have hcode : z = v := by
    rw [memoryPoolSize] at hlen
    rw [toNat_toUnsignedLong] at hv
    omega
  have hcurrent : m'.currentProgstate.toNat = v := h'.current
  refine ⟨m', ⟨?_, ?_, ?_⟩, h'⟩
  · intro hzero
    rw [hzero, UInt64.toNat_zero] at hcurrent
    exact hz (hcode.trans (congrArg Nat.cast hcurrent.symm))
  · rw [hcheck, hcode, hcurrent]
  · rw [hm', h'.toInt_current hlen, hcurrent]

/-- The check and the step agree on every call, and a call that is refused changes nothing. -/
theorem AtState.refused_or_taken (h : AtState m p ns k) (ht : TargetsOk ns) (c : UInt64) :
    Refused m c ∨ ∃ m' v, Taken m c m' ∧ AtState m' p ns v := by
  cases hn : nextState ns k c with
  | none => exact .inl (h.refused hn)
  | some v =>
    obtain ⟨m', hm', h'⟩ := h.taken ht hn
    exact .inr ⟨m', v, hm', h'⟩

theorem Loaded.query (h : Loaded m p ns) (hpos : 0 < ns.length) (ht : TargetsOk ns)
    (hk : AtState m p ns k) (q : Query) : ∃ j, AtState (q.step m) p ns j := by
  cases q with
  | resetProgstate =>
    obtain ⟨m', hm', h'⟩ := h.resetProgstate hpos
    rw [Query.step, hm']
    exact ⟨0, h'⟩
  | isStateTransitionValid libccall => exact ⟨k, hk⟩
  | transitionToState libccall =>
    rw [Query.step]
    rcases hk.refused_or_taken ht libccall with hr | ⟨m', v, htaken, h'⟩
    · rw [hr.state]
      exact ⟨k, hk⟩
    · rw [htaken.step]
      exact ⟨v, h'⟩

theorem AtState.queries (h : AtState m p ns k) (ht : TargetsOk ns) (qs : List Query) :
    ∃ j, AtState (qs.foldl Query.step m) p ns j := by
  induction qs generalizing m k with
  | nil => exact ⟨k, h⟩
  | cons q qs ih =>
    obtain ⟨j, hj⟩ := h.toLoaded.query (Nat.zero_lt_of_lt h.lt) ht h q
    exact ih hj

/-- A call at which the check reads behind the pool is made at a node without edges, where every
call is refused. -/
theorem AtState.refused_of_halt (h : AtState m p ns k) (ht : TargetsOk ns)
    (hhalt : transitionToState m c = (.error o, m')) (c' : UInt64) : Refused m c' := by
  obtain ⟨n, hk⟩ := h.node
  have hout : ¬Inside (nodeOffset p.nodesTableOffset.toNat ns k + sizeofRecord) := by
    intro hin
    rcases h.refused_or_taken ht c with hr | ⟨m₁, v, htaken, -⟩
    · have hcode : isStateTransitionValid m c = .ok (transitionCode n.edges c) := by
        rw [h.check hk, checkAt, if_pos hin]
      have hzero : transitionCode n.edges c = 0 :=
        Classical.not_not.1 fun hne => hr.check ⟨_, hcode, hne⟩
      rw [hzero] at hcode
      simp only [transitionToState, h.pool, if_neg h.not_le, hcode, toUnsignedLong_zero, ne_eq,
        not_true_eq_false, ↓reduceIte, Prod.mk.injEq, reduceCtorEq, false_and] at hhalt
    · rw [htaken.step] at hhalt
      cases hhalt
  rcases h.refused_or_taken ht c' with hr | ⟨m₁, v, htaken, -⟩
  · exact hr
  · have hcheck := htaken.check
    rw [h.check hk, checkAt, if_neg hout] at hcheck
    cases hcheck

theorem acceptedCalls_refused (h : ∀ c, Refused m c) (cs : List UInt64) :
    acceptedCalls m cs = [] := by
  induction cs with
  | nil => rfl
  | cons c cs ih =>
    have hstate := (h c).state
    have hstep := (h c).step
    rw [acceptedCalls]
    generalize hrun : transitionToState m c = x at hstate hstep
    obtain ⟨r, m'⟩ := x
    subst hstate
    cases r with
    | error => exact ih
    | ok state =>
      have hneg : ¬0 ≤ state := fun hpos => hstep ⟨state, by rw [hrun], hpos⟩
      simp only [if_neg hneg]
      exact ih

theorem AtState.acceptedCalls (h : AtState m p ns k) (ht : TargetsOk ns) (cs : List UInt64) :
    runTransitions (acceptedCalls m cs) m = (.ok (), (runTransitions cs m).2) := by
  induction cs generalizing m k with
  | nil => rfl
  | cons c cs ih =>
    rcases h.refused_or_taken ht c with hr | ⟨m', v, htaken, h'⟩
    · generalize hrun : transitionToState m c = x at *
      obtain ⟨r, m'⟩ := x
      have hstate : m' = m := by
        have hs := hr.state
        rwa [hrun] at hs
      subst hstate
      cases r with
      | error o =>
        rw [acceptedCalls_refused (h.refused_of_halt ht hrun), runTransitions, runTransitions, hrun]
      | ok state =>
        have hneg : ¬0 ≤ state := fun hpos => hr.step ⟨state, by rw [hrun], hpos⟩
        simp only [LibcSandbox.acceptedCalls, runTransitions, hrun, if_neg hneg]
        exact ih h
    · have hpos : (0 : Int) ≤ m'.currentProgstate.toNat := Int.natCast_nonneg _
      simp only [LibcSandbox.acceptedCalls, runTransitions, htaken.step, if_pos hpos]
      exact ih h'

/-- In every state that the recogniser of a verified graph can reach, the check and the step agree
and return the new state; a call that is refused leaves everything as it is, so that the calls
that are accepted make the final state alone. -/
theorem refused_untouched (m m' : MemGraph) (p : Pool) (hv : verifyGraph m = (.ok 1, m'))
    (hp : m.pool = some p) (hpos : 1 ≤ p.numNodes.toNat)
    (ht : ∀ n ∈ p.table, ∀ e ∈ n.edges,
      1 ≤ e.nextProgstate.toNat ∧ e.nextProgstate.toNat ≤ p.numNodes.toNat - 1)
    (qs : List Query) :
    let m₁ := qs.foldl Query.step (resetProgstate m').2
    (∀ c, (Allows m₁ c ↔ Succeeds m₁ c) ∧ (Succeeds m₁ c → ∃ m₂, Taken m₁ c m₂) ∧
      (¬Succeeds m₁ c → (transitionToState m₁ c).2 = m₁)) ∧
    ∀ cs, runTransitions (acceptedCalls m₁ cs) m₁ = (.ok (), (runTransitions cs m₁).2) := by
  intro m₁
  obtain ⟨p', hp', -, hl⟩ := loaded_of_verifyGraph hv
  cases hp.symm.trans hp'
  have hnum := hl.numNodes
  have htargets : TargetsOk p.table := by
    intro n hn e he
    have hbounds := ht n hn e he
    omega
  obtain ⟨m₀, hm₀, h₀⟩ := hl.resetProgstate (by omega)
  have hm₁ : m₁ = qs.foldl Query.step m₀ := by simp only [m₁, hm₀]
  obtain ⟨k, hk⟩ := h₀.queries htargets qs
  rw [← hm₁] at hk
  refine ⟨fun c => ?_, hk.acceptedCalls htargets⟩
  rcases hk.refused_or_taken htargets c with hr | ⟨m₂, v, htaken, -⟩
  · exact ⟨iff_of_false hr.check hr.step, fun hs => absurd hs hr.step, fun _ => hr.state⟩
  · exact ⟨iff_of_true htaken.allows htaken.succeeds, fun _ => ⟨m₂, htaken⟩,
      fun hs => absurd htaken.succeeds hs⟩

/-- Two nodes, of which only the first has an edge. -/
def stopPool : Pool :=
  let p := (emptyPool.setGraphFinalized 1).setNumNodes 2
  let p := p.putProgstate 88 ⟨nodeMagicNumber, 0, 1⟩
  let p := p.putLibcalls 112 ⟨edgeMagicNumber, 7, 1⟩
  p.putProgstate 136 ⟨nodeMagicNumber, 1, 0⟩

def stopGraph : MemGraph := { MemGraph.initial with pool := some stopPool }

/-- After the one call that is accepted, the state stays. -/
theorem stopGraph_untouched :
    let m₁ := (transitionToState (resetProgstate (verifyGraph stopGraph).2).2 7).2
    ¬Succeeds m₁ 7 ∧ (transitionToState m₁ 7).2 = m₁ := by
  intro m₁
  have htable : stopPool.table = [⟨0, [⟨7, 1⟩]⟩, ⟨1, []⟩] := by decide +kernel
  have hrefused : ¬Succeeds m₁ 7 := by
    intro hx
    obtain ⟨z, hz, hpos⟩ := hx
    have hcode : (transitionToState m₁ 7).1 = .ok errorInvalidState := by decide +kernel
    rw [hcode, Except.ok.injEq] at hz
    subst hz
    exact absurd hpos (by decide)
  have huntouched := refused_untouched stopGraph (verifyGraph stopGraph).2 stopPool
    (Prod.ext (by decide +kernel) rfl) rfl (by decide +kernel)
    (by rw [htable]; decide +kernel) [.transitionToState 7]
  exact ⟨hrefused, (huntouched.1 7).2.2 hrefused⟩

end LibcSandbox
