import LibcSandbox.MemGraph.Atomic

namespace LibcSandbox
open Library
set_option autoImplicit true

variable {m m' : MemGraph} {p : Pool} {ns : List Node}

/-- What a call of `transition_to_state` reports. Where its read of `nodes[..]` is outside of the
listing and comes back all the same, that is the state which the call has set. -/
def reported (m : MemGraph) (c : UInt64) : Option Int :=
  match transitionToState m c with
  | (.ok state, _) => some state
  | (.error (.outOfListing _), m) => some (toInt m.currentProgstate)
  | (.error _, _) => none

/-- A call that reports a state has moved to the target, and one that reports an error has not
moved. -/
structure ReportsTarget (m : MemGraph) (c target : UInt64) : Prop where
  moves : ∀ z, reported m c = some z → 0 ≤ z →
    (transitionToState m c).2.currentProgstate = target
  stays : ∀ z, reported m c = some z → z < 0 →
    (transitionToState m c).2.currentProgstate = m.currentProgstate

theorem toInt_low (h : t.toNat % 2 ^ 32 < 2 ^ 31) : toInt t = (t.toNat : Int) % 2 ^ 32 := by
  have hcut := Int.bmod_eq_iff (a := t.toNat) (b := 2 ^ 32) (c := (t.toNat : Int) % 2 ^ 32)
    (by decide)
  apply hcut.2
  push_cast
  omega

theorem toInt_high (h : 2 ^ 31 ≤ t.toNat % 2 ^ 32) :
    toInt t = (t.toNat : Int) % 2 ^ 32 - 2 ^ 32 := by
  have hcut := Int.bmod_eq_iff (a := t.toNat) (b := 2 ^ 32)
    (c := (t.toNat : Int) % 2 ^ 32 - 2 ^ 32) (by decide)
  apply hcut.2
  push_cast
  omega

theorem toInt_cases (t : UInt64) :
    (t.toNat % 2 ^ 32 < 2 ^ 31 ∧ toInt t = (t.toNat : Int) % 2 ^ 32) ∨
      (2 ^ 31 ≤ t.toNat % 2 ^ 32 ∧ toInt t = (t.toNat : Int) % 2 ^ 32 - 2 ^ 32) := by
  by_cases h : t.toNat % 2 ^ 32 < 2 ^ 31
  · left
    exact ⟨h, toInt_low h⟩
  · right
    have h := Nat.not_lt.1 h
    exact ⟨h, toInt_high h⟩

theorem toInt_toUnsignedLong (h : -2 ^ 31 ≤ z ∧ z < 2 ^ 31) : toInt (toUnsignedLong z) = z := by
  have hword := toNat_toUnsignedLong z
  have hcases := toInt_cases (toUnsignedLong z)
  omega

theorem toUnsignedLong_toInt_iff (h : 0 < toInt t) :
    toUnsignedLong (toInt t) = t ↔ t.toNat < 2 ^ 31 := by
  have hword := toNat_toUnsignedLong (toInt t)
  have hcases := toInt_cases t
  rw [← UInt64.toNat_inj, hword]
  omega

theorem reported_ok (h : transitionToState m c = (.ok z, m')) : reported m c = some z := by
  simp only [reported, h]

theorem AtState.check_lookup (h : AtState m p ns k) (hk : ns[k]? = some n)
    (hl : lookup n.edges c = some t) : isStateTransitionValid m c = .ok (toInt t) := by
  have hedges : n.edges ≠ [] := List.ne_nil_of_mem (lookup_mem hl)
  rw [h.check hk, checkAt, if_pos ((h.nodeAt hk).inside_edges hedges), transitionCode, hl,
    Option.elim_some]

theorem AtState.reports_zero (h : AtState m p ns k) (hk : ns[k]? = some n)
    (hl : lookup n.edges c = some t) (hz : toInt t = 0) :
    transitionToState m c = (.ok errorInvalidState, m) := by
  simp only [transitionToState, h.pool, if_neg h.not_le, h.check_lookup hk hl, hz,
    toUnsignedLong_zero, ne_eq, not_true_eq_false, ↓reduceIte]

theorem AtState.reports_check (h : AtState m p ns k) (hcheck : isStateTransitionValid m c = .ok z)
    (hw : toUnsignedLong z = w) (hne : w ≠ 0) :
    reported m c = some (toInt w) ∧ (transitionToState m c).2.currentProgstate = w := by
  obtain ⟨L, hL, -, -⟩ := h.listing
  by_cases hlt : w.toNat < L.slots
  · have hrun : transitionToState m c = (.ok (toInt w),
        { m with currentProgstate := w, startNode := L.entry w.toNat }) := by
      simp only [transitionToState, h.pool, if_neg h.not_le, hcheck, hw, hne, ne_eq,
        not_false_eq_true, ↓reduceIte, hL, Listing.read, if_pos hlt]
    rw [reported_ok hrun, hrun]
    exact ⟨rfl, rfl⟩
  · have hrun : transitionToState m c =
        (.error (.outOfListing w.toNat), { m with currentProgstate := w }) := by
      simp only [transitionToState, h.pool, if_neg h.not_le, hcheck, hw, hne, ne_eq,
        not_false_eq_true, ↓reduceIte, hL, Listing.read, if_neg hlt]
    simp only [reported, hrun, and_self]

/-- Any other target is moved to as the `unsigned long` of its `int`, which the call reports. -/
theorem AtState.reports_nonzero (h : AtState m p ns k) (hk : ns[k]? = some n)
    (hl : lookup n.edges c = some t) (hz : toInt t ≠ 0) :
    reported m c = some (toInt t) ∧
      (transitionToState m c).2.currentProgstate = toUnsignedLong (toInt t) := by
  have hne : toUnsignedLong (toInt t) ≠ 0 := by
    intro he
    exact hz ((toUnsignedLong_eq_zero_iff (toInt_bounds t)).1 he)
  obtain ⟨hr, hs⟩ := h.reports_check (h.check_lookup hk hl) rfl hne
  rw [toInt_toUnsignedLong (toInt_bounds t)] at hr
  exact ⟨hr, hs⟩

/-- The value in the edge arrives whole exactly if it is below `2 ^ 31`, or is refused as a 0. -/
theorem AtState.reports_iff (h : AtState m p ns k) (hk : ns[k]? = some n)
    (hl : lookup n.edges c = some t) :
    ReportsTarget m c t ↔ t.toNat % 2 ^ 32 = 0 ∨ t.toNat < 2 ^ 31 := by
  have hcases := toInt_cases t
  rcases Int.lt_trichotomy (toInt t) 0 with hneg | hzero | hpos
  · -- the sign is extended, so that the state is none of the table
    obtain ⟨hr, hs⟩ := h.reports_nonzero hk hl (by omega)
    have hlen := h.table.length_le
    have hlt := h.lt
    have hcurrent := h.current
    have hno : ¬ReportsTarget m c t := by
      intro hx
      have hsame := (hs.symm.trans (hx.stays _ hr hneg))
      have hword := toNat_toUnsignedLong (toInt t)
      rw [hsame, hcurrent] at hword
      rw [memoryPoolSize] at hlen
      omega
    have hcond : ¬(t.toNat % 2 ^ 32 = 0 ∨ t.toNat < 2 ^ 31) := by omega
    exact iff_of_false hno hcond
  · have hrun := h.reports_zero hk hl hzero
    have hyes : ReportsTarget m c t := by
      constructor
      · intro z hz hz0
        cases (reported_ok hrun).symm.trans hz
        exact absurd hz0 (by decide)
      · intro z _ _
        rw [hrun]
    have hcond : t.toNat % 2 ^ 32 = 0 ∨ t.toNat < 2 ^ 31 := by omega
    exact iff_of_true hyes hcond
  · obtain ⟨hr, hs⟩ := h.reports_nonzero hk hl (by omega)
    have hsame : ReportsTarget m c t ↔ toUnsignedLong (toInt t) = t := by
      apply Iff.intro
      · intro hx
        exact hs.symm.trans (hx.moves _ hr (by omega))
      · intro he
        constructor
        · intro z _ _
          rw [hs, he]
        · intro z hz hz0
          obtain rfl := Option.some.inj (hr.symm.trans hz)
          exact absurd hz0 (Int.not_lt.2 (Int.le_of_lt hpos))
    have hfits := toUnsignedLong_toInt_iff hpos
    have hcond : t.toNat < 2 ^ 31 ↔ t.toNat % 2 ^ 32 = 0 ∨ t.toNat < 2 ^ 31 := by omega
    exact hsame.trans (hfits.trans hcond)

/-- A loaded graph and where the recogniser stands in it: at a node, or past the last one, where
it stays until it is reset. -/
structure Standing (m : MemGraph) (p : Pool) (ns : List Node) : Prop extends Loaded m p ns where
  place : (∃ k, AtState m p ns k) ∨ p.numNodes ≤ m.currentProgstate

theorem Loaded.standing_reset (h : Loaded m p ns) :
    Standing (LibcSandbox.resetProgstate m).2 p ns := by
  rcases Nat.eq_zero_or_pos ns.length with hz | hpos
  · have hnum : p.numNodes = 0 := by
      rw [← UInt64.toNat_inj, h.numNodes, hz]
      rfl
    obtain ⟨L, hL, -, -⟩ := h.listing
    have hreset : ∃ start, (LibcSandbox.resetProgstate m).2 =
        { m with currentProgstate := 0, startNode := start } := by
      cases hread : L.read 0 with
      | error o =>
        use m.startNode
        simp only [LibcSandbox.resetProgstate, hL, hread]
      | ok node =>
        use node
        simp only [LibcSandbox.resetProgstate, hL, hread]
    obtain ⟨start, hreset⟩ := hreset
    rw [hreset]
    exact { h.of_nodes rfl rfl with place := .inr (by rw [hnum]; exact UInt64.le_refl 0) }
  · obtain ⟨m', hm', h'⟩ := h.resetProgstate hpos
    rw [hm']
    exact { h'.toLoaded with place := .inl ⟨0, h'⟩ }

theorem Standing.transition (h : Standing m p ns) (c : UInt64) :
    Standing (transitionToState m c).2 p ns := by
  rcases h.place with ⟨k, hk⟩ | hpast
  · cases hn : nextState ns k c with
    | none =>
      rcases hk.transition_refused hn with hr | ⟨o, hr⟩ <;>
        · rw [hr]
          exact h
    | some v =>
      obtain ⟨hv, hin⟩ := hk.transition_taken hn
      by_cases hlt : v < ns.length
      · obtain ⟨m', hm', h'⟩ := hin hlt
        rw [hm']
        exact { h'.toLoaded with place := .inl ⟨v, h'⟩ }
      · have hpast : p.numNodes ≤ (transitionToState m c).2.currentProgstate := by
          rw [UInt64.le_iff_toNat_le, h.numNodes, hv]
          exact Nat.not_lt.1 hlt
        obtain ⟨state, node, hm⟩ := transitionToState_state m c
        rw [hm] at hpast ⊢
        exact { h.toLoaded.of_nodes rfl rfl with place := .inr hpast }
  · have hr : transitionToState m c = (.ok errorInvalidState, m) := by
      simp only [transitionToState, h.pool, if_pos hpast]
    rw [hr]
    exact h

theorem Standing.query (h : Standing m p ns) (q : Query) : Standing (q.step m) p ns := by
  cases q with
  | resetProgstate => exact h.toLoaded.standing_reset
  | isStateTransitionValid libccall => exact h
  | transitionToState libccall => exact h.transition libccall

theorem Standing.queries (h : Standing m p ns) (qs : List Query) :
    Standing (qs.foldl Query.step m) p ns := by
  induction qs generalizing m with
  | nil => exact h
  | cons q qs ih => exact ih (h.query q)

theorem Standing.atState (h : Standing m p ns) (hlt : m.currentProgstate < p.numNodes) :
    AtState m p ns m.currentProgstate.toNat := by
  rcases h.place with ⟨k, hk⟩ | hpast
  · rw [hk.current]
    exact hk
  · exact absurd hpast (UInt64.not_le.2 hlt)

/-- In every state that the recogniser of a verified graph reaches, and for every id with an edge
in the current node, the value in the edge arrives whole if and only if it is below `2 ^ 31` or
its low half is 0. -/
theorem reportsTarget_iff (m m' : MemGraph) (p : Pool) (hv : verifyGraph m = (.ok 1, m'))
    (hp : m.pool = some p) (qs : List Query) :
    let m₁ := qs.foldl Query.step (resetProgstate m').2
    m₁.currentProgstate < p.numNodes → ∀ n c t,
      p.table[m₁.currentProgstate.toNat]? = some n → lookup n.edges c = some t →
        (ReportsTarget m₁ c t ↔ t.toNat % 2 ^ 32 = 0 ∨ t.toNat < 2 ^ 31) := by
  intro m₁ hlt n c t hn hl
  obtain ⟨p', hp', -, hloaded⟩ := loaded_of_verifyGraph hv
  cases hp.symm.trans hp'
  exact ((hloaded.standing_reset.queries qs).atState hlt).reports_iff hn hl

/-- Two nodes, the edge between them with a 1 in both halves of its target. -/
def farPool : Pool := stopPool.putLibcalls 112 ⟨edgeMagicNumber, 7, 0x100000001⟩

def farGraph : MemGraph := { MemGraph.initial with pool := some farPool }

/-- The call reports state 1, and that is where it has moved to. -/
theorem farGraph_cut :
    ¬∀ m m' p, verifyGraph m = (.ok 1, m') → m.pool = some p → ∀ qs : List Query,
      let m₁ := qs.foldl Query.step (resetProgstate m').2
      m₁.currentProgstate < p.numNodes → ∀ n c t,
        p.table[m₁.currentProgstate.toNat]? = some n → lookup n.edges c = some t →
          ReportsTarget m₁ c t := by
  intro h
  have htable : farPool.table = [⟨0, [⟨7, 0x100000001⟩]⟩, ⟨1, []⟩] := by decide +kernel
  have hzero : (resetProgstate (verifyGraph farGraph).2).2.currentProgstate = 0 := by
    decide +kernel
  have hx := h farGraph (verifyGraph farGraph).2 farPool (Prod.ext (by decide +kernel) rfl) rfl []
    (by decide +kernel) ⟨0, [⟨7, 0x100000001⟩]⟩ 7 (0x100000001)
    (by rw [htable, List.foldl_nil, hzero]; rfl) (by decide)
  have hreport : reported (resetProgstate (verifyGraph farGraph).2).2 7 = some 1 := by
    decide +kernel
  have hstate : (transitionToState (resetProgstate (verifyGraph farGraph).2).2 7).2.currentProgstate =
      1 := by
    decide +kernel
  have hmoved := hx.moves 1 hreport (by decide)
  rw [List.foldl_nil, hstate] at hmoved
  exact absurd hmoved (by decide)

/-- A target that fits. -/
theorem stopGraph_reports :
    ReportsTarget (resetProgstate (verifyGraph stopGraph).2).2 7 1 := by
  have htable : stopPool.table = [⟨0, [⟨7, 1⟩]⟩, ⟨1, []⟩] := by decide +kernel
  have hzero : (resetProgstate (verifyGraph stopGraph).2).2.currentProgstate = 0 := by
    decide +kernel
  exact (reportsTarget_iff stopGraph (verifyGraph stopGraph).2 stopPool
    (Prod.ext (by decide +kernel) rfl) rfl [] (by decide +kernel) ⟨0, [⟨7, 1⟩]⟩ 7 1
    (by rw [htable, List.foldl_nil, hzero]; rfl) (by decide)).2 (.inr (by decide))

end LibcSandbox
