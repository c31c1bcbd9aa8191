import LibcSandbox.MemGraph.Filling

namespace LibcSandbox
open Library
set_option autoImplicit true

variable {m m' : MemGraph} {cs : List AllocCall}

/-- The ids count the calls, from `k` on. -/
def IdsFrom (k : Nat) : List AllocCall → Prop
  | [] => True
  | c :: cs => c.id.toNat = k ∧ IdsFrom (k + 1) cs

/-- A build from an empty pool to its release. -/
structure Lifetime where
  calls : List AllocCall
  ids : IdsFrom 0 calls
  fits : nodeTableOffset + extent AllocCall.size calls ≤ memoryPoolSize

def Lifetime.numNodes (l : Lifetime) : Nat := l.calls.length

def Lifetime.run (l : Lifetime) (m : MemGraph) : Outcome MemGraph Unit :=
  match initializeGraph .user none 0 m with
  | (.error h, m) => (.error h, m)
  | (.ok (), m) =>
    match allocCalls l.calls m with
    | (.error h, m) => (.error h, m)
    | (.ok (), m) =>
      match finalizeGraph m with
      | (.error h, m) => (.error h, m)
      | (.ok (), m) => (.ok (), destroyGraph m)

/-- Builds one after another, up to the first that does not come to its end. -/
def lifetimes : List Lifetime → MemGraph → Outcome MemGraph Unit
  | [], m => (.ok (), m)
  | l :: ls, m =>
    match l.run m with
    | (.error h, m) => (.error h, m)
    | (.ok (), m) => lifetimes ls m

/-- The listing grows in step with its count. -/
inductive InStep : Option Nat → UInt64 → Nat → Prop
  | unallocated {count : UInt64} : count.toNat = 0 ∨ count.toNat = 4096 → InStep none count 0
  | uncounted {count : UInt64} : count.toNat = 0 → InStep (some 4096) count 1
  | counted {count : UInt64} {n k : Nat} : n = count.toNat → 4096 ≤ n → k ≤ n → n ≤ k + 4096 →
      (k ≤ 4096 → n = 4096) → InStep (some n) count k

/-- The count is ahead of the listing. -/
inductive Ahead : Option Nat → UInt64 → Nat → Prop
  | unallocated {count : UInt64} : 4096 < count.toNat → Ahead none count 0
  | allocated {count : UInt64} {k : Nat} : 4096 < count.toNat → Ahead (some 4096) count k

variable {slots : Option Nat} {count : UInt64}

theorem InStep.grown (h : InStep slots count k) (hk : k ≤ memoryPoolSize) :
    k < (grownSlots slots count k).1 ∧
      InStep (some (grownSlots slots count k).1) (grownSlots slots count k).2 (k + 1) := by
  rw [memoryPoolSize] at hk
  have hdefault : defaultNumberOfNodesListings.toNat = 4096 := rfl
  have height : (8 : UInt64).toNat = 8 := rfl
  cases h with
  | unallocated hc =>
    have hpos : 0 < 4096 := by decide
    have hstep : InStep (some 4096) count 1 := by
      rcases hc with hc | hc
      · exact .uncounted hc
      · exact .counted hc.symm (by decide) (by decide) (by decide) fun _ => rfl
    exact ⟨hpos, hstep⟩
  | uncounted hc =>
    have hgrown : grownSlots (some 4096) count 1 = (4096, 4096) := by
      rw [UInt64.toNat_inj.1 (hc.trans UInt64.toNat_zero.symm)]
      rfl
    rw [hgrown]
    exact ⟨by decide, .counted rfl (by decide) (by decide) (by decide) fun _ => rfl⟩
  | @counted n _ k hn hlo hkn hnk hsmall =>
    by_cases hle : count.toNat ≤ k
    · have hnew : (count + defaultNumberOfNodesListings).toNat = k + 4096 := by
        rw [UInt64.toNat_add, hdefault, Nat.mod_eq_of_lt (by omega)]
        omega
      have hslots : (8 * (count + defaultNumberOfNodesListings)).toNat / 8 = k + 4096 := by
        rw [UInt64.toNat_mul, hnew, height, Nat.mod_eq_of_lt (by omega)]
        omega
      simp only [grownSlots, if_pos hle, hslots]
      exact ⟨by omega, .counted hnew.symm (by omega) (by omega) (by omega) (by omega)⟩
    · simp only [grownSlots, if_neg hle]
      exact ⟨by omega, .counted hn hlo (by omega) (by omega) (by omega)⟩

theorem Ahead.grown (h : Ahead slots count k) (hk : k ≤ 4096) :
    grownSlots slots count k = (4096, count) := by
  cases h with
  | unallocated => rfl
  | allocated hc => rw [grownSlots, if_neg (by omega)]

theorem Ahead.count_lt (h : Ahead slots count k) : 4096 < count.toNat := by
  cases h with
  | unallocated hc => exact hc
  | allocated hc => exact hc

theorem Filling.allocCalls_inStep (h : Filling m slots count k off) (hstep : InStep slots count k)
    (hids : IdsFrom k cs) (hfit : off + extent AllocCall.size cs ≤ memoryPoolSize) :
    ∃ m' slots' count' off', allocCalls cs m = (.ok (), m') ∧
      Filling m' slots' count' (k + cs.length) off' ∧ InStep slots' count' (k + cs.length) := by
  induction cs generalizing m slots count k off with
  | nil => exact ⟨m, slots, count, off, rfl, h, hstep⟩
  | cons c cs ih =>
    obtain ⟨hid, hids⟩ := hids
    obtain ⟨hlt, hstep'⟩ := hstep.grown (h.le_size ((Nat.le_add_right ..).trans hfit))
    rw [extent_cons] at hfit
    obtain ⟨node, m₁, hok, h₁⟩ := h.run (c := c) (by omega) (by rwa [hid])
    obtain ⟨m', slots', count', off', hm', h', hend⟩ :=
      ih h₁ hstep' hids (by rwa [Nat.add_assoc])
    rw [Nat.add_assoc, Nat.add_comm 1] at h' hend
    exact ⟨m', slots', count', off', (allocCalls_cons hok).trans hm', h', hend⟩

theorem Filling.allocCalls_ahead (h : Filling m slots count k off) (hahead : Ahead slots count k)
    (hids : IdsFrom k cs) (hfit : off + extent AllocCall.size cs ≤ memoryPoolSize)
    (hk : k + cs.length ≤ 4096) :
    ∃ m' slots' off', allocCalls cs m = (.ok (), m') ∧
      Filling m' slots' count (k + cs.length) off' := by
  induction cs generalizing m slots k off with
  | nil => exact ⟨m, slots, off, rfl, h⟩
  | cons c cs ih =>
    obtain ⟨hid, hids⟩ := hids
    rw [List.length_cons] at hk
    have hgrown := hahead.grown (by omega)
    rw [extent_cons] at hfit
    obtain ⟨node, m₁, hok, h₁⟩ := h.run (c := c) (by omega) (by rw [hgrown, hid]; omega)
    rw [hgrown] at h₁
    obtain ⟨m', slots', off', hm', h'⟩ :=
      ih h₁ (.allocated hahead.count_lt) hids (by rwa [Nat.add_assoc]) (by omega)
    rw [Nat.add_assoc, Nat.add_comm 1] at h'
    exact ⟨m', slots', off', (allocCalls_cons hok).trans hm', h'⟩

theorem Filling.allocCalls_outOfListing (h : Filling m slots count k off)
    (hahead : Ahead slots count k) (hids : IdsFrom k cs)
    (hfit : off + extent AllocCall.size cs ≤ memoryPoolSize) (hk : k ≤ 4096)
    (hlong : 4096 < k + cs.length) : (allocCalls cs m).1 = .error (.outOfListing 4096) := by
  induction cs generalizing m slots k off with
  | nil =>
    rw [List.length_nil] at hlong
    omega
  | cons c cs ih =>
    obtain ⟨hid, hids⟩ := hids
    rw [List.length_cons] at hlong
    have hgrown := hahead.grown hk
    rw [extent_cons] at hfit
    rcases Nat.lt_or_ge k 4096 with hlt | hge
    · obtain ⟨node, m₁, hok, h₁⟩ := h.run (c := c) (by omega) (by rw [hgrown, hid]; exact hlt)
      rw [hgrown] at h₁
      rw [allocCalls_cons hok]
      exact ih h₁ (.allocated hahead.count_lt) hids (by rwa [Nat.add_assoc]) (by omega) (by omega)
    · have hfull := h.run_outOfListing (c := c) (by omega) (by rw [hgrown, hid]; exact hge)
      have hlast : c.id.toNat = 4096 := by omega
      rw [hlast] at hfull
      exact allocCalls_error hfull

/-- A build whose calls return leaves only the count of the listing behind. -/
theorem Lifetime.run_ok (l : Lifetime) (hm : allocCalls l.calls m.restarted = (.ok (), m'))
    (h : Filling m' slots count k off) :
    ∃ m₁, l.run m = (.ok (), m₁) ∧ m₁.pool = none ∧ m₁.numNodesListings = count := by
  obtain ⟨p, hp, -⟩ := h.pool
  have hfinal : finalizeGraph m' = (.ok (), { m' with pool := some (p.setGraphFinalized 1) }) := by
    rw [finalizeGraph, hp]
  have hrun : l.run m =
      (.ok (), destroyGraph { m' with pool := some (p.setGraphFinalized 1) }) := by
    simp only [Lifetime.run, initializeGraph_restarted, hm, hfinal]
  exact ⟨_, hrun, rfl, h.listings⟩

theorem Lifetime.run_error (l : Lifetime) (he : (allocCalls l.calls m.restarted).1 = .error e) :
    (l.run m).1 = .error e := by
  obtain ⟨m', hrun⟩ : ∃ m', allocCalls l.calls m.restarted = (.error e, m') :=
    ⟨_, Prod.ext he rfl⟩
  simp only [Lifetime.run, initializeGraph_restarted, hrun]

/-- While the count is that of the first allocation, or none, every build comes to its end, and
it moves the count past it exactly if it has more than 4096 nodes. -/
theorem Lifetime.run_inStep (l : Lifetime) (hp : m.pool = none)
    (hc : m.numNodesListings.toNat = 0 ∨ m.numNodesListings.toNat = 4096) :
    ∃ m', l.run m = (.ok (), m') ∧ m'.pool = none ∧
      (l.numNodes ≤ 4096 → m'.numNodesListings.toNat = 0 ∨ m'.numNodesListings.toNat = 4096) ∧
      (4096 < l.numNodes → 4096 < m'.numNodesListings.toNat) := by
  obtain ⟨m₁, slots, count, off, hm₁, h₁, hstep⟩ :=
    (filling_restarted hp).allocCalls_inStep (.unallocated hc) l.ids l.fits
  obtain ⟨m', hm', hp', hc'⟩ := l.run_ok hm₁ h₁
  rw [Nat.zero_add, ← Lifetime.numNodes, ← hc'] at hstep
  refine ⟨m', hm', hp', ?_⟩
  generalize l.numNodes = n at hstep
  cases hstep with
  | unallocated hc => exact ⟨fun _ => hc, fun hn => absurd hn (by decide)⟩
  | uncounted hc => exact ⟨fun _ => .inl hc, fun hn => absurd hn (by decide)⟩
  | counted hn hlo hkn hnk hsmall =>
    rw [← hn]
    exact ⟨fun hle => .inr (hsmall hle), fun hlt => Nat.lt_of_lt_of_le hlt hkn⟩

theorem Lifetime.run_ahead (l : Lifetime) (hp : m.pool = none)
    (hc : 4096 < m.numNodesListings.toNat) :
    (l.numNodes ≤ 4096 → ∃ m', l.run m = (.ok (), m') ∧ m'.pool = none ∧
      4096 < m'.numNodesListings.toNat) ∧
    (4096 < l.numNodes → (l.run m).1 = .error (.outOfListing 4096)) := by
  have hstart := filling_restarted hp
  constructor
  · intro hle
    obtain ⟨m₁, slots, off, hm₁, h₁⟩ :=
      hstart.allocCalls_ahead (.unallocated hc) l.ids l.fits (by rwa [Nat.zero_add])
    obtain ⟨m', hm', hp', hc'⟩ := l.run_ok hm₁ h₁
    exact ⟨m', hm', hp', by rwa [hc']⟩
  · intro hlt
    exact l.run_error (hstart.allocCalls_outOfListing (.unallocated hc) l.ids l.fits
      (Nat.zero_le _) (by rwa [Nat.zero_add]))

theorem lifetimes_cons (ls : List Lifetime) (hok : Lifetime.run l m = (.ok (), m')) :
    lifetimes (l :: ls) m = lifetimes ls m' := by
  rw [lifetimes, hok]

theorem lifetimes_error (ls : List Lifetime) (he : (Lifetime.run l m).1 = .error e) :
    (lifetimes (l :: ls) m).1 = .error e := by
  have hrun : l.run m = (_, _) := Prod.ext he rfl
  rw [lifetimes, hrun]

theorem lifetimes_ahead (ls : List Lifetime) (hp : m.pool = none)
    (hc : 4096 < m.numNodesListings.toNat) :
    (∀ i, (lifetimes ls m).1 ≠ .error (.outOfListing i)) ↔ ∀ l ∈ ls, l.numNodes ≤ 4096 := by
  induction ls generalizing m with
  | nil => simp [lifetimes]
  | cons l ls ih =>
    obtain ⟨hsmall, hlarge⟩ := l.run_ahead hp hc
    rw [List.forall_mem_cons]
    by_cases hle : l.numNodes ≤ 4096
    · obtain ⟨m', hm', hp', hc'⟩ := hsmall hle
      rw [lifetimes_cons ls hm', ih hp' hc', and_iff_right hle]
    · have he := lifetimes_error ls (hlarge (Nat.not_le.1 hle))
      apply Iff.intro
      · intro h
        exact absurd he (h 4096)
      · intro hx
        exact absurd hx.1 hle

theorem lifetimes_inStep (ls : List Lifetime) (hp : m.pool = none)
    (hc : m.numNodesListings.toNat = 0 ∨ m.numNodesListings.toNat = 4096) :
    (∀ i, (lifetimes ls m).1 ≠ .error (.outOfListing i)) ↔
      ls.Pairwise fun a b => a.numNodes ≤ 4096 ∨ b.numNodes ≤ 4096 := by
  induction ls generalizing m with
  | nil => simp [lifetimes]
  | cons l ls ih =>
    obtain ⟨m', hm', hp', hsmall, hlarge⟩ := l.run_inStep hp hc
    rw [lifetimes_cons ls hm', List.pairwise_cons]
    by_cases hle : l.numNodes ≤ 4096
    · have hothers : ∀ b ∈ ls, l.numNodes ≤ 4096 ∨ b.numNodes ≤ 4096 := fun _ _ => .inl hle
      rw [ih hp' (hsmall hle), and_iff_right hothers]
    · rw [lifetimes_ahead ls hp' (hlarge (Nat.not_le.1 hle))]
      apply Iff.intro
      · intro hall
        exact ⟨fun b hb => .inr (hall b hb), List.pairwise_of_forall_mem_list
          fun a ha b hb => .inl (hall a ha)⟩
      · intro hx b hb
        exact (hx.1 b hb).resolve_left hle

/-- No build of a run writes past the end of its listing if and only if at most one of them has
more nodes than the first allocation has slots. -/
theorem lifetimes_inListing_iff (ls : List Lifetime) :
    (∀ i, (lifetimes ls MemGraph.initial).1 ≠ .error (.outOfListing i)) ↔
      ls.Pairwise fun a b => a.numNodes ≤ 4096 ∨ b.numNodes ≤ 4096 :=
  lifetimes_inStep ls rfl (.inl rfl)

theorem idsFrom_leaves (h : k + n ≤ 2 ^ 64) :
    IdsFrom k ((List.range' k n).map fun i => AllocCall.leaf (UInt64.ofNat i)) := by
  induction n generalizing k with
  | zero => trivial
  | succ n ih =>
    rw [List.range'_succ, List.map_cons]
    refine ⟨?_, ih (by omega)⟩
    rw [AllocCall.leaf, UInt64.toNat_ofNat', Nat.mod_eq_of_lt (by omega)]

/-- A build of 4097 nodes without edges. -/
def leavesLifetime : Lifetime where
  calls := (List.range' 0 4097).map fun i => AllocCall.leaf (UInt64.ofNat i)
  ids := idsFrom_leaves (by decide)
  fits := by
    have hsize : extent AllocCall.size
        ((List.range' 0 4097).map fun i => AllocCall.leaf (UInt64.ofNat i)) = 4097 * 24 := by
      have hconst := extent_const 24 (List.range' 0 4097)
      rw [List.length_range'] at hconst
      rw [extent, List.map_map]
      exact hconst
    rw [hsize]
    decide

/-- In the second of two such builds the count is ahead, and the listing is too short by one. -/
theorem leavesLifetimes_outOfListing :
    ¬∀ ls i, (lifetimes ls MemGraph.initial).1 ≠ .error (.outOfListing i) := by
  intro h
  have hnodes : leavesLifetime.numNodes = 4097 := by
    rw [Lifetime.numNodes, leavesLifetime, List.length_map, List.length_range']
  obtain ⟨m', hm', hp', -, hlarge⟩ :=
    leavesLifetime.run_inStep (m := MemGraph.initial) rfl (.inl rfl)
  obtain ⟨-, hfull⟩ := leavesLifetime.run_ahead hp' (hlarge (by rw [hnodes]; decide))
  apply h [leavesLifetime, leavesLifetime] 4096
  rw [lifetimes_cons _ hm']
  exact lifetimes_error _ (hfull (by rw [hnodes]; decide))

end LibcSandbox
