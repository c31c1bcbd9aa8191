import LibcSandbox.MemGraph.Pool
import LibcSandbox.Pass.Weave

namespace LibcSandbox
open Library
set_option autoImplicit true

variable {r : FileToMapReader} {size : Nat}

def InjectedCall.isInit : InjectedCall → Bool
  | .sandboxInit _ => true
  | _ => false

def InjectedCall.isDummycall : InjectedCall → Bool
  | .sandboxDummycall _ => true
  | _ => false

def InjectedCall.isCleanup : InjectedCall → Bool
  | .sandboxCleanup => true
  | _ => false

/-- The system calls made in an execution. -/
def events (w : List Instrumented) : List InjectedCall := w.filterMap Instrumented.event

/-- The sandbox is set up once, before all calls, and taken down once, after all calls. -/
structure WellShaped (w : List InjectedCall) : Prop where
  oneInit : w.countP InjectedCall.isInit = 1
  oneCleanup : w.countP InjectedCall.isCleanup = 1
  initFirst : ∀ u c v, w = u ++ c :: v → c.isInit = true → ∀ d ∈ u, d.isDummycall = false
  cleanupLast : ∀ u c v, w = u ++ c :: v → c.isCleanup = true → ∀ d ∈ v, d.isDummycall = false

/-- An execution of the program itself, where a function is entered once whose name starts like the
one of the main function, and the last instruction of such a function, in the order of the blocks
and without the returns, is passed once and no library function is called from there on. -/
structure PassesOnce (r : FileToMapReader) (w : List Point) : Prop where
  entry : w.countP Point.isEntry = 1
  cleanup : w.countP Point.isCleanup = 1
  last : ∀ u p v, w = u ++ p :: v → p.isCleanup = true → ∀ q ∈ v, q.dummycalls r = []

def Point.control (p : Point) : Control := p.instruction.control

theorem events_weave (w : List Point) :
    events (w.flatMap (weave r size)) = w.flatMap (Point.syscalls r size) := by
  rw [events, List.filterMap_flatMap]
  apply List.flatMap_congr
  intro p _
  have hcalls (calls : List InjectedCall) :
      (calls.map Instrumented.syscall).filterMap Instrumented.event = calls := by
    rw [List.filterMap_map]
    exact List.filterMap_some
  rw [weave, withSyscalls, List.filterMap_append, hcalls]
  exact List.append_nil _

theorem weaves (r : FileToMapReader) (size : Nat) :
    Weaves Point.control Instrumented.control (weave r size) := by
  intro p
  refine ⟨_, _, rfl, ?_, rfl⟩
  intro x hx
  obtain ⟨c, -, rfl⟩ := List.mem_map.1 hx
  rfl

theorem countP_split {P : α → Bool} (h : (u ++ x :: v).countP P = 1) (hx : P x = true) :
    (∀ y ∈ u, P y = false) ∧ ∀ y ∈ v, P y = false := by
  rw [List.countP_append, List.countP_cons, if_pos hx] at h
  have hu : u.countP P = 0 := by omega
  have hv : v.countP P = 0 := by omega
  simp only [List.countP_eq_zero, Bool.not_eq_true] at hu hv
  exact ⟨hu, hv⟩

theorem split_unique {P : α → Bool} (h : (u ++ x :: v).countP P = 1) (hx : P x = true)
    (heq : u ++ x :: v = u' ++ x' :: v') (hx' : P x' = true) : u' = u ∧ x' = x ∧ v' = v := by
  obtain ⟨hu, -⟩ := countP_split h hx
  rw [heq] at h
  obtain ⟨hu', -⟩ := countP_split h hx'
  rcases append_cons_cases heq with ⟨rfl, rfl, rfl⟩ | ⟨hmem, -⟩ | ⟨hmem, -⟩
  · exact ⟨rfl, rfl, rfl⟩
  · rw [hu' x hmem] at hx
    cases hx
  · rw [hu x' hmem] at hx'
    cases hx'

theorem countP_flatMap_eq {P : β → Bool} {Q : α → Bool} {f : α → List β}
    (h : ∀ x, (f x).countP P = if Q x then 1 else 0) (w : List α) :
    (w.flatMap f).countP P = w.countP Q := by
  induction w with
  | nil => rfl
  | cons x w ih =>
    rw [List.flatMap_cons, List.countP_append, ih, h, List.countP_cons, Nat.add_comm]

theorem dummycalls_isDummycall (p : Point) : ∀ c ∈ p.dummycalls r, c.isDummycall = true ∧
    c.isInit = false ∧ c.isCleanup = false := by
  intro c hc
  rw [Point.dummycalls] at hc
  split at hc
  · cases hc
  · unfold FileToMapReader.dummycallBefore at hc
    split at hc
    · split at hc
      · rw [List.mem_singleton.1 hc]
        exact ⟨rfl, rfl, rfl⟩
      · cases hc
    · cases hc

theorem countP_syscalls_init (p : Point) :
    (p.syscalls r size).countP InjectedCall.isInit = if p.isEntry then 1 else 0 := by
  have hd : (p.dummycalls r).countP InjectedCall.isInit = 0 := by
    rw [List.countP_eq_zero]
    intro c hc
    rw [(dummycalls_isDummycall p c hc).2.1]
    exact Bool.false_ne_true
  rw [Point.syscalls]
  cases p.isEntry <;> cases p.isCleanup <;> cases p.instruction.isReturnInst <;>
    simp [hd, InjectedCall.isInit, List.countP_cons]

theorem countP_syscalls_cleanup (p : Point) :
    (p.syscalls r size).countP InjectedCall.isCleanup = if p.isCleanup then 1 else 0 := by
  have hd : (p.dummycalls r).countP InjectedCall.isCleanup = 0 := by
    rw [List.countP_eq_zero]
    intro c hc
    rw [(dummycalls_isDummycall p c hc).2.2]
    exact Bool.false_ne_true
  rw [Point.syscalls]
  cases p.isEntry <;> cases p.isCleanup <;> cases p.instruction.isReturnInst <;>
    simp [hd, InjectedCall.isCleanup, List.countP_cons]

/-- No call of a library function is announced at the start before the sandbox is set up, or
anywhere after it is taken down. -/
theorem syscalls_init (r : FileToMapReader) (size : Nat) {p : Point} (h : p.isEntry = true) :
    ∃ before after, p.syscalls r size = before ++ .sandboxInit size :: after ∧
      ∀ c ∈ before, c.isDummycall = false := by
  rw [Point.syscalls, h]
  cases p.instruction.isReturnInst with
  | true =>
    refine ⟨if p.isCleanup then [.sandboxCleanup] else [], [], rfl, ?_⟩
    intro c hc
    split at hc
    · rw [List.mem_singleton.1 hc]
      rfl
    · cases hc
  | false => exact ⟨[], _, rfl, by simp⟩

theorem syscalls_cleanup (r : FileToMapReader) (size : Nat) {p : Point} (h : p.isCleanup = true) :
    ∃ before after, p.syscalls r size = before ++ .sandboxCleanup :: after ∧
      ∀ c ∈ after, c.isDummycall = false := by
  rw [Point.syscalls, h]
  cases p.instruction.isReturnInst with
  | true =>
    refine ⟨[], if p.isEntry then [.sandboxInit size] else [], rfl, ?_⟩
    intro c hc
    split at hc
    · rw [List.mem_singleton.1 hc]
      rfl
    · cases hc
  | false => exact ⟨_, [], rfl, by simp⟩

theorem mem_syscalls_dummycall {p : Point} {c : InjectedCall} (h : c.isDummycall = true) :
    c ∈ p.syscalls r size ↔ c ∈ p.dummycalls r := by
  have hno : c ≠ .sandboxInit size ∧ c ≠ .sandboxCleanup := by
    constructor
    · rintro rfl
      cases h
    · rintro rfl
      cases h
  rw [Point.syscalls]
  cases hret : p.instruction.isReturnInst with
  | true =>
    rw [Point.dummycalls_return hret]
    cases p.isEntry <;> cases p.isCleanup <;> simp [hno]
  | false => cases p.isEntry <;> cases p.isCleanup <;> simp [hno]

theorem no_dummycalls_iff (size : Nat) (w : List Point) :
    (∀ c ∈ w.flatMap (Point.syscalls r size), c.isDummycall = false) ↔
      ∀ p ∈ w, p.dummycalls r = [] := by
  apply Iff.intro
  · intro h p hp
    apply List.eq_nil_iff_forall_not_mem.2
    intro c hc
    have hd := (dummycalls_isDummycall p c hc).1
    rw [h c (List.mem_flatMap.2 ⟨p, hp, (mem_syscalls_dummycall hd).2 hc⟩)] at hd
    cases hd
  · intro h c hc
    obtain ⟨p, hp, hc⟩ := List.mem_flatMap.1 hc
    by_contra hd
    rw [Bool.not_eq_false] at hd
    rw [mem_syscalls_dummycall hd, h p hp] at hc
    cases hc

theorem flatMap_split {f : α → List β} {w : List α} (hw : w = u ++ x :: v)
    (hx : f x = before ++ y :: after) :
    w.flatMap f = (u.flatMap f ++ before) ++ y :: (after ++ v.flatMap f) := by
  rw [hw, List.flatMap_append, List.flatMap_cons, hx]
  simp only [List.append_assoc, List.cons_append]

theorem wellShaped_iff {p : Point} (hp : p.isEntry = true) (w : List Point) :
    WellShaped ((p :: w).flatMap (Point.syscalls r size)) ↔ PassesOnce r (p :: w) := by
  have hinits : ((p :: w).flatMap (Point.syscalls r size)).countP InjectedCall.isInit =
      (p :: w).countP Point.isEntry := countP_flatMap_eq countP_syscalls_init _
  have hcleanups : ((p :: w).flatMap (Point.syscalls r size)).countP InjectedCall.isCleanup =
      (p :: w).countP Point.isCleanup := countP_flatMap_eq countP_syscalls_cleanup _
  apply Iff.intro
  · intro h
    refine ⟨hinits.symm.trans h.oneInit, hcleanups.symm.trans h.oneCleanup, ?_⟩
    intro u q v hw hq
    obtain ⟨before, after, hsyscalls, -⟩ := syscalls_cleanup r size hq
    have hlast := h.cleanupLast _ _ _ (flatMap_split hw hsyscalls) rfl
    apply (no_dummycalls_iff size v).1
    intro c hc
    exact hlast c (List.mem_append_right _ hc)
  · intro h
    have hone : ((p :: w).flatMap (Point.syscalls r size)).countP InjectedCall.isInit = 1 :=
      hinits.trans h.entry
    have hone' : ((p :: w).flatMap (Point.syscalls r size)).countP InjectedCall.isCleanup = 1 :=
      hcleanups.trans h.cleanup
    refine ⟨hone, hone', ?_, ?_⟩
    · intro u c v hw hc
      obtain ⟨before, after, hsyscalls, hbefore⟩ := syscalls_init r size hp
      have hstart : p :: w = [] ++ p :: w := rfl
      rw [flatMap_split hstart hsyscalls] at hone hw
      obtain ⟨rfl, -, -⟩ := split_unique hone rfl hw hc
      exact hbefore
    · intro u c v hw hc
      have hpos : 0 < (p :: w).countP Point.isCleanup := by
        rw [h.cleanup]
        exact Nat.one_pos
      obtain ⟨q, hmem, hq⟩ := List.countP_pos_iff.1 hpos
      obtain ⟨u', v', hw'⟩ := List.append_of_mem hmem
      obtain ⟨before, after, hsyscalls, hafter⟩ := syscalls_cleanup r size hq
      rw [flatMap_split hw' hsyscalls] at hone' hw
      obtain ⟨-, -, rfl⟩ := split_unique hone' rfl hw hc
      intro d hd
      rcases List.mem_append.1 hd with hd | hd
      · exact hafter d hd
      · exact (no_dummycalls_iff size v').2 (h.last u' q v' hw' hq) d hd

/-- The executions of a function of the program, with the places they pass. -/
def Executes (m : List IRFunction) (f : IRFunction) (w : List Point) : Prop :=
  Run Point.control (m.map fun f => locate f.code) (.routines [locate f.code]) w

theorem Executes.cons {m : List IRFunction} (h : Executes m f w) (hname : f.name = "main") :
    ∃ p w', w = p :: w' ∧ p.isEntry = true := by
  cases h with
  | @routine _ block u _ v hblock hrun hrest =>
    cases hrest
    rw [List.append_nil]
    rw [locate, List.getElem?_mapIdx, Option.map_eq_some_iff] at hblock
    obtain ⟨bb, hbb, rfl⟩ := hblock
    cases bb with
    | nil => exact absurd hrun not_run_empty
    | cons i bb =>
      have hentry : Point.isEntry ⟨f.code, 0, 0, i⟩ = true := by
        have hcode : f.code.name = "main" := hname
        rw [Point.isEntry, hcode]
        rfl
      rw [locateBlock, List.mapIdx_cons] at hrun
      obtain ⟨w', rfl⟩ := hrun.cons
      exact ⟨_, w', rfl, hentry⟩

/-- The executions of the main function that comes out have the right shape exactly where the
execution of the program itself passes the two places once. -/
theorem instrument_wellShaped_iff {m : List IRFunction} {m' : List (Routine Instrumented)}
    (h : r.instrument size (m.map IRFunction.code) = some m') {main' : Routine Instrumented}
    (hmain : main' ∈ m') (hname : main'.name = "main") {w : List Instrumented}
    (hrun : Run Instrumented.control m' (.routines [main']) w) :
    ∃ main ∈ m, main.name = "main" ∧
      (∃ τ, Executes m main τ ∧ w = τ.flatMap (weave r size)) ∧
      ∀ τ, Executes m main τ → w = τ.flatMap (weave r size) →
        (WellShaped (events w) ↔ PassesOnce r τ) := by
  rw [FileToMapReader.instrument_eq, Option.some.injEq] at h
  subst h
  rw [List.map_map, List.mem_map] at hmain
  obtain ⟨main, hmem, rfl⟩ := hmain
  obtain ⟨τ, hτ, hw⟩ := (run_flatMap_iff (weaves _ _) (.routines [locate main.code]) w).1 hrun
  refine ⟨main, hmem, hname, ⟨τ, hτ, hw⟩, ?_⟩
  intro τ' hτ' hw'
  obtain ⟨p, w', rfl, hp⟩ := Executes.cons hτ' hname
  rw [hw', events_weave]
  exact wellShaped_iff hp w'

def callPuts : Instruction := .call (some ⟨"puts", false, true⟩)

/-- A main function that prints a line. -/
def helloMain : IRFunction where
  name := "main"
  blocks := [⟨[callPuts, .ret], [callPuts], .ret, rfl, rfl, by decide⟩]

/-- A main function that ends early or prints a line, in this order of the blocks. -/
def earlyReturnMain : IRFunction where
  name := "main"
  blocks := [⟨[.other, .branch [1, 2]], [.other], .branch [1, 2], rfl, rfl, by decide⟩,
    ⟨[.ret], [], .ret, rfl, rfl, by decide⟩,
    ⟨[callPuts, .ret], [callPuts], .ret, rfl, rfl, by decide⟩]

def point (f : IRFunction) (block index : Nat) (i : Instruction) : Point :=
  ⟨f.code, block, index, i⟩

def helloRun : List Point := [point helloMain 0 0 callPuts, point helloMain 0 1 .ret]

theorem helloRun_executes : Executes [helloMain] helloMain helloRun := by
  apply Run.routine (u := helloRun) (v := []) rfl _ .nil
  apply Run.instruction (u := []) _ .nil (.ret rfl)
  apply mayCall_nil
  decide

theorem helloRun_passesOnce : PassesOnce putsReader helloRun := by
  refine ⟨by decide +kernel, by decide +kernel, ?_⟩
  intro u p v hw hp q hq
  have hsplit : u = [] ∧ p = point helloMain 0 0 callPuts ∧ v = [point helloMain 0 1 .ret] :=
    split_unique (P := Point.isCleanup) (u := []) (v := [point helloMain 0 1 .ret])
      (by decide +kernel) (by decide +kernel) hw hp
  rw [hsplit.2.2, List.mem_singleton] at hq
  rw [hq]
  rfl

/-- The branch to the return that comes first in the order of the blocks. -/
def earlyReturnRun : List Point :=
  [point earlyReturnMain 0 0 .other, point earlyReturnMain 0 1 (.branch [1, 2]),
    point earlyReturnMain 1 0 .ret]

theorem earlyReturnRun_executes : Executes [earlyReturnMain] earlyReturnMain earlyReturnRun := by
  apply Run.routine (u := earlyReturnRun) (v := []) rfl _ .nil
  apply Run.instruction (u := []) _ .nil
  · exact .branch rfl List.mem_cons_self rfl (.ret rfl)
  · rfl

theorem helloMain_wellShaped :
    ∃ m' main' w, putsReader.instrument memoryPoolSize [helloMain.code] = some m' ∧
      main' ∈ m' ∧ Run Instrumented.control m' (.routines [main']) w ∧ WellShaped (events w) := by
  have hm := putsReader.instrument_eq memoryPoolSize [helloMain]
  have hrun := helloRun_executes.flatMap (weaves putsReader memoryPoolSize)
  obtain ⟨main, hmain, -, -, hiff⟩ :=
    instrument_wellShaped_iff hm List.mem_cons_self rfl hrun
  refine ⟨_, _, _, hm, List.mem_cons_self, hrun, ?_⟩
  rw [List.mem_singleton] at hmain
  subst hmain
  exact (hiff helloRun helloRun_executes rfl).2 helloRun_passesOnce

/-- A main function that ends early never takes the sandbox down. -/
theorem earlyReturnMain_not_wellShaped :
    ∃ m' main' w, putsReader.instrument memoryPoolSize [earlyReturnMain.code] = some m' ∧
      main' ∈ m' ∧ main'.name = "main" ∧ Run Instrumented.control m' (.routines [main']) w ∧
      events w = [.sandboxInit memoryPoolSize] ∧ ¬WellShaped (events w) := by
  have hm := putsReader.instrument_eq memoryPoolSize [earlyReturnMain]
  have hrun := earlyReturnRun_executes.flatMap (weaves putsReader memoryPoolSize)
  have hevents : events (earlyReturnRun.flatMap (weave putsReader memoryPoolSize)) =
      [.sandboxInit memoryPoolSize] := by
    decide +kernel
  refine ⟨_, _, _, hm, List.mem_cons_self, rfl, hrun, hevents, ?_⟩
  intro h
  rw [hevents] at h
  exact absurd h.oneCleanup (by decide)

end LibcSandbox
