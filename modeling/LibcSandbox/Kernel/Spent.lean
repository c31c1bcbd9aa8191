import LibcSandbox.Kernel.Compiled

namespace LibcSandbox
open Library
set_option autoImplicit true

variable {G : Graaf} {k : Kernel} {r r' : FileToMapReader} {m m' : IRModule}
  {out out' : PassOutput G} {hash : String → UInt64} {result : InitResult}
  {results : Nat → InitResult}

/-- The sandbox is taken down after it has been set up. -/
def TakesDown (w : List InjectedCall) : Prop := .sandboxCleanup ∈ w.dropWhile fun c => !c.isInit

theorem mem_of_cleanup {w : List InjectedCall} (h : .sandboxCleanup ∈ c :: w)
    (hc : c.isCleanup = false) : .sandboxCleanup ∈ w := by
  rcases List.mem_cons.1 h with rfl | h
  · cases hc
  · exact h

theorem Owned.init_held (ho : Owned k) {c : InitCall} (hd : c.Checked data)
    (hm : c.kmallocOk = true) (hc : c.copyOk = true) : Held (sandboxInit c k).2 := by
  have hr := ho.init_replaced hd
  generalize sandboxInit c k = x at hr
  cases hr with
  | noMemory hm' => cases hm.symm.trans hm'
  | noCopy _ hc' => cases hc.symm.trans hc'
  | @copied a heap _ _ ha =>
    obtain ⟨hheap, hbuffer⟩ := initializeAndReset_frame data c.size.toNat
      { k with heap := heap, kernelBuffer := some a }
    exact Held.of_frame ⟨a, rfl, ha⟩ hheap hbuffer

theorem frees_init (data : Bytes) (result : InitResult) :
    (InjectedCall.syscall data result (.sandboxInit memoryPoolSize)).Frees := by
  have hsize : UInt64.ofNat memoryPoolSize ≠ 0 := by decide
  exact ⟨data, hsize, rfl⟩

theorem Owned.opened (ho : Owned k) {data : Bytes} (hr : result.Succeeds)
    (hk : k.returned (InjectedCall.syscall data result (.sandboxInit memoryPoolSize)) = some k') :
    Held k' := by
  obtain ⟨data', hd⟩ := frees_init data result
  rw [returned_step hk]
  exact ho.init_held hd hr.kmalloc hr.copy

theorem Spent.run (h : Spent k) (hrun : Library.run Kernel.returned k cs = some k') : Spent k' := by
  induction cs generalizing k with
  | nil =>
    cases hrun
    exact h
  | cons c cs ih =>
    rw [Library.run, Option.bind_eq_some_iff] at hrun
    obtain ⟨k₁, hk₁, hrun⟩ := hrun
    apply ih _ hrun
    rw [returned_step hk₁]
    exact (h.exec c).1

/-- Where every set up succeeds, the buffer of a process is freed when it takes the sandbox down,
and not forgotten, so that only library functions can be called from then on. -/
theorem Held.closesLast (h : Held k) (data : Bytes) {w : List (InjectedCall × InitResult)}
    (hw : ∀ c ∈ w, ∀ n, c.1 = .sandboxInit n → n = memoryPoolSize)
    (hres : ∀ c ∈ w, c.2.Succeeds)
    (hrun : run Kernel.returned k (kernelCalls data w) = some k') :
    ClosesLast (w.map Prod.fst) ∧ (.sandboxCleanup ∈ w.map Prod.fst → Spent k') := by
  induction w generalizing k with
  | nil =>
    refine ⟨closesLast_of_dummycalls (List.forall_mem_nil _), ?_⟩
    intro hdown
    exact absurd hdown List.not_mem_nil
  | cons c w ih =>
    rw [kernelCalls_cons, run, Option.bind_eq_some_iff] at hrun
    obtain ⟨k₁, hk₁, hrun⟩ := hrun
    obtain ⟨call, result⟩ := c
    obtain ⟨hr, hres'⟩ := List.forall_mem_cons.1 hres
    have hw' : ∀ c ∈ w, ∀ n, c.1 = .sandboxInit n → n = memoryPoolSize :=
      fun c hc => hw c (List.mem_cons_of_mem _ hc)
    rw [List.map_cons, closesLast_cons]
    cases call with
    | sandboxInit n =>
      cases hw _ List.mem_cons_self n rfl
      obtain ⟨hlast, hspent⟩ := ih (h.owned.opened hr hk₁) hw' hres' hrun
      refine ⟨⟨?_, hlast⟩, fun hdown => hspent (mem_of_cleanup hdown rfl)⟩
      intro he
      cases he
    | sandboxDummycall number =>
      obtain ⟨hheap, hbuffer⟩ := sandboxDummycall_frame number k
      obtain ⟨hlast, hspent⟩ := ih (returned_step hk₁ ▸ h.of_frame hheap hbuffer) hw' hres' hrun
      refine ⟨⟨?_, hlast⟩, fun hdown => hspent (mem_of_cleanup hdown rfl)⟩
      intro he
      cases he
    | sandboxCleanup =>
      obtain ⟨heap, hcleanup, hspent⟩ := h.cleanup
      cases hk₁.symm.trans (returned_eq_some (c := .cleanup) hcleanup)
      have hclean := (runsClean_iff_run _ _).2 (Option.isSome_of_eq_some hrun)
      have hcalls : ∀ d ∈ w.map Prod.fst, d.isDummycall = true := by
        rw [List.forall_mem_map]
        rintro ⟨call, result⟩ hd
        have hmem : call.syscall data result ∈ kernelCalls data w := List.mem_map_of_mem hd
        cases call with
        | sandboxInit n =>
          cases hw' _ hd n rfl
          exact absurd hclean (hspent.not_runsClean hmem (frees_init data result))
        | sandboxDummycall number => rfl
        | sandboxCleanup => exact absurd hclean (hspent.not_runsClean hmem trivial)
      exact ⟨⟨fun _ => hcalls, closesLast_of_dummycalls hcalls⟩, fun _ => hspent.run hrun⟩

/-- After its first set up a clean execution takes the sandbox down only where nothing but library
functions is called any more, and leaves the buffer freed. -/
theorem PassOutput.opened (out : PassOutput G) {main : IRFunction} {τ : List Point}
    (hname : main.name = "main") (hrun : Executes (m.functions.map ModuleFunction.ir) main τ)
    (ho : Owned k) (hres : ∀ i, (results i).Succeeds)
    (h : RunsClean (out.syscalls results (τ.flatMap (weave r memoryPoolSize))) k) :
    events (τ.flatMap (weave r memoryPoolSize)) =
        [.sandboxCleanup, .sandboxInit memoryPoolSize] ∨
      ∃ w, events (τ.flatMap (weave r memoryPoolSize)) = .sandboxInit memoryPoolSize :: w ∧
        ClosesLast w ∧ (.sandboxCleanup ∈ w →
          Spent (makeCalls (out.syscalls results (τ.flatMap (weave r memoryPoolSize))) k).2) := by
  obtain ⟨w, hw, -, heq | ⟨rfl, heq⟩⟩ := events_cases (r := r) hname hrun
  · right
    refine ⟨w, heq, ?_⟩
    obtain ⟨k', hk'⟩ := Option.isSome_iff_exists.1 ((runsClean_iff_run _ k).1 h)
    rw [makeCalls_of_run hk']
    rw [PassOutput.syscalls, heq, answered_cons, kernelCalls_cons, run,
      Option.bind_eq_some_iff] at hk'
    obtain ⟨k₁, hk₁, hk'⟩ := hk'
    have hlast := (ho.opened (hres 0) hk₁).closesLast out.data
      (fun c hc n hn => hw n (hn ▸ fst_mem_of_mem_answered hc))
      (fun c hc => succeeds_of_mem_answered (fun i => hres (i + 1)) hc) hk'
    rwa [map_fst_answered] at hlast
  · exact .inl heq

theorem PassOutput.spent (out : PassOutput G) {main : IRFunction} {τ : List Point}
    (hname : main.name = "main") (hrun : Executes (m.functions.map ModuleFunction.ir) main τ)
    (hdown : TakesDown (events (τ.flatMap (weave r memoryPoolSize)))) (ho : Owned k)
    (hres : ∀ i, (results i).Succeeds)
    (h : RunsClean (out.syscalls results (τ.flatMap (weave r memoryPoolSize))) k) :
    Spent (makeCalls (out.syscalls results (τ.flatMap (weave r memoryPoolSize))) k).2 := by
  rcases out.opened hname hrun ho hres h with heq | ⟨w, heq, -, hspent⟩
  · rw [heq, TakesDown] at hdown
    cases mem_of_cleanup hdown rfl
  · rw [heq, TakesDown] at hdown
    exact hspent (mem_of_cleanup hdown rfl)

/-- The first system call of a program frees what is in `kernel_buffer`. -/
theorem PassOutput.syscalls_frees (out : PassOutput G) {main : IRFunction} {τ : List Point}
    (hname : main.name = "main") (hrun : Executes (m.functions.map ModuleFunction.ir) main τ)
    (results : Nat → InitResult) : ∃ c cs,
    out.syscalls results (τ.flatMap (weave r memoryPoolSize)) = c :: cs ∧ c.Frees := by
  obtain ⟨w, -, -, heq | ⟨-, heq⟩⟩ := events_cases (r := r) hname hrun
  · rw [PassOutput.syscalls, heq, answered_cons, kernelCalls_cons]
    exact ⟨_, _, rfl, frees_init _ _⟩
  · rw [PassOutput.syscalls, heq, answered_cons, kernelCalls_cons]
    exact ⟨_, _, rfl, trivial⟩

/-- Once a program has set up its sandbox, taken it down and run clean, the next call that comes as
far as a `kfree` frees the buffer a second time, whoever makes it. The first system call of every
program is such a call. -/
theorem programs_free_twice {main main' : IRFunction} {τ τ' : List Point}
    (hname : main.name = "main") (hrun : Executes (m.functions.map ModuleFunction.ir) main τ)
    (hdown : TakesDown (events (τ.flatMap (weave r memoryPoolSize)))) (ho : Owned k)
    (hres : ∀ i, (results i).Succeeds)
    (hclean : RunsClean (out.syscalls results (τ.flatMap (weave r memoryPoolSize))) k)
    (hname' : main'.name = "main")
    (hrun' : Executes (m'.functions.map ModuleFunction.ir) main' τ') (results' : Nat → InitResult)
    (cs : List Syscall) (hcs : ∀ c ∈ cs, ¬c.Frees) :
    let k' := (makeCalls (out.syscalls results (τ.flatMap (weave r memoryPoolSize))) k).2
    (∃ a, k'.kernelBuffer = some a ∧ ∀ c : Syscall, c.Frees →
      (c.exec (cs.foldl Kernel.step k')).1 = .error (.doubleFree a)) ∧
      ∃ c cs', out'.syscalls results' (τ'.flatMap (weave r' memoryPoolSize)) = c :: cs' ∧
        c.Frees := by
  intro k'
  refine ⟨?_, out'.syscalls_frees hname' hrun' results'⟩
  have hspent : Spent k' := out.spent hname hrun hdown ho hres hclean
  obtain ⟨hheap, hbuffer⟩ := foldl_step_frame hcs k'
  obtain ⟨a, ha, hlive⟩ := hspent
  refine ⟨a, ha, fun c hc => ?_⟩
  obtain ⟨b, hb, htwice⟩ := (Spent.exec (Spent.of_frame ⟨a, ha, hlive⟩ hheap hbuffer) c).2 hc
  cases (hb.symm.trans hbuffer).trans ha
  exact htwice

/-- The loop, run twice. -/
theorem loopModule_frees_twice : ∃ out : PassOutput listGraaf,
    firstReader.runOnModule (fun _ => 1) (fun _ => 0) (fun _ => 0) loopModule = .ok out ∧
      let calls := out.syscalls (fun _ => .done)
        ((loopRun 0).flatMap (weave firstReader memoryPoolSize))
      RunsClean calls .boot ∧ ∃ c cs a, calls = c :: cs ∧
        (c.exec (Kernel.step (makeCalls calls .boot).2 (.dummycall 1))).1 =
          .error (.doubleFree a) := by
  obtain ⟨out, hout, -, hfirst⟩ := loopModule_first
  have hname : loopMain.ir.name = "main" := rfl
  have hdown : TakesDown (events ((loopRun 0).flatMap (weave firstReader memoryPoolSize))) := by
    rw [TakesDown]
    decide +kernel
  have hrun : Executes (loopModule.functions.map ModuleFunction.ir) loopMain.ir (loopRun 0) :=
    loopRun_executes 0
  obtain ⟨⟨a, -, htwice⟩, c, cs, heq, hc⟩ : _ ∧ ∃ c cs,
      out.syscalls (fun _ => .done) ((loopRun 0).flatMap (weave firstReader memoryPoolSize)) =
        c :: cs ∧ c.Frees :=
    programs_free_twice hname hrun hdown owned_boot (fun _ => InitResult.done_succeeds) hfirst
      hname hrun (fun _ => .done) [.dummycall 1] (List.forall_mem_singleton.2 id)
  exact ⟨out, hout, hfirst, c, cs, a, heq, htwice c hc⟩

theorem ClosesLast.countP_le {w : List InjectedCall} (h : ClosesLast w) :
    w.countP InjectedCall.isCleanup ≤ 1 := by
  induction w with
  | nil => exact Nat.zero_le _
  | cons c w ih =>
    rw [closesLast_cons] at h
    rw [List.countP_cons]
    cases c with
    | sandboxInit n => exact ih h.2
    | sandboxDummycall number => exact ih h.2
    | sandboxCleanup =>
      have hrest : w.countP InjectedCall.isCleanup = 0 := by
        rw [List.countP_eq_zero]
        intro d hd
        have hcall := h.1 rfl d hd
        cases d with
        | sandboxDummycall number => exact Bool.false_ne_true
        | sandboxInit n => cases hcall
        | sandboxCleanup => cases hcall
      rw [hrest]
      exact Nat.le_refl _

theorem PassOutput.countP_cleanup_le (out : PassOutput G) {main : IRFunction} {τ : List Point}
    (hname : main.name = "main") (hrun : Executes (m.functions.map ModuleFunction.ir) main τ)
    (ho : Owned k) (hres : ∀ i, (results i).Succeeds)
    (h : RunsClean (out.syscalls results (τ.flatMap (weave r memoryPoolSize))) k) :
    (events (τ.flatMap (weave r memoryPoolSize))).countP InjectedCall.isCleanup ≤ 1 := by
  rcases out.opened hname hrun ho hres h with heq | ⟨w, heq, hlast, -⟩
  · rw [heq]
    exact Nat.le_refl _
  · rw [heq]
    exact hlast.countP_le

/-- An execution of the program that comes out is made up of runs of the functions of the module. It
sets the sandbox up once for each of a function with a name like the main function, and takes it down
each time that such a function enters the block of its last instruction before a return. Where every
set up succeeds, no execution of the main function runs clean in which that happens twice. -/
theorem runOnModule_functionRuns {f : Routine Instrumented}
    (h : r.runOnModule hash edgeList neighborList m = .ok out) (hf : f ∈ out.functions)
    (hrun : Run Instrumented.control out.functions (.routines [f]) w) :
    ∃ as : List FunctionRun, (∀ a ∈ as, a.function ∈ m.functions) ∧
      (∃ τ : List Point, w = τ.flatMap (weave r memoryPoolSize) ∧
        τ.Perm (as.flatMap FunctionRun.passed)) ∧
      (events w).countP InjectedCall.isInit = as.countP FunctionRun.isMain ∧
      (events w).countP InjectedCall.isCleanup = (as.map FunctionRun.cleanups).sum ∧
      (f.name = "main" → ∀ k results, Owned k → (∀ i, (results i).Succeeds) →
        RunsClean (out.syscalls results w) k → (as.map FunctionRun.cleanups).sum ≤ 1) := by
  obtain ⟨-, -, -, hc⟩ := compiled_of_runOnModule h
  rw [hc.functions] at hf hrun
  rw [List.map_map, List.map_map] at hf
  obtain ⟨source, hsource, rfl⟩ := List.mem_map.1 hf
  obtain ⟨τ, hτ, rfl⟩ := (run_flatMap_iff (weaves _ _) (.routines [locate source.ir.code]) w).1 hrun
  obtain ⟨as, hfunctions, hperm⟩ := Executes.functionRuns hsource hτ
  have hcleanups := countP_events_cleanup r memoryPoolSize hperm
  refine ⟨as, hfunctions, ⟨τ, rfl, hperm⟩, countP_events_init r memoryPoolSize hperm, hcleanups, ?_⟩
  intro hname k results ho hres hclean
  have hmain : source.ir.name = "main" := hname
  rw [← hcleanups]
  exact out.countP_cleanup_le hmain hτ ho hres hclean

theorem ret_terminated : ∃ is i, [Instruction.ret] = is ++ [i] ∧ i.isTerminator = true ∧
    ∀ x ∈ is, x.isTerminator = false :=
  ⟨[], .ret, rfl, rfl, List.forall_mem_nil _⟩

/-- A main function with the body of its loop behind the return. -/
def bodyLastMain : ModuleFunction where
  getName := "main"
  blocks := [
    ⟨.number 0, ⟨[.branch [2]], [], .branch [2], rfl, rfl, List.forall_mem_nil _⟩⟩,
    ⟨.number 1, ⟨[.ret], ret_terminated⟩⟩,
    ⟨.number 2, ⟨[callPuts, .branch [2, 1]], [callPuts], .branch [2, 1], rfl, rfl,
      List.forall_mem_singleton.2 rfl⟩⟩]
  distinct := by decide +kernel
  inside := by decide
  entry := by decide

def bodyLastModule : IRModule := ⟨[bodyLastMain], by decide⟩

/-- The body is entered twice. -/
def bodyLastRun : List Point :=
  [point bodyLastMain.ir 0 0 (.branch [2]), point bodyLastMain.ir 2 0 callPuts,
    point bodyLastMain.ir 2 1 (.branch [2, 1]), point bodyLastMain.ir 2 0 callPuts,
    point bodyLastMain.ir 2 1 (.branch [2, 1]), point bodyLastMain.ir 1 0 .ret]

theorem bodyLastRun_executes : Executes [bodyLastMain.ir] bodyLastMain.ir bodyLastRun := by
  have hputs : MayCall ([bodyLastMain.ir].map fun f => locate f.code) (.call "puts") [] :=
    mayCall_nil (by decide)
  apply Run.routine (u := bodyLastRun) (v := []) rfl _ .nil
  refine .branch (k := 2) rfl (by decide) rfl (.instruction (u := []) hputs .nil ?_)
  refine .branch (k := 2) rfl (by decide) rfl (.instruction (u := []) hputs .nil ?_)
  exact .branch (k := 1) rfl (by decide) rfl (.ret rfl)

theorem bodyLastMain_calls : firstReader.bbToLibcMap (bodyLastMain.body (by decide)) =
    [("[main]%2", ["libc:puts"])] := by
  apply List.perm_singleton.1
  have hperm := firstReader.bbToLibcMap_perm (bodyLastMain.body (by decide))
  have hcalls : (((bodyLastMain.body (by decide)).blocks.map fun bb =>
      (bb.getName, firstReader.getLibraryCalls bb.block.instructions)).filter
        fun e => !e.2.isEmpty) = [("[main]%2", ["libc:puts"])] := by
    decide +kernel
  rwa [hcalls] at hperm

theorem bodyLastModule_runs : ∃ out : PassOutput listGraaf,
    firstReader.runOnModule (fun _ => 1) (fun _ => 0) (fun _ => 0) bodyLastModule = .ok out := by
  have hrecord : (firstReader.funcBBToMetaMap bodyLastModule :
      List (String × FuncBBGraphMeta listGraaf)) =
        [("main", firstReader.generateCallGraph (bodyLastMain.body (by decide)))] := rfl
  have hfinal : (firstReader.finalGraph bodyLastModule : Option (Merging listGraaf)).map
      (fun final => final.graph.getVertices.length) = some 1 := by
    rw [FileToMapReader.finalGraph, FileToMapReader.libcCallGraphs, hrecord,
      FileToMapReader.generateCallGraph, bodyLastMain_calls]
    decide +kernel
  obtain ⟨final, hfinal, hlength⟩ := Option.map_eq_some_iff.1 hfinal
  obtain ⟨out, hout, -⟩ := runOnModule_ok hfinal (by rw [hlength]; decide) (fun _ => 1)
    (fun _ => 0) (fun _ => 0)
  exact ⟨out, hout⟩

/-- With the body of the loop behind the return the sandbox is taken down in each pass, so that the
second one frees the buffer again. -/
theorem bodyLastModule_frees_twice : ∃ out : PassOutput listGraaf,
    firstReader.runOnModule (fun _ => 1) (fun _ => 0) (fun _ => 0) bodyLastModule = .ok out ∧
      ¬RunsClean (out.syscalls (fun _ => .done)
        (bodyLastRun.flatMap (weave firstReader memoryPoolSize))) .boot := by
  obtain ⟨out, hout⟩ := bodyLastModule_runs
  refine ⟨out, hout, fun hclean => ?_⟩
  obtain ⟨-, -, -, hc⟩ := compiled_of_runOnModule hout
  have hrun := bodyLastRun_executes.flatMap (weaves firstReader memoryPoolSize)
  have hfunctions : out.functions = ([bodyLastMain.ir].map fun f => locate f.code).map
      (Routine.flatMap (weave firstReader memoryPoolSize)) := hc.functions
  rw [← hfunctions] at hrun
  obtain ⟨as, -, -, -, hcleanups, hle⟩ := runOnModule_functionRuns hout
    (by rw [hfunctions]; exact List.mem_cons_self) hrun
  have htwice : (events (bodyLastRun.flatMap (weave firstReader memoryPoolSize))).countP
      InjectedCall.isCleanup = 2 := by decide +kernel
  have honce := hle rfl .boot (fun _ => .done) owned_boot (fun _ => InitResult.done_succeeds) hclean
  rw [← hcleanups, htwice] at honce
  exact absurd honce (by decide)

end LibcSandbox
