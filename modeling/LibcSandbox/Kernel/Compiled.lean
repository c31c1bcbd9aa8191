import LibcSandbox.Kernel.Session
import LibcSandbox.Pass.FunctionRuns
import LibcSandbox.Pass.ModuleRun

namespace LibcSandbox
open Library
set_option autoImplicit true

variable {G : Graaf} {k : Kernel} {r r' : FileToMapReader} {m m' : IRModule}
  {hash : String → UInt64} {out out' : PassOutput G} {size : Nat}
  {results results' : Nat → InitResult}

/-- The library functions that the program calls by itself, wherever the pass knows them. -/
def FileToMapReader.libcalls (r : FileToMapReader) (τ : List Point) : List UInt64 :=
  libcallIds (τ.flatMap (Point.dummycalls r))

theorem libcallIds_syscalls (r : FileToMapReader) (size : Nat) (p : Point) :
    libcallIds (p.syscalls r size) = libcallIds (p.dummycalls r) := by
  have hinit : libcallIds (if p.isEntry then [.sandboxInit size] else []) = [] := by
    split <;> rfl
  have hcleanup : libcallIds (if p.isCleanup then [.sandboxCleanup] else []) = [] := by
    split <;> rfl
  rw [Point.syscalls]
  cases hret : p.instruction.isReturnInst with
  | true =>
    rw [Point.dummycalls_return hret, if_pos rfl, libcallIds_append, hinit, hcleanup]
    rfl
  | false =>
    rw [if_neg Bool.false_ne_true, libcallIds_append, libcallIds_append, hinit, hcleanup,
      List.nil_append, List.append_nil]

theorem libcallIds_weave (r : FileToMapReader) (size : Nat) (τ : List Point) :
    libcallIds (events (τ.flatMap (weave r size))) = r.libcalls τ := by
  rw [events_weave, FileToMapReader.libcalls, libcallIds, libcallIds, List.filterMap_flatMap,
    List.filterMap_flatMap]
  exact List.flatMap_congr fun p _ => libcallIds_syscalls r size p

theorem libcalls_append (r : FileToMapReader) (τ τ' : List Point) :
    r.libcalls (τ ++ τ') = r.libcalls τ ++ r.libcalls τ' := by
  rw [FileToMapReader.libcalls, List.flatMap_append, libcallIds_append]
  rfl

theorem init_mem_syscalls {p : Point} (h : .sandboxInit n ∈ p.syscalls r size) : n = size := by
  have hdummy : InjectedCall.sandboxInit n ∉ p.dummycalls r := by
    intro hmem
    cases (dummycalls_isDummycall p _ hmem).1
  rw [Point.syscalls] at h
  revert h
  cases p.instruction.isReturnInst <;> cases p.isEntry <;> cases p.isCleanup <;> simp [hdummy]

/-- Each call of an execution with what its allocation and its copy come to. -/
def answered (results : Nat → InitResult) (w : List InjectedCall) :
    List (InjectedCall × InitResult) :=
  w.mapIdx fun i c => (c, results i)

theorem answered_cons (results : Nat → InitResult) (c : InjectedCall) (w : List InjectedCall) :
    answered results (c :: w) = (c, results 0) :: answered (fun i => results (i + 1)) w :=
  List.mapIdx_cons

theorem map_fst_answered (results : Nat → InitResult) (w : List InjectedCall) :
    (answered results w).map Prod.fst = w := by
  induction w generalizing results with
  | nil => rfl
  | cons c w ih => rw [answered_cons, List.map_cons, ih]

theorem succeeds_of_mem_answered (hres : ∀ i, (results i).Succeeds)
    (hc : c ∈ answered results w) : c.2.Succeeds := by
  obtain ⟨i, hi, rfl⟩ := List.mem_mapIdx.1 hc
  exact hres i

theorem fst_mem_of_mem_answered (hc : c ∈ answered results w) : c.1 ∈ w := by
  rw [← map_fst_answered results w]
  exact List.mem_map_of_mem hc

/-- The system calls of an execution of the program that comes out. -/
def PassOutput.syscalls (out : PassOutput G) (results : Nat → InitResult) (w : List Instrumented) :
    List Syscall :=
  kernelCalls out.data (answered results (events w))

theorem owned_of_none (hk : k.kernelBuffer = none) : Owned k := by
  intro a ha
  rw [hk] at ha
  cases ha

/-- From the first set up on, a cleanup is followed by nothing but library functions. -/
def CleansUpLast (w : List InjectedCall) : Prop := ClosesLast (w.dropWhile fun c => !c.isInit)

theorem cleansUpLast_init : CleansUpLast (.sandboxInit n :: w) ↔ ClosesLast w := by
  have hdrop : (InjectedCall.sandboxInit n :: w).dropWhile (fun c => !c.isInit) =
      .sandboxInit n :: w := rfl
  rw [CleansUpLast, hdrop, closesLast_cons]
  exact and_iff_right nofun

theorem cleansUpLast_cleanup : CleansUpLast (.sandboxCleanup :: w) ↔ CleansUpLast w := Iff.rfl

theorem WellShaped.cleansUpLast {w : List InjectedCall} (h : WellShaped w) : CleansUpLast w := by
  intro u v hw c hc
  have hsplit : w = (w.takeWhile fun c => !c.isInit) ++ (u ++ .sandboxCleanup :: v) := by
    rw [← hw]
    exact List.takeWhile_append_dropWhile.symm
  have hcleanup : w = ((w.takeWhile fun c => !c.isInit) ++ u) ++ .sandboxCleanup :: v := by
    rw [List.append_assoc]
    exact hsplit
  have hhead := List.head?_dropWhile_not (fun c : InjectedCall => !c.isInit) w
  rw [hw] at hhead
  cases u with
  | nil => cases hhead
  | cons d u =>
    have hd : d.isInit = true := by simpa using hhead
    obtain ⟨-, hinits⟩ := countP_split (hsplit ▸ h.oneInit) hd
    obtain ⟨-, hcleanups⟩ := countP_split (hcleanup ▸ h.oneCleanup) rfl
    cases c with
    | sandboxDummycall number => rfl
    | sandboxInit n => cases hinits _ (List.mem_append_right u (List.mem_cons_of_mem _ hc))
    | sandboxCleanup => cases hcleanups _ hc

/-- The set up comes first, but for a cleanup at a start that is also the end. -/
theorem events_cases {main : IRFunction} {τ : List Point} (hname : main.name = "main")
    (hrun : Executes (m.functions.map ModuleFunction.ir) main τ) :
    ∃ w, (∀ n, .sandboxInit n ∈ w → n = memoryPoolSize) ∧ libcallIds w = r.libcalls τ ∧
      (events (τ.flatMap (weave r memoryPoolSize)) = .sandboxInit memoryPoolSize :: w ∨
        w = [] ∧ events (τ.flatMap (weave r memoryPoolSize)) =
          [.sandboxCleanup, .sandboxInit memoryPoolSize]) := by
  obtain ⟨p, τ', rfl, hp⟩ := hrun.cons hname
  have hids := libcallIds_weave r memoryPoolSize (p :: τ')
  have hsize : ∀ n, .sandboxInit n ∈ events ((p :: τ').flatMap (weave r memoryPoolSize)) →
      n = memoryPoolSize := by
    intro n hn
    rw [events_weave] at hn
    obtain ⟨q, -, hq⟩ := List.mem_flatMap.1 hn
    exact init_mem_syscalls hq
  have hfirst : ∃ w, events ((p :: τ').flatMap (weave r memoryPoolSize)) =
        .sandboxInit memoryPoolSize :: w ∨
      w = [] ∧ events ((p :: τ').flatMap (weave r memoryPoolSize)) =
        [.sandboxCleanup, .sandboxInit memoryPoolSize] := by
    rw [events_weave, List.flatMap_cons]
    cases hret : p.instruction.isReturnInst with
    | true =>
      obtain rfl := hrun.of_return hret
      rw [Point.syscalls, hp, hret]
      cases p.isCleanup with
      | true => exact ⟨[], .inr ⟨rfl, rfl⟩⟩
      | false => exact ⟨[], .inl rfl⟩
    | false =>
      rw [Point.syscalls, hp, hret]
      exact ⟨_, .inl rfl⟩
  obtain ⟨w, heq | ⟨rfl, heq⟩⟩ := hfirst
  · rw [heq] at hids hsize
    exact ⟨w, fun n hn => hsize n (List.mem_cons_of_mem _ hn), hids, .inl heq⟩
  · rw [heq] at hids
    exact ⟨[], fun n hn => absurd hn List.not_mem_nil, hids, .inr ⟨rfl, heq⟩⟩

/-- Behind a set up that succeeds. -/
theorem Compiled.opened_iff (h : Compiled r hash stack m out) {w : List InjectedCall}
    (hw : ∀ n, .sandboxInit n ∈ w → n = memoryPoolSize) (ho : Owned k)
    (hslots : k.graph.slotsFor out.finalGraph.getVertices.length =
      out.finalGraph.getVertices.length)
    (hleft : ∀ c ∈ libcallIds w, ¬Leftover out.finalGraph stack c)
    (hres : ∀ i, (results i).Succeeds) :
    RunsClean (kernelCalls out.data (answered results (.sandboxInit memoryPoolSize :: w))) k ↔
      out.finalGraph.getVertices ≠ [] ∧
        (∀ c ∈ libcallIds w, (policy r.stringMap hash out.finalGraph c).isSome) ∧
        ClosesLast w := by
  obtain ⟨b, hdata, hsize, hnodes⟩ := h.buffer
  have hlength : b.nodes.length = out.finalGraph.getVertices.length := by
    rw [hnodes, length_passTable]
  have hempty : b.nodes = [] ↔ out.finalGraph.getVertices = [] := by
    rw [← List.length_eq_zero_iff, hlength, List.length_eq_zero_iff]
  have hslots' : k.graph.slotsFor b.numNodes = b.numNodes := by
    rw [GraphBuffer.numNodes, hlength]
    exact hslots
  have hinits : ∀ c ∈ answered (fun i => results (i + 1)) w, ∀ n, c.1 = .sandboxInit n →
      n = b.size := by
    intro c hc n hn
    rw [hsize]
    exact hw n (hn ▸ fst_mem_of_mem_answered hc)
  rw [answered_cons, ← hsize, ← hdata, b.runsClean_iff ho hslots' (hres 0) hinits, ne_eq, hempty]
  apply and_congr_right
  intro hne
  have hleft' : ∀ c ∈ libcallIds ((answered (fun i => results (i + 1)) w).map Prod.fst),
      ¬Leftover out.finalGraph stack c := by
    rwa [map_fst_answered]
  have hall := passTable_run_iff r.stringMap hash
    (fun c hc => succeeds_of_mem_answered (fun i => hres (i + 1)) hc) hleft'
    (List.length_pos_of_ne_nil hne)
  rwa [map_fst_answered, ← hnodes] at hall

theorem Compiled.runsClean_iff (h : Compiled r hash stack m out)
    {main : IRFunction} {τ : List Point} (hname : main.name = "main")
    (hrun : Executes (m.functions.map ModuleFunction.ir) main τ) (hk : k.kernelBuffer = none)
    (hslots : k.graph.slotsFor out.finalGraph.getVertices.length =
      out.finalGraph.getVertices.length)
    (hleft : ∀ c ∈ r.libcalls τ, ¬Leftover out.finalGraph stack c)
    (hres : ∀ i, (results i).Succeeds) :
    RunsClean (out.syscalls results (τ.flatMap (weave r memoryPoolSize))) k ↔
      out.finalGraph.getVertices ≠ [] ∧
        (∀ c ∈ r.libcalls τ, (policy r.stringMap hash out.finalGraph c).isSome) ∧
        CleansUpLast (events (τ.flatMap (weave r memoryPoolSize))) := by
  obtain ⟨w, hw, hids, hcases⟩ := events_cases (r := r) hname hrun
  have ho := owned_of_none hk
  rw [← hids] at hleft
  rw [PassOutput.syscalls, ← hids]
  rcases hcases with heq | ⟨rfl, heq⟩
  · rw [heq, cleansUpLast_init]
    exact h.opened_iff hw ho hslots hleft hres
  · rw [heq, cleansUpLast_cleanup, cleansUpLast_init, answered_cons, kernelCalls_cons,
      runsClean_cons]
    simp only [InjectedCall.syscall, returned_cleanup_none hk, Option.some.injEq, exists_eq_left']
    exact h.opened_iff hw ho hslots hleft fun i => hres (i + 1)

/-- The program that the pass makes out of a module has the executions of the module, each with its
system calls. Where every set up succeeds, the kernel lets such an execution run clean exactly if
each library call by itself is in the policy and the execution cleans up last. -/
theorem runOnModule_runsClean_iff {f : ModuleFunction} {τ : List Point}
    (h : r.runOnModule hash edgeList neighborList m = .ok out) (hf : f ∈ m.functions)
    (hname : f.getName = "main") (hrun : Executes (m.functions.map ModuleFunction.ir) f.ir τ)
    (hk : k.kernelBuffer = none)
    (hslots : k.graph.slotsFor out.finalGraph.getVertices.length = out.finalGraph.getVertices.length)
    (hleft : ∀ c ∈ r.libcalls τ, ¬Leftover out.finalGraph (fun k => ⟨neighborList k, edgeList k⟩) c)
    (hres : ∀ i, (results i).Succeeds) :
    ∃ main' ∈ out.functions, main'.name = "main" ∧
      Run Instrumented.control out.functions (.routines [main'])
        (τ.flatMap (weave r memoryPoolSize)) ∧
      (RunsClean (out.syscalls results (τ.flatMap (weave r memoryPoolSize))) k ↔
        out.finalGraph.getVertices ≠ [] ∧
          (∀ c ∈ r.libcalls τ, (policy r.stringMap hash out.finalGraph c).isSome) ∧
          CleansUpLast (events (τ.flatMap (weave r memoryPoolSize)))) := by
  obtain ⟨-, -, -, hc⟩ := compiled_of_runOnModule h
  refine ⟨(locate f.ir.code).flatMap (weave r memoryPoolSize), ?_, hname, ?_,
    hc.runsClean_iff hname hrun hk hslots hleft hres⟩
  · rw [hc.functions, List.map_map, List.map_map]
    exact List.mem_map.2 ⟨f, hf, rfl⟩
  · rw [hc.functions]
    exact hrun.flatMap (weaves r memoryPoolSize)

/-- With one execution the sandbox lets through all others that call no other library functions, in
whatever order and number, and that clean up last. -/
theorem runOnModule_runsClean_of_subset {f : ModuleFunction} {τ τ' : List Point}
    (h : r.runOnModule hash edgeList neighborList m = .ok out) (hname : f.getName = "main")
    (hrun : Executes (m.functions.map ModuleFunction.ir) f.ir τ)
    (hrun' : Executes (m.functions.map ModuleFunction.ir) f.ir τ') (hk : k.kernelBuffer = none)
    (hslots : k.graph.slotsFor out.finalGraph.getVertices.length = out.finalGraph.getVertices.length)
    (hleft : ∀ c ∈ r.libcalls τ, ¬Leftover out.finalGraph (fun k => ⟨neighborList k, edgeList k⟩) c)
    (hsub : ∀ c ∈ r.libcalls τ', c ∈ r.libcalls τ) (hres : ∀ i, (results i).Succeeds)
    (hres' : ∀ i, (results' i).Succeeds)
    (hclean : RunsClean (out.syscalls results (τ.flatMap (weave r memoryPoolSize))) k) :
    RunsClean (out.syscalls results' (τ'.flatMap (weave r memoryPoolSize))) k ↔
      CleansUpLast (events (τ'.flatMap (weave r memoryPoolSize))) := by
  obtain ⟨-, -, -, hc⟩ := compiled_of_runOnModule h
  obtain ⟨hne, hall, -⟩ := (hc.runsClean_iff hname hrun hk hslots hleft hres).1 hclean
  have hall' : ∀ c ∈ r.libcalls τ', (policy r.stringMap hash out.finalGraph c).isSome :=
    fun c hc => hall c (hsub c hc)
  rw [hc.runsClean_iff hname hrun' hk hslots (fun c hx => hleft c (hsub c hx)) hres']
  exact ⟨fun h => h.2.2, fun h => ⟨hne, hall', h⟩⟩

theorem PassesOnce.cleansUpLast {main : IRFunction} {τ : List Point} (h : PassesOnce r τ)
    (hname : main.name = "main")
    (hrun : Executes (m.functions.map ModuleFunction.ir) main τ) :
    CleansUpLast (events (τ.flatMap (weave r memoryPoolSize))) := by
  obtain ⟨p, τ', rfl, hp⟩ := hrun.cons hname
  apply WellShaped.cleansUpLast
  rw [events_weave]
  exact (wellShaped_iff hp τ').2 h

/-- The executions of the loop, with one pass more than the number. -/
def loopBody : Nat → List Point
  | 0 => [point loopMain.ir 1 0 callPuts, point loopMain.ir 1 1 callPuts,
      point loopMain.ir 1 2 (.branch [1, 2]), point loopMain.ir 2 0 .other, point loopMain.ir 2 1 .ret]
  | n + 1 => [point loopMain.ir 1 0 callPuts, point loopMain.ir 1 1 callPuts,
      point loopMain.ir 1 2 (.branch [1, 2])] ++ loopBody n

def loopRun (n : Nat) : List Point := point loopMain.ir 0 0 (.branch [1]) :: loopBody n

theorem loopRun_executes (n : Nat) : Executes [loopMain.ir] loopMain.ir (loopRun n) := by
  have hputs : MayCall ([loopMain.ir].map fun f => locate f.code) (.call "puts") [] :=
    mayCall_nil (by decide)
  have hbody (n : Nat) : Run Point.control ([loopMain.ir].map fun f => locate f.code)
      (.rest (locate loopMain.ir.code).blocks [point loopMain.ir 1 0 callPuts,
        point loopMain.ir 1 1 callPuts, point loopMain.ir 1 2 (.branch [1, 2])]) (loopBody n) := by
    induction n with
    | zero =>
      refine .instruction (u := []) hputs .nil (.instruction (u := []) hputs .nil ?_)
      refine .branch (k := 2) rfl (by decide) rfl ?_
      exact .instruction (u := []) rfl .nil (.ret rfl)
    | succ n ih =>
      refine .instruction (u := []) hputs .nil (.instruction (u := []) hputs .nil ?_)
      exact .branch (k := 1) rfl (by decide) rfl ih
  have hrun := Run.routine (f := locate loopMain.ir.code) rfl (.branch (k := 1) rfl (by decide) rfl
    (hbody n)) .nil
  rw [List.append_nil] at hrun
  exact hrun

theorem loopRun_passesOnce (n : Nat) : PassesOnce firstReader (loopRun n) := by
  have hbody : ∃ ps, loopBody n = ps ++ [point loopMain.ir 2 0 .other, point loopMain.ir 2 1 .ret] ∧
      ∀ p ∈ ps, p.isEntry = false ∧ p.isCleanup = false := by
    induction n with
    | zero => exact ⟨_ :: _ :: [_], rfl, by decide +kernel⟩
    | succ n ih =>
      obtain ⟨ps, heq, hps⟩ := ih
      refine ⟨_ :: _ :: _ :: ps, by rw [loopBody, heq]; rfl, ?_⟩
      rw [List.forall_mem_cons, List.forall_mem_cons, List.forall_mem_cons]
      exact ⟨by decide +kernel, by decide +kernel, by decide +kernel, hps⟩
  obtain ⟨ps, heq, hps⟩ := hbody
  have hsplit : loopRun n = (point loopMain.ir 0 0 (.branch [1]) :: ps) ++
      point loopMain.ir 2 0 .other :: [point loopMain.ir 2 1 .ret] := by
    rw [loopRun, heq, List.cons_append]
  have hentry : ps.countP Point.isEntry = 0 := List.countP_eq_zero.2 fun p hp => by simp [hps p hp]
  have hcleanup : ps.countP Point.isCleanup = 0 :=
    List.countP_eq_zero.2 fun p hp => by simp [hps p hp]
  have hone : (loopRun n).countP Point.isCleanup = 1 := by
    rw [hsplit, List.countP_append, List.countP_cons, hcleanup]
    decide +kernel
  refine ⟨?_, hone, ?_⟩
  · rw [hsplit, List.countP_append, List.countP_cons, hentry]
    decide +kernel
  · intro u p v hw hp q hq
    rw [hsplit] at hone hw
    obtain ⟨-, -, rfl⟩ := split_unique hone (by decide +kernel) hw hp
    rw [List.mem_singleton] at hq
    rw [hq]
    rfl

theorem loopRun_libcalls (n : Nat) : ∀ c ∈ firstReader.libcalls (loopRun n), c = 1 := by
  have hpass : firstReader.libcalls [point loopMain.ir 1 0 callPuts, point loopMain.ir 1 1 callPuts,
      point loopMain.ir 1 2 (.branch [1, 2])] = [1, 1] := by
    decide +kernel
  have hlast : firstReader.libcalls (loopBody 0) = [1, 1] := by decide +kernel
  have hbody : ∀ c ∈ firstReader.libcalls (loopBody n), c = 1 := by
    induction n with
    | zero =>
      rw [hlast]
      simp
    | succ n ih =>
      rw [loopBody, libcalls_append, hpass]
      intro c hc
      rcases List.mem_append.1 hc with hc | hc
      · simpa using hc
      · exact ih c hc
  exact hbody

theorem loopRun_cleansUpLast (n : Nat) :
    CleansUpLast (events ((loopRun n).flatMap (weave firstReader memoryPoolSize))) := by
  have hname : loopMain.ir.name = "main" := rfl
  have hrun : Executes (loopModule.functions.map ModuleFunction.ir) loopMain.ir (loopRun n) :=
    loopRun_executes n
  exact (loopRun_passesOnce n).cleansUpLast hname hrun

/-- What is asked of an execution in the sandbox holds of all executions of the loop. -/
theorem loopModule_compiled : ∃ out : PassOutput listGraaf,
    firstReader.runOnModule (fun _ => 1) (fun _ => 0) (fun _ => 0) loopModule = .ok out ∧
      (∀ c, ¬Leftover out.finalGraph (fun _ => ⟨0, 0⟩) c) ∧
      ∀ n, out.finalGraph.getVertices ≠ [] ∧
        (∀ c ∈ firstReader.libcalls (loopRun n),
          (policy firstReader.stringMap (fun _ => 1) out.finalGraph c).isSome) ∧
        CleansUpLast (events ((loopRun n).flatMap (weave firstReader memoryPoolSize))) := by
  obtain ⟨out, hout, hvertices, houtgoing⟩ := loopModule_runs
  simp only [hvertices, List.map_cons, List.map_nil, List.cons.injEq, and_true] at houtgoing
  refine ⟨out, hout, ?_, fun n => ⟨?_, ?_, loopRun_cleansUpLast n⟩⟩
  · rintro c ⟨k, -, vertex, hvertex, hnone, -⟩
    have hmem := List.mem_of_getElem? hvertex
    rw [hvertices, List.mem_cons, List.mem_singleton] at hmem
    rw [LibcCallgraph.lastOutgoing] at hnone
    rcases hmem with rfl | rfl
    · rw [houtgoing.1] at hnone
      cases hnone
    · rw [houtgoing.2] at hnone
      cases hnone
  · rw [hvertices]
    exact List.cons_ne_nil _ _
  · intro c hc
    rw [loopRun_libcalls n c hc, policy, policyTarget, hvertices]
    simp only [List.filterMap_cons, List.filterMap_nil, LibcCallgraph.lastOutgoing, houtgoing]
    decide +kernel

theorem loopModule_runsClean : ∃ out : PassOutput listGraaf,
    firstReader.runOnModule (fun _ => 1) (fun _ => 0) (fun _ => 0) loopModule = .ok out ∧
      RunsClean (out.syscalls (fun _ => .done)
        ((loopRun 0).flatMap (weave firstReader memoryPoolSize))) .boot := by
  obtain ⟨out, hout, hleft, hallowed⟩ := loopModule_compiled
  obtain ⟨-, -, -, -, hiff⟩ := runOnModule_runsClean_iff (k := .boot) (f := loopMain) hout
    List.mem_cons_self rfl (loopRun_executes 0) rfl rfl (fun c _ => hleft c)
    fun _ => InitResult.done_succeeds
  exact ⟨out, hout, hiff.2 (hallowed 0)⟩

theorem loopModule_first : ∃ out : PassOutput listGraaf,
    firstReader.runOnModule (fun _ => 1) (fun _ => 0) (fun _ => 0) loopModule = .ok out ∧
      (∀ c, ¬Leftover out.finalGraph (fun _ => ⟨0, 0⟩) c) ∧
      RunsClean (out.syscalls (fun _ => .done)
        ((loopRun 0).flatMap (weave firstReader memoryPoolSize))) .boot := by
  obtain ⟨out, hout, hleft, hallowed⟩ := loopModule_compiled
  obtain ⟨-, -, -, hc⟩ := compiled_of_runOnModule hout
  have hname : loopMain.ir.name = "main" := rfl
  have hiff := hc.runsClean_iff (k := .boot) hname (loopRun_executes 0) rfl rfl
    (fun c _ => hleft c) fun _ => InitResult.done_succeeds
  exact ⟨out, hout, hleft, hiff.2 (hallowed 0)⟩

/-- One pass less says nothing else than two more. -/
theorem loopModule_runsClean_longer : ∃ out : PassOutput listGraaf,
    firstReader.runOnModule (fun _ => 1) (fun _ => 0) (fun _ => 0) loopModule = .ok out ∧
      RunsClean (out.syscalls (fun _ => .done)
        ((loopRun 2).flatMap (weave firstReader memoryPoolSize))) .boot := by
  obtain ⟨out, hout, hleft, hfirst⟩ := loopModule_first
  have hsub : ∀ c ∈ firstReader.libcalls (loopRun 2), c ∈ firstReader.libcalls (loopRun 0) := by
    intro c hc
    rw [loopRun_libcalls 2 c hc]
    decide +kernel
  refine ⟨out, hout, (runOnModule_runsClean_of_subset (f := loopMain) hout rfl (loopRun_executes 0)
    (loopRun_executes 2) rfl rfl (fun c _ => hleft c) hsub (fun _ => InitResult.done_succeeds)
    (fun _ => InitResult.done_succeeds) hfirst).2 (loopRun_cleansUpLast 2)⟩

end LibcSandbox
