import Mathlib.Data.List.Basic

namespace Library
set_option autoImplicit true

variable {ι κ : Type*}

/-- Where the control goes after an instruction. -/
inductive Control where
  | next
  | call (name : String)
  | callPointer
  | branch (successors : List Nat)
  | ret

/-- The first block is the one that is entered. A routine that is only declared has no blocks. -/
structure Routine (ι : Type*) where
  name : String
  blocks : List (List ι)

/-- The routines that run, one after another, while an instruction is executed. Code outside the
program may call back whatever is in the program. -/
def MayCall (m : List (Routine ι)) : Control → List (Routine ι) → Prop
  | .next, fs => fs = []
  | .call name, fs =>
    (∃ f ∈ m, f.name = name ∧ f.blocks ≠ [] ∧ fs = [f]) ∨
      (∀ f ∈ m, f.name = name → f.blocks = []) ∧ ∀ f ∈ fs, f ∈ m
  | .callPointer, fs => ∀ f ∈ fs, f ∈ m
  | .branch _, _ => False
  | .ret, _ => False

theorem mayCall_nil {m : List (Routine ι)} (h : ∀ f ∈ m, f.name ≠ name) :
    MayCall m (.call name) [] :=
  .inr ⟨fun f hf hname => absurd hname (h f hf), fun _ hf => absurd hf List.not_mem_nil⟩

/-- What is still to be executed: the rest of a block, or some routines. -/
inductive Code (ι : Type*) where
  | rest (blocks : List (List ι)) (is : List ι)
  | routines (fs : List (Routine ι))

/-- The executions that come to an end, with the instructions executed. -/
inductive Run (control : ι → Control) (m : List (Routine ι)) : Code ι → List ι → Prop
  | ret : control i = .ret → Run control m (.rest blocks (i :: is)) [i]
  | branch : control i = .branch successors → k ∈ successors → blocks[k]? = some block →
    Run control m (.rest blocks block) w → Run control m (.rest blocks (i :: is)) (i :: w)
  | instruction : MayCall m (control i) fs → Run control m (.routines fs) u →
    Run control m (.rest blocks is) v → Run control m (.rest blocks (i :: is)) (i :: (u ++ v))
  | nil : Run control m (.routines []) []
  | routine : f.blocks[0]? = some block → Run control m (.rest f.blocks block) u →
    Run control m (.routines fs) v → Run control m (.routines (f :: fs)) (u ++ v)

/-- The routine with each instruction replaced by some. -/
def Routine.flatMap (g : ι → List κ) (f : Routine ι) : Routine κ where
  name := f.name
  blocks := f.blocks.map fun block => block.flatMap g

theorem forall_mem_map_iff_exists {f : ι → κ} {xs : List ι} {ys : List κ} :
    (∀ y ∈ ys, y ∈ xs.map f) ↔ ∃ zs : List ι, (∀ z ∈ zs, z ∈ xs) ∧ ys = zs.map f := by
  induction ys with
  | nil =>
    apply Iff.intro
    · intro _
      exact ⟨[], by simp, rfl⟩
    · intro _ y hy
      cases hy
  | cons y ys ih =>
    rw [List.forall_mem_cons, ih]
    apply Iff.intro
    · intro hx
      obtain ⟨hy, zs, hzs, rfl⟩ := hx
      obtain ⟨z, hz, rfl⟩ := List.mem_map.1 hy
      exact ⟨z :: zs, List.forall_mem_cons.2 ⟨hz, hzs⟩, rfl⟩
    · intro hx
      obtain ⟨zs, hzs, heq⟩ := hx
      cases zs with
      | nil => cases heq
      | cons z zs =>
        rw [List.map_cons, List.cons.injEq] at heq
        rw [List.forall_mem_cons] at hzs
        rw [heq.1]
        exact ⟨List.mem_map_of_mem hzs.1, zs, hzs.2, heq.2⟩

theorem mayCall_flatMap {g : ι → List κ} {m : List (Routine ι)} {c : Control}
    {fs' : List (Routine κ)} :
    MayCall (m.map (Routine.flatMap g)) c fs' ↔
      ∃ fs : List (Routine ι), MayCall m c fs ∧ fs' = fs.map (Routine.flatMap g) := by
  cases c with
  | next =>
    simp only [MayCall, exists_eq_left, List.map_nil]
  | callPointer => exact forall_mem_map_iff_exists
  | branch successors => simp only [MayCall, false_and, exists_false]
  | ret => simp only [MayCall, false_and, exists_false]
  | call name =>
    have hempty (f : Routine ι) : (f.flatMap g).blocks = [] ↔ f.blocks = [] := List.map_eq_nil_iff
    simp only [MayCall, List.forall_mem_map, forall_mem_map_iff_exists, hempty]
    apply Iff.intro
    · intro hx
      rcases hx with ⟨f', hf', hname, hb, rfl⟩ | ⟨hno, fs, hfs, rfl⟩
      · obtain ⟨f, hf, rfl⟩ := List.mem_map.1 hf'
        exact ⟨[f], .inl ⟨f, hf, hname, mt (hempty f).2 hb, rfl⟩, rfl⟩
      · exact ⟨fs, .inr ⟨hno, hfs⟩, rfl⟩
    · intro hx
      obtain ⟨fs, ⟨f, hf, hname, hb, rfl⟩ | ⟨hno, hfs⟩, rfl⟩ := hx
      · exact .inl ⟨_, List.mem_map_of_mem hf, hname, mt (hempty f).1 hb, rfl⟩
      · exact .inr ⟨hno, fs, hfs, rfl⟩

/-- Each instruction is kept, or has another one with the same control in its place, and before it
come instructions that only pass the control on. -/
def Weaves (control : ι → Control) (control' : κ → Control) (g : ι → List κ) : Prop :=
  ∀ i, ∃ before j, g i = before ++ [j] ∧ (∀ x ∈ before, control' x = .next) ∧
    control' j = control i

variable {control : ι → Control} {control' : κ → Control} {g : ι → List κ} {m : List (Routine ι)}

theorem Run.before {blocks : List (List κ)} {before is w : List κ} {m : List (Routine κ)}
    (hb : ∀ x ∈ before, control' x = .next) (h : Run control' m (.rest blocks is) w) :
    Run control' m (.rest blocks (before ++ is)) (before ++ w) := by
  induction before with
  | nil => exact h
  | cons x before ih =>
    rw [List.forall_mem_cons] at hb
    have hcall : MayCall m (control' x) [] := by
      rw [hb.1]
      rfl
    exact .instruction (u := []) hcall .nil (ih hb.2)

def Code.flatMap (g : ι → List κ) : Code ι → Code κ
  | .rest blocks is => .rest (blocks.map fun block => block.flatMap g) (is.flatMap g)
  | .routines fs => .routines (fs.map (Routine.flatMap g))

theorem Run.flatMap (hg : Weaves control control' g) (h : Run control m c w) :
    Run control' (m.map (Routine.flatMap g)) (c.flatMap g) (w.flatMap g) := by
  induction h with
  | @ret i blocks is hi =>
    obtain ⟨before, j, hj, hb, hc⟩ := hg i
    rw [Code.flatMap, List.flatMap_cons, List.flatMap_singleton, hj, List.append_assoc]
    apply Run.before hb
    exact .ret (hc.trans hi)
  | @branch i successors k blocks block w is hi hk hblock _ ih =>
    obtain ⟨before, j, hj, hb, hc⟩ := hg i
    rw [Code.flatMap, List.flatMap_cons, List.flatMap_cons, hj, List.append_assoc,
      List.append_assoc]
    apply Run.before hb
    apply Run.branch (hc.trans hi) hk _ ih
    rw [List.getElem?_map, hblock]
    rfl
  | @instruction i fs u blocks is v hcall _ _ ihu ihv =>
    obtain ⟨before, j, hj, hb, hc⟩ := hg i
    rw [Code.flatMap, List.flatMap_cons, List.flatMap_cons, hj, List.append_assoc,
      List.append_assoc, List.flatMap_append]
    apply Run.before hb
    apply Run.instruction _ ihu ihv
    rw [hc, mayCall_flatMap]
    exact ⟨fs, hcall, rfl⟩
  | nil => exact .nil
  | @routine f block u fs v hblock _ _ ihu ihv =>
    rw [List.flatMap_append]
    apply Run.routine _ ihu ihv
    rw [Routine.flatMap, List.getElem?_map, hblock]
    rfl

theorem not_run_empty : ¬Run control m (.rest blocks []) w := by
  intro h
  cases h

theorem Run.cons (h : Run control m (.rest blocks (i :: is)) w) : ∃ w', w = i :: w' := by
  cases h with
  | ret => exact ⟨_, rfl⟩
  | branch => exact ⟨_, rfl⟩
  | instruction => exact ⟨_, rfl⟩

/-- An execution of the woven program comes from one of the program itself. -/
def Lifts (control : ι → Control) (g : ι → List κ) (m : List (Routine ι)) (c' : Code κ)
    (w' : List κ) : Prop :=
  ∀ c, c' = Code.flatMap g c → ∃ w, Run control m c w ∧ w' = w.flatMap g

/-- The same in the middle of what stands for an instruction. -/
def LiftsWithin (control : ι → Control) (control' : κ → Control) (g : ι → List κ)
    (m : List (Routine ι)) (c' : Code κ) (w' : List κ) : Prop :=
  ∀ (blocks : List (List ι)) before j i is,
    c' = .rest (blocks.map fun block => block.flatMap g) (before ++ j :: is.flatMap g) →
    (∀ x ∈ before, control' x = .next) → control' j = control i →
    ∃ w, Run control m (.rest blocks (i :: is)) (i :: w) ∧ w' = before ++ j :: w.flatMap g

theorem LiftsWithin.lifts (hg : Weaves control control' g)
    (h : LiftsWithin control control' g m (.rest blocks' (i' :: is')) w') :
    Lifts control g m (.rest blocks' (i' :: is')) w' := by
  intro c hc
  cases c with
  | routines fs => cases hc
  | rest blocks is =>
    cases is with
    | nil => cases hc
    | cons i is =>
      obtain ⟨before, j, hj, hb, hctl⟩ := hg i
      rw [Code.flatMap, List.flatMap_cons, hj, List.append_assoc] at hc
      obtain ⟨w, hw, rfl⟩ := h blocks before j i is hc hb hctl
      exact ⟨i :: w, hw, by rw [List.flatMap_cons, hj, List.append_assoc]; rfl⟩

theorem liftsWithin_routines (fs' : List (Routine κ)) (w' : List κ) :
    LiftsWithin control control' g m (.routines fs') w' := by
  intro blocks before j i is hc
  cases hc

variable {blocks' : List (List κ)} {i' : κ} {is' u' v' w' : List κ}

theorem LiftsWithin.ret (hret : control' i' = .ret) :
    LiftsWithin control control' g m (.rest blocks' (i' :: is')) [i'] := by
  intro blocks before j i is hc hb hctl
  rw [Code.rest.injEq] at hc
  rcases List.cons_eq_append_iff.1 hc.2 with ⟨rfl, heq⟩ | ⟨before, rfl, -⟩
  · cases heq
    exact ⟨[], .ret (hctl.symm.trans hret), rfl⟩
  · rw [hb i' List.mem_cons_self] at hret
    cases hret

theorem LiftsWithin.branch (hbranch : control' i' = .branch successors) (hk : k ∈ successors)
    (hblock' : blocks'[k]? = some block') (h : Lifts control g m (.rest blocks' block') w') :
    LiftsWithin control control' g m (.rest blocks' (i' :: is')) (i' :: w') := by
  intro blocks before j i is hc hb hctl
  rw [Code.rest.injEq] at hc
  obtain ⟨rfl, hc⟩ := hc
  rcases List.cons_eq_append_iff.1 hc with ⟨rfl, heq⟩ | ⟨before, rfl, -⟩
  · cases heq
    rw [List.getElem?_map, Option.map_eq_some_iff] at hblock'
    obtain ⟨block, hblock, rfl⟩ := hblock'
    obtain ⟨w, hw, rfl⟩ := h (.rest blocks block) rfl
    exact ⟨w, .branch (hctl.symm.trans hbranch) hk hblock hw, rfl⟩
  · rw [hb i' List.mem_cons_self] at hbranch
    cases hbranch

theorem LiftsWithin.instruction {fs' : List (Routine κ)}
    (hcall : MayCall (m.map (Routine.flatMap g)) (control' i') fs')
    (hrun : Run control' (m.map (Routine.flatMap g)) (.routines fs') u')
    (hcalled : Lifts control g m (.routines fs') u')
    (hrest : Lifts control g m (.rest blocks' is') v')
    (hwithin : LiftsWithin control control' g m (.rest blocks' is') v') :
    LiftsWithin control control' g m (.rest blocks' (i' :: is')) (i' :: (u' ++ v')) := by
  intro blocks before j i is hc hb hctl
  rw [Code.rest.injEq] at hc
  obtain ⟨rfl, hc⟩ := hc
  rcases List.cons_eq_append_iff.1 hc with ⟨rfl, heq⟩ | ⟨before, rfl, rfl⟩
  · -- The instruction itself, with what it calls.
    cases heq
    rw [hctl, mayCall_flatMap] at hcall
    obtain ⟨fs, hcall, rfl⟩ := hcall
    obtain ⟨u, hu, rfl⟩ := hcalled (.routines fs) rfl
    obtain ⟨v, hv, rfl⟩ := hrest (.rest blocks is) rfl
    refine ⟨u ++ v, .instruction hcall hu hv, ?_⟩
    rw [List.flatMap_append, List.nil_append]
  · -- One of those before it, which calls nothing.
    rw [List.forall_mem_cons] at hb
    rw [hb.1] at hcall
    cases hcall
    cases hrun
    obtain ⟨w, hw, rfl⟩ := hwithin blocks before j i is rfl hb.2 hctl
    exact ⟨w, hw, rfl⟩

theorem Lifts.nil : Lifts control g m (.routines []) [] := by
  intro c hc
  cases c with
  | rest blocks is => cases hc
  | routines fs =>
    cases fs with
    | nil => exact ⟨[], .nil, rfl⟩
    | cons f fs => cases hc

theorem Lifts.routine {f' : Routine κ} {fs' : List (Routine κ)}
    (hblock' : f'.blocks[0]? = some block')
    (hfirst : Lifts control g m (.rest f'.blocks block') u')
    (hrest : Lifts control g m (.routines fs') v') :
    Lifts control g m (.routines (f' :: fs')) (u' ++ v') := by
  intro c hc
  cases c with
  | rest blocks is => cases hc
  | routines fs =>
    cases fs with
    | nil => cases hc
    | cons f fs =>
      rw [Code.flatMap, List.map_cons, Code.routines.injEq, List.cons.injEq] at hc
      obtain ⟨rfl, rfl⟩ := hc
      rw [Routine.flatMap, List.getElem?_map, Option.map_eq_some_iff] at hblock'
      obtain ⟨block, hblock, rfl⟩ := hblock'
      obtain ⟨u, hu, rfl⟩ := hfirst (.rest f.blocks block) rfl
      obtain ⟨v, hv, rfl⟩ := hrest (.routines fs) rfl
      exact ⟨u ++ v, .routine hblock hu hv, List.flatMap_append.symm⟩

theorem Run.lifts (hg : Weaves control control' g)
    (h : Run control' (m.map (Routine.flatMap g)) c' w') :
    Lifts control g m c' w' ∧ LiftsWithin control control' g m c' w' := by
  induction h with
  | @ret i' blocks' is' hret =>
    have hwithin : LiftsWithin control control' g m (.rest blocks' (i' :: is')) [i'] := .ret hret
    exact ⟨hwithin.lifts hg, hwithin⟩
  | @branch i' successors k blocks' block' w' is' hbranch hk hblock' _ ih =>
    have hwithin : LiftsWithin control control' g m (.rest blocks' (i' :: is')) (i' :: w') :=
      .branch hbranch hk hblock' ih.1
    exact ⟨hwithin.lifts hg, hwithin⟩
  | @instruction i' fs' u' blocks' is' v' hcall hrun _ ihu ihv =>
    have hwithin : LiftsWithin control control' g m (.rest blocks' (i' :: is'))
        (i' :: (u' ++ v')) := .instruction hcall hrun ihu.1 ihv.1 ihv.2
    exact ⟨hwithin.lifts hg, hwithin⟩
  | nil => exact ⟨.nil, liftsWithin_routines _ _⟩
  | routine hblock' _ _ ihu ihv => exact ⟨.routine hblock' ihu.1 ihv.1, liftsWithin_routines _ _⟩

/-- The executions of the woven program are the executions of the program, woven. -/
theorem run_flatMap_iff (hg : Weaves control control' g) (c : Code ι) (w' : List κ) :
    Run control' (m.map (Routine.flatMap g)) (c.flatMap g) w' ↔
      ∃ w, Run control m c w ∧ w' = w.flatMap g := by
  apply Iff.intro
  · intro h
    exact (h.lifts hg).1 c rfl
  · intro hx
    obtain ⟨w, hw, rfl⟩ := hx
    exact hw.flatMap hg

end Library
