import LibcSandbox.Library.Path
import LibcSandbox.Library.Program
import Mathlib.Data.List.Perm.Basic

namespace Library
set_option autoImplicit true

variable {ι κ : Type*} {control : ι → Control} {m : List (Routine ι)}

/-- The control leaves the block. -/
def Control.Leaves : Control → Prop
  | .branch _ => True
  | .ret => True
  | _ => False

theorem MayCall.not_leaves (h : MayCall m c fs) : ¬c.Leaves := by
  intro hl
  cases c with
  | branch successors => exact h
  | ret => exact h
  | next => exact hl
  | call name => exact hl
  | callPointer => exact hl

/-- What is executed of a routine itself, whatever is executed of the routines that it calls. -/
inductive Own (control : ι → Control) (blocks : List (List ι)) : List ι → List ι → Prop
  | ret : control i = .ret → Own control blocks (i :: is) [i]
  | branch : control i = .branch successors → k ∈ successors → blocks[k]? = some block →
    Own control blocks block w → Own control blocks (i :: is) (i :: w)
  | instruction : ¬(control i).Leaves → Own control blocks is w →
    Own control blocks (i :: is) (i :: w)

/-- A routine that has been entered, with what is executed of it from then to its return. -/
structure Activation (ι : Type*) where
  routine : Routine ι
  own : List ι

/-- From the first block on. -/
def Activation.Valid (control : ι → Control) (a : Activation ι) : Prop :=
  ∃ block, a.routine.blocks[0]? = some block ∧ Own control a.routine.blocks block a.own

/-- An execution, with what is executed of the rest of a block itself, and with the activations that
are made meanwhile. -/
inductive Activates (control : ι → Control) (m : List (Routine ι)) :
    Code ι → List ι → List ι → List (Activation ι) → Prop
  | ret : control i = .ret → Activates control m (.rest blocks (i :: is)) [i] [i] []
  | branch : control i = .branch successors → k ∈ successors → blocks[k]? = some block →
    Activates control m (.rest blocks block) w own as →
    Activates control m (.rest blocks (i :: is)) (i :: w) (i :: own) as
  | instruction : MayCall m (control i) fs → Activates control m (.routines fs) u [] as →
    Activates control m (.rest blocks is) v own as' →
    Activates control m (.rest blocks (i :: is)) (i :: (u ++ v)) (i :: own) (as ++ as')
  | nil : Activates control m (.routines []) [] [] []
  | routine : f.blocks[0]? = some block → Activates control m (.rest f.blocks block) u own as →
    Activates control m (.routines fs) v [] as' →
    Activates control m (.routines (f :: fs)) (u ++ v) [] (⟨f, own⟩ :: (as ++ as'))

/-- Nothing is executed of routines that are still to be entered. -/
def Code.OwnNothing : Code ι → List ι → Prop
  | .rest _ _, _ => True
  | .routines _, own => own = []

/-- Every execution comes apart into activations, and nothing else does. -/
theorem run_iff_activates :
    Run control m c w ↔ ∃ own as, Activates control m c w own as ∧ c.OwnNothing own := by
  apply Iff.intro
  · intro h
    induction h with
    | ret hi => exact ⟨_, _, .ret hi, trivial⟩
    | branch hi hk hblock _ ih =>
      obtain ⟨own, as, h, -⟩ := ih
      exact ⟨_, _, .branch hi hk hblock h, trivial⟩
    | instruction hcall _ _ ihu ihv =>
      obtain ⟨_, as, hu, rfl⟩ := ihu
      obtain ⟨own, as', hv, -⟩ := ihv
      exact ⟨_, _, .instruction hcall hu hv, trivial⟩
    | nil => exact ⟨_, _, .nil, rfl⟩
    | routine hblock _ _ ihu ihv =>
      obtain ⟨own, as, hu, -⟩ := ihu
      obtain ⟨_, as', hv, rfl⟩ := ihv
      exact ⟨_, _, .routine hblock hu hv, rfl⟩
  · intro hx
    obtain ⟨own, as, h, -⟩ := hx
    induction h with
    | ret hi => exact .ret hi
    | branch hi hk hblock _ ih => exact .branch hi hk hblock ih
    | instruction hcall _ _ ihu ihv => exact .instruction hcall ihu ihv
    | nil => exact .nil
    | routine hblock _ _ ihu ihv => exact .routine hblock ihu ihv

theorem Activates.perm (h : Activates control m c w own as) :
    w.Perm (own ++ as.flatMap Activation.own) := by
  induction h with
  | ret => exact .refl _
  | branch _ _ _ _ ih => exact ih.cons _
  | @instruction i fs u as blocks is v own as' _ _ _ ihu ihv =>
    rw [List.nil_append] at ihu
    rw [List.flatMap_append, List.cons_append]
    apply List.Perm.cons
    exact (ihu.append ihv).trans (List.perm_append_comm_assoc ..)
  | nil => exact .refl _
  | @routine f block u own as fs v as' _ _ _ ihu ihv =>
    rw [List.nil_append] at ihv ⊢
    rw [List.flatMap_cons, List.flatMap_append, ← List.append_assoc]
    exact ihu.append ihv

theorem Activates.valid (h : Activates control m c w own as) :
    (∀ blocks is, c = .rest blocks is → Own control blocks is own) ∧
      ∀ a ∈ as, a.Valid control := by
  induction h with
  | ret hi =>
    refine ⟨?_, nofun⟩
    rintro _ _ ⟨⟩
    exact .ret hi
  | branch hi hk hblock _ ih =>
    refine ⟨?_, ih.2⟩
    rintro _ _ ⟨⟩
    exact .branch hi hk hblock (ih.1 _ _ rfl)
  | instruction hcall _ _ ihu ihv =>
    refine ⟨?_, List.forall_mem_append.2 ⟨ihu.2, ihv.2⟩⟩
    rintro _ _ ⟨⟩
    exact .instruction hcall.not_leaves (ihv.1 _ _ rfl)
  | nil => exact ⟨nofun, nofun⟩
  | routine hblock _ _ ihu ihv =>
    refine ⟨nofun, List.forall_mem_cons.2 ⟨⟨_, hblock, ihu.1 _ _ rfl⟩, ?_⟩⟩
    exact List.forall_mem_append.2 ⟨ihu.2, ihv.2⟩

/-- A block ends where the control leaves it. -/
def Ends (control : ι → Control) (block : List ι) : Prop :=
  ∃ is i, block = is ++ [i] ∧ (control i).Leaves ∧ ∀ x ∈ is, ¬(control x).Leaves

theorem MayCall.mem (h : MayCall m c fs) : ∀ f ∈ fs, f ∈ m := by
  cases c with
  | next =>
    rw [show fs = [] from h]
    exact nofun
  | call name =>
    rcases h with ⟨f, hf, -, -, rfl⟩ | ⟨-, h⟩
    · exact List.forall_mem_singleton.2 hf
    · exact h
  | callPointer => exact h
  | branch successors => exact h.elim
  | ret => exact h.elim

theorem Activates.mem (h : Activates control m c w own as)
    (hc : ∀ fs, c = .routines fs → ∀ f ∈ fs, f ∈ m) : ∀ a ∈ as, a.routine ∈ m := by
  induction h with
  | ret => exact nofun
  | branch _ _ _ _ ih => exact ih nofun
  | instruction hcall _ _ ihu ihv =>
    refine List.forall_mem_append.2 ⟨ihu ?_, ihv nofun⟩
    rintro _ ⟨⟩
    exact hcall.mem
  | nil => exact nofun
  | routine _ _ _ ihu ihv =>
    have hfs := List.forall_mem_cons.1 (hc _ rfl)
    refine List.forall_mem_cons.2 ⟨hfs.1, List.forall_mem_append.2 ⟨ihu nofun, ihv ?_⟩⟩
    rintro _ ⟨⟩
    exact hfs.2

variable {blocks : List (List ι)}

def blockAt (blocks : List (List ι)) (k : Nat) : List ι := blocks[k]?.getD []

/-- The end of the block leads to the other block. -/
def LeadsTo (control : ι → Control) (blocks : List (List ι)) (k k' : Nat) : Prop :=
  ∃ i successors, (blockAt blocks k).getLast? = some i ∧ control i = .branch successors ∧
    k' ∈ successors ∧ k' < blocks.length

def Returns (control : ι → Control) (blocks : List (List ι)) (k : Nat) : Prop :=
  ∃ i, (blockAt blocks k).getLast? = some i ∧ control i = .ret

/-- A walk from block to block, with the blocks that are entered. -/
def BlockWalk (control : ι → Control) (blocks : List (List ι)) : Nat → List Nat → Nat → Prop :=
  Path fun k entered k' => LeadsTo control blocks k k' ∧ entered = k'

theorem BlockWalk.leadsTo (h : BlockWalk control blocks k ks t) :
    ∀ k' ∈ ks, ∃ k, LeadsTo control blocks k k' := by
  induction h with
  | nil => exact List.forall_mem_nil _
  | cons he _ ih =>
    obtain ⟨he, rfl⟩ := he
    exact List.forall_mem_cons.2 ⟨⟨_, he⟩, ih⟩

theorem BlockWalk.lt (h : BlockWalk control blocks k ks t) : ∀ k ∈ ks, k < blocks.length := by
  intro k hk
  obtain ⟨_, -, -, -, -, -, hlt⟩ := h.leadsTo k hk
  exact hlt

theorem Ends.leaves_iff (h : Ends control (before ++ i :: after)) :
    (control i).Leaves ↔ after = [] := by
  obtain ⟨is, j, hsplit, hj, his⟩ := h
  rcases List.eq_nil_or_concat after with rfl | ⟨after, x, rfl⟩
  · have heq := congrArg List.getLast? hsplit
    rw [List.getLast?_concat, List.getLast?_concat, Option.some.injEq] at heq
    simp only [heq, hj]
  · rw [List.concat_eq_append, ← List.cons_append, ← List.append_assoc] at hsplit
    have heq := (List.append_inj' hsplit rfl).1
    have hmem : i ∈ is := by
      rw [← heq]
      exact List.mem_append_right _ List.mem_cons_self
    simp only [his i hmem, List.concat_eq_append, List.append_eq_nil_iff, List.cons_ne_nil,
      and_false]

theorem blockAt_of_getElem? (h : blocks[k]? = some block) : blockAt blocks k = block := by
  rw [blockAt, h, Option.getD_some]

section map

variable {g : κ → ι} {bbs : List (List κ)}

theorem ends_map {block : List κ} :
    Ends control (block.map g) ↔ Ends (fun x => control (g x)) block := by
  apply Iff.intro
  · intro hx
    obtain ⟨is, i, hsplit, hi, his⟩ := hx
    obtain ⟨js, ks, rfl, rfl, hks⟩ := List.map_eq_append_iff.1 hsplit
    obtain ⟨j, rfl, rfl⟩ := List.map_eq_singleton_iff.1 hks
    exact ⟨js, j, rfl, hi, fun x hx => his _ (List.mem_map_of_mem hx)⟩
  · intro hx
    obtain ⟨is, i, rfl, hi, his⟩ := hx
    refine ⟨is.map g, g i, List.map_append, hi, fun x hx => ?_⟩
    obtain ⟨y, hy, rfl⟩ := List.mem_map.1 hx
    exact his y hy

theorem getLast?_blockAt_map (g : κ → ι) (bbs : List (List κ)) (k : Nat) :
    (blockAt (bbs.map (List.map g)) k).getLast? = (blockAt bbs k).getLast?.map g := by
  rw [blockAt, blockAt, List.getElem?_map]
  cases bbs[k]? with
  | none => rfl
  | some block => exact List.getLast?_map

theorem leadsTo_map :
    LeadsTo control (bbs.map (List.map g)) k k' ↔ LeadsTo (fun x => control (g x)) bbs k k' := by
  simp only [LeadsTo, getLast?_blockAt_map, List.length_map, Option.map_eq_some_iff]
  apply Iff.intro
  · rintro ⟨_, successors, ⟨i, hi, rfl⟩, h⟩
    exact ⟨i, successors, hi, h⟩
  · rintro ⟨i, successors, hi, h⟩
    exact ⟨g i, successors, ⟨i, hi, rfl⟩, h⟩

theorem returns_map :
    Returns control (bbs.map (List.map g)) k ↔ Returns (fun x => control (g x)) bbs k := by
  simp only [Returns, getLast?_blockAt_map, Option.map_eq_some_iff]
  apply Iff.intro
  · rintro ⟨_, ⟨i, hi, rfl⟩, h⟩
    exact ⟨i, hi, h⟩
  · rintro ⟨i, hi, h⟩
    exact ⟨g i, ⟨i, hi, rfl⟩, h⟩

end map

theorem Own.walk (hends : ∀ block ∈ blocks, Ends control block) (h : Own control blocks is w)
    (hk : blocks[k]? = some (before ++ is)) :
    ∃ ks t, BlockWalk control blocks k ks t ∧ Returns control blocks t ∧
      w = is ++ ks.flatMap (blockAt blocks) := by
  induction h generalizing k before with
  | @ret i is hi =>
    have hend := hends _ (List.mem_of_getElem? hk)
    obtain rfl := hend.leaves_iff.1 (by rw [hi]; trivial)
    refine ⟨[], k, .nil k, ⟨i, ?_, hi⟩, rfl⟩
    rw [blockAt_of_getElem? hk, List.getLast?_concat]
  | @branch i successors k' block w is hi hk' hblock _ ih =>
    have hend := hends _ (List.mem_of_getElem? hk)
    obtain rfl := hend.leaves_iff.1 (by rw [hi]; trivial)
    have hstart : blocks[k']? = some ([] ++ block) := hblock
    obtain ⟨ks, t, hwalk, hret, rfl⟩ := ih hstart
    have hleads : LeadsTo control blocks k k' :=
      ⟨i, successors, by rw [blockAt_of_getElem? hk, List.getLast?_concat], hi, hk',
        (List.getElem?_eq_some_iff.1 hblock).1⟩
    refine ⟨k' :: ks, t, .cons ⟨hleads, rfl⟩ hwalk, hret, ?_⟩
    rw [List.flatMap_cons, blockAt_of_getElem? hblock]
    rfl
  | @instruction i is w hi _ ih =>
    have hnext : blocks[k]? = some ((before ++ [i]) ++ is) := by rw [hk, List.append_cons]
    obtain ⟨ks, t, hwalk, hret, rfl⟩ := ih hnext
    exact ⟨ks, t, hwalk, hret, rfl⟩

theorem Own.before {before is w : List ι} (hb : ∀ x ∈ before, ¬(control x).Leaves)
    (h : Own control blocks is w) : Own control blocks (before ++ is) (before ++ w) := by
  induction before with
  | nil => exact h
  | cons x before ih =>
    rw [List.forall_mem_cons] at hb
    exact .instruction hb.1 (ih hb.2)

theorem BlockWalk.own (hends : ∀ block ∈ blocks, Ends control block) (h : BlockWalk control blocks k ks t)
    (hret : Returns control blocks t) (hk : k < blocks.length) :
    Own control blocks (blockAt blocks k) ((k :: ks).flatMap (blockAt blocks)) := by
  have hsplit {k : Nat} {j : ι} (hk : k < blocks.length) (hj : (blockAt blocks k).getLast? = some j) :
      ∃ is, blockAt blocks k = is ++ [j] ∧ ∀ x ∈ is, ¬(control x).Leaves := by
    have hmem : blockAt blocks k ∈ blocks := by
      rw [blockAt_of_getElem? (List.getElem?_eq_getElem hk)]
      exact List.getElem_mem hk
    obtain ⟨is, i, heq, -, his⟩ := hends _ hmem
    rw [heq, List.getLast?_concat, Option.some.injEq] at hj
    exact ⟨is, by rw [heq, hj], his⟩
  rw [List.flatMap_cons]
  induction h with
  | nil k =>
    obtain ⟨i, hi, hcontrol⟩ := hret
    obtain ⟨is, heq, his⟩ := hsplit hk hi
    rw [heq, List.flatMap_nil, List.append_nil]
    exact Own.before his (.ret hcontrol)
  | @cons k x k' ks t he _ ih =>
    obtain ⟨⟨i, successors, hi, hcontrol, hmem, hlt⟩, rfl⟩ := he
    obtain ⟨is, heq, his⟩ := hsplit hk hi
    rw [heq, List.append_assoc, List.flatMap_cons]
    apply Own.before his
    apply Own.branch hcontrol hmem _ (ih hret hlt)
    rw [blockAt_of_getElem? (List.getElem?_eq_getElem hlt), List.getElem?_eq_getElem hlt]

theorem own_iff_walk (hends : ∀ block ∈ blocks, Ends control block) (hk : k < blocks.length)
    (w : List ι) :
    Own control blocks (blockAt blocks k) w ↔
      ∃ ks t, BlockWalk control blocks k ks t ∧ Returns control blocks t ∧
        w = (k :: ks).flatMap (blockAt blocks) := by
  apply Iff.intro
  · intro h
    have hget : blocks[k]? = some ([] ++ blockAt blocks k) := by
      rw [blockAt_of_getElem? (List.getElem?_eq_getElem hk), List.nil_append,
        List.getElem?_eq_getElem hk]
    exact h.walk hends hget
  · intro hx
    obtain ⟨ks, t, hwalk, hret, rfl⟩ := hx
    exact hwalk.own hends hret hk

end Library
