import LibcSandbox.Library.Machine
import Mathlib.Logic.Function.Iterate

namespace Library
set_option autoImplicit true

variable {ι σ τ : Type*} [DecidableEq ι] {step : σ → τ → σ × τ} {I : σ → Prop} {J : τ → Prop}

/-- Threads, each with a state of its own, that work on a shared state. -/
structure Threads (ι σ τ : Type*) where
  shared : σ
  thread : ι → τ

/-- One thread makes its next step. -/
def Threads.turn (step : σ → τ → σ × τ) (c : Threads ι σ τ) (i : ι) : Threads ι σ τ where
  shared := (step c.shared (c.thread i)).1
  thread := Function.update c.thread i (step c.shared (c.thread i)).2

theorem Threads.turn_self (c : Threads ι σ τ) (i : ι) :
    (c.turn step i).thread i = (step c.shared (c.thread i)).2 := Function.update_self ..

theorem Threads.turn_of_ne (c : Threads ι σ τ) {i j : ι} (h : j ≠ i) :
    (c.turn step i).thread j = c.thread j := Function.update_of_ne h ..

/-- The shared state and every thread are as they should be. -/
structure Threads.All (I : σ → Prop) (J : τ → Prop) (c : Threads ι σ τ) : Prop where
  shared : I c.shared
  thread : ∀ i, J (c.thread i)

theorem Threads.All.turn {c : Threads ι σ τ} (h : c.All I J)
    (hi : I (step c.shared (c.thread i)).1 ∧ J (step c.shared (c.thread i)).2) :
    (c.turn step i).All I J where
  shared := hi.1
  thread := by
    intro j
    by_cases hj : j = i
    · rw [hj, Threads.turn_self]
      exact hi.2
    · rw [Threads.turn_of_ne c hj]
      exact h.thread j

theorem Threads.foldl_replicate (c : Threads ι σ τ) (i : ι) (n : Nat) :
    (List.replicate n i).foldl (Threads.turn step) c =
      ⟨((Function.uncurry step)^[n] (c.shared, c.thread i)).1,
        Function.update c.thread i ((Function.uncurry step)^[n] (c.shared, c.thread i)).2⟩ := by
  induction n generalizing c with
  | zero => simp only [List.replicate_zero, List.foldl_nil, Function.iterate_zero, id_eq,
      Function.update_eq_self]
  | succ n ih =>
    rw [List.replicate_succ, List.foldl_cons, ih, Function.iterate_succ_apply, Threads.turn]
    simp only [Function.update_self, Function.update_idem]
    rfl

theorem Threads.foldl_of_not_mem (c : Threads ι σ τ) {w : List ι} (h : i ∉ w) :
    (w.foldl (Threads.turn step) c).thread i = c.thread i := by
  induction w generalizing c with
  | nil => rfl
  | cons j w ih =>
    rw [List.mem_cons, not_or] at h
    rw [List.foldl_cons, ih _ h.2, Threads.turn_of_ne c h.1]

end Library
