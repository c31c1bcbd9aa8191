import Mathlib.Algebra.BigOperators.Group.List.Basic
import Mathlib.Algebra.Order.Ring.Nat

namespace Library
set_option autoImplicit true

variable {α β : Type*} {At At' : Nat → α → Prop} {size : α → Nat}

/-- The items lie one after another from `off` on, each taking `size` units. -/
def LaidOut (At : Nat → α → Prop) (size : α → Nat) : Nat → List α → Prop
  | _, [] => True
  | off, x :: xs => At off x ∧ LaidOut At size (off + size x) xs

/-- The number of units a list of items takes. -/
def extent (size : α → Nat) (xs : List α) : Nat := (xs.map size).sum

@[simp] theorem extent_nil : extent size [] = 0 := rfl

@[simp] theorem extent_cons (x : α) (xs : List α) :
    extent size (x :: xs) = size x + extent size xs := by
  simp only [extent, List.map_cons, List.sum_cons]

@[simp] theorem extent_append (xs ys : List α) :
    extent size (xs ++ ys) = extent size xs + extent size ys := by
  simp only [extent, List.map_append, List.sum_append]

theorem extent_const (c : Nat) (xs : List α) : extent (fun _ => c) xs = xs.length * c := by
  induction xs with
  | nil => simp only [extent_nil, List.length_nil, Nat.zero_mul]
  | cons x xs ih => rw [extent_cons, ih, List.length_cons, Nat.succ_mul, Nat.add_comm]

theorem laidOut_append {xs ys : List α} :
    LaidOut At size off (xs ++ ys) ↔
      LaidOut At size off xs ∧ LaidOut At size (off + extent size xs) ys := by
  induction xs generalizing off with
  | nil => simp only [List.nil_append, LaidOut, true_and, extent_nil, Nat.add_zero]
  | cons x xs ih =>
    simp only [List.cons_append, LaidOut, ih, extent_cons, and_assoc, Nat.add_assoc]

theorem LaidOut.get {xs : List α} (h : LaidOut At size off xs) (hi : xs[i]? = some x) :
    At (off + extent size (xs.take i)) x := by
  induction xs generalizing off i with
  | nil => simp at hi
  | cons y ys ih =>
    cases i with
    | zero =>
      simp only [List.getElem?_cons_zero, Option.some.injEq] at hi
      subst hi
      simpa only [List.take_zero, extent_nil, Nat.add_zero] using h.1
    | succ i =>
      have ht := ih h.2 (by simpa only [List.getElem?_cons_succ] using hi)
      simpa only [List.take_succ_cons, extent_cons, Nat.add_assoc] using ht

/-- A layout only depends on what holds inside its own extent. -/
theorem LaidOut.imp {xs : List α} (h : LaidOut At size off xs)
    (himp : ∀ o x, off ≤ o → o + size x ≤ off + extent size xs → At o x → At' o x) :
    LaidOut At' size off xs := by
  induction xs generalizing off with
  | nil => trivial
  | cons x xs ih =>
    refine ⟨himp off x (Nat.le_refl _) (by rw [extent_cons]; omega) h.1, ih h.2 ?_⟩
    intro o y ho hy hat
    exact himp o y (by omega) (by rw [extent_cons]; omega) hat

theorem LaidOut.take {xs : List α} (h : LaidOut At size off xs) (n : Nat) :
    LaidOut At size off (xs.take n) := by
  rw [← List.take_append_drop n xs] at h
  exact (laidOut_append.1 h).1

end Library
