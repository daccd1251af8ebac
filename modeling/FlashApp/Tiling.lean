import Mathlib.Algebra.BigOperators.Group.List.Basic
import Mathlib.Algebra.GroupWithZero.Nat

namespace FlashApp.Tiling

variable {α : Type} {size : α → Nat}

/-- A piece of an area, with its start and the start of the piece before. -/
structure Spot (α : Type) where
  start : Nat
  before : Nat
  piece : α

def total (size : α → Nat) (xs : List α) : Nat := (xs.map size).sum

@[simp] theorem total_nil : total size [] = 0 := rfl

@[simp] theorem total_cons (x : α) (xs : List α) : total size (x :: xs) = size x + total size xs := rfl

@[simp] theorem total_append (xs ys : List α) : total size (xs ++ ys) = total size xs + total size ys := by
  simp [total]

/-- The pieces side by side from `o` on; `p` is the start of the piece before
them. -/
def spots (size : α → Nat) : Nat → Nat → List α → List (Spot α)
  | _, _, [] => []
  | o, p, x :: xs => ⟨o, p, x⟩ :: spots size (o + size x) o xs

def lastStart (size : α → Nat) : Nat → Nat → List α → Nat
  | _, p, [] => p
  | o, _, x :: xs => lastStart size (o + size x) o xs

theorem lastStart_append (o p : Nat) (xs ys : List α) :
    lastStart size o p (xs ++ ys) = lastStart size (o + total size xs) (lastStart size o p xs) ys := by
  induction xs generalizing o p with
  | nil => simp [lastStart]
  | cons x xs ih =>
    rw [List.cons_append, lastStart, ih, total_cons, Nat.add_assoc]
    rfl

theorem spots_append (o p : Nat) (xs ys : List α) :
    spots size o p (xs ++ ys) =
      spots size o p xs ++ spots size (o + total size xs) (lastStart size o p xs) ys := by
  induction xs generalizing o p with
  | nil => simp [spots, lastStart]
  | cons x xs ih =>
    rw [List.cons_append, spots, ih, total_cons, Nat.add_assoc]
    rfl

theorem spots_bounds {o p : Nat} {xs : List α} {s : Spot α} (hs : s ∈ spots size o p xs) :
    o ≤ s.start ∧ s.start + size s.piece ≤ o + total size xs := by
  induction xs generalizing o p with
  | nil => simp [spots] at hs
  | cons x xs ih =>
    rw [spots, List.mem_cons] at hs
    obtain rfl | hs := hs
    · simp
    · obtain ⟨h1, h2⟩ := ih hs
      rw [total_cons]
      omega

theorem map_piece_spots (o p : Nat) (xs : List α) : (spots size o p xs).map Spot.piece = xs := by
  induction xs generalizing o p with
  | nil => rfl
  | cons x xs ih => rw [spots, List.map_cons, ih]

theorem piece_mem {o p : Nat} {xs : List α} {s : Spot α} (hs : s ∈ spots size o p xs) : s.piece ∈ xs := by
  rw [← map_piece_spots o p xs]
  exact List.mem_map_of_mem hs

end FlashApp.Tiling
