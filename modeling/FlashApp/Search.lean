import Mathlib.Data.List.Basic
import Mathlib.Data.List.Infix

namespace FlashApp.Search

variable {α : Type} {pat xs ys : List α} {start i j : Nat}

/-- The pattern is in the list, from position `i` on. -/
def Occurs (pat xs : List α) (i : Nat) : Prop :=
  i + pat.length ≤ xs.length ∧ ∀ k < pat.length, xs[i + k]? = pat[k]?

instance [DecidableEq α] (pat xs : List α) (i : Nat) : Decidable (Occurs pat xs i) :=
  inferInstanceAs (Decidable (_ ∧ _))

theorem Occurs.mono (h : Occurs pat xs i) (hxs : xs <+: ys) : Occurs pat ys i := by
  obtain ⟨hi, hk⟩ := h
  obtain ⟨zs, rfl⟩ := hxs
  refine ⟨by rw [List.length_append]; omega, fun k hlt => ?_⟩
  rw [List.getElem?_append_left (by omega), hk k hlt]

theorem Occurs.restrict (h : Occurs pat ys i) (hxs : xs <+: ys) (hi : i + pat.length ≤ xs.length) :
    Occurs pat xs i := by
  obtain ⟨zs, rfl⟩ := hxs
  refine ⟨hi, fun k hlt => ?_⟩
  rw [← h.2 k hlt, List.getElem?_append_left (by omega)]

/-- The first place from `start` on where the pattern is. -/
structure First (pat xs : List α) (start i : Nat) : Prop where
  le : start ≤ i
  occurs : Occurs pat xs i
  before : ∀ j, start ≤ j → j < i → ¬ Occurs pat xs j

instance [DecidableEq α] (pat xs : List α) (start i : Nat) : Decidable (First pat xs start i) :=
  decidable_of_iff (start ≤ i ∧ Occurs pat xs i ∧ ∀ j < i, start ≤ j → ¬ Occurs pat xs j)
    ⟨fun h => ⟨h.1, h.2.1, fun j hle hlt => h.2.2 j hlt hle⟩,
      fun h => ⟨h.le, h.occurs, fun j hlt hle => h.before j hle hlt⟩⟩

theorem First.length_le (h : First pat xs start i) : i + pat.length ≤ xs.length := h.occurs.1

theorem First.mono (h : First pat xs start i) (hxs : xs <+: ys) : First pat ys start i where
  le := h.le
  occurs := h.occurs.mono hxs
  before j hle hlt hoccurs := by
    have hlen := h.length_le
    exact h.before j hle hlt (hoccurs.restrict hxs (by omega))

/-- Once the whole pattern is there, the data behind it does not count. -/
theorem First.restrict (h : First pat ys start i) (hxs : xs <+: ys) (hi : i + pat.length ≤ xs.length) :
    First pat xs start i where
  le := h.le
  occurs := h.occurs.restrict hxs hi
  before j hle hlt hoccurs := h.before j hle hlt (hoccurs.mono hxs)

theorem First.not_occurs (h : First pat ys start i) (hxs : xs <+: ys) (hi : xs.length < i + pat.length)
    (hle : start ≤ j) : ¬ Occurs pat xs j := by
  intro hoccurs
  have hlen := hoccurs.1
  exact h.before j hle (by omega) (hoccurs.mono hxs)

end FlashApp.Search
