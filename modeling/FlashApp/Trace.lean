import Mathlib.Data.List.Basic

namespace FlashApp.Trace

variable {ε β : Type}

/-- A safety property with a view of the past: `P` holds of each event of the
trace together with the events before it. -/
def Always (P : List ε → ε → Prop) (t : List ε) : Prop :=
  ∀ pre e post, t = pre ++ e :: post → P pre e

theorem always_nil (P : List ε → ε → Prop) : Always P [] := by
  intro pre e post h
  simp at h

theorem always_cons {P : List ε → ε → Prop} {e : ε} {t : List ε} :
    Always P (e :: t) ↔ P [] e ∧ Always (fun pre => P (e :: pre)) t := by
  constructor
  · intro h
    refine ⟨h [] e t rfl, ?_⟩
    intro pre e' post ht
    exact h (e :: pre) e' post (by rw [ht, List.cons_append])
  · rintro ⟨he, ht⟩ pre e' post h
    cases pre with
    | nil =>
      obtain ⟨rfl, -⟩ := List.cons.inj h
      exact he
    | cons d pre =>
      obtain ⟨rfl, h'⟩ := List.cons.inj h
      exact ht pre e' post h'

theorem always_singleton {P : List ε → ε → Prop} {e : ε} : Always P [e] ↔ P [] e := by
  simp [always_cons, always_nil]

theorem always_append {P : List ε → ε → Prop} {s t : List ε} :
    Always P (s ++ t) ↔ Always P s ∧ Always (fun pre => P (s ++ pre)) t := by
  induction s generalizing P with
  | nil => simpa using fun _ => always_nil P
  | cons e s ih => simp only [List.cons_append, always_cons, ih, and_assoc]

theorem Always.mono {P Q : List ε → ε → Prop} {t : List ε} (h : Always P t)
    (hPQ : ∀ pre e, P pre e → Q pre e) : Always Q t :=
  fun pre e post ht => hPQ pre e (h pre e post ht)

theorem Always.of_forall {P : List ε → ε → Prop} {t : List ε} (h : ∀ e ∈ t, ∀ pre, P pre e) :
    Always P t := by
  rintro pre e post rfl
  exact h e (by simp) pre

theorem split_append {s t pre post : List ε} {e : ε} (h : s ++ t = pre ++ e :: post) :
    e ∈ s ∨ ∃ pre', t = pre' ++ e :: post := by
  obtain ⟨u, -, hu⟩ | ⟨u, rfl, hu⟩ := List.append_eq_append_iff.mp h
  · exact .inr ⟨u, hu⟩
  · cases u with
    | nil => exact .inr ⟨[], hu.symm⟩
    | cons d u =>
      obtain ⟨rfl, -⟩ := List.cons.inj hu
      exact .inl (by simp)

/-- The most recent event that `f` picks, as `f` sees it. -/
def last (f : ε → Option β) (t : List ε) : Option β := (t.filterMap f).getLast?

theorem last_append (f : ε → Option β) (s t : List ε) :
    last f (s ++ t) = (last f t).or (last f s) := by
  simp only [last, List.filterMap_append, List.getLast?_append]

theorem last_append_some {f : ε → Option β} {t : List ε} {b : β} (s : List ε)
    (h : last f t = some b) : last f (s ++ t) = some b := by
  rw [last_append, h, Option.some_or]

theorem last_eq_none {f : ε → Option β} {t : List ε} : last f t = none ↔ ∀ e ∈ t, f e = none := by
  simp only [last, List.getLast?_eq_none_iff, List.filterMap_eq_nil_iff]

theorem last_append_none {f : ε → Option β} {t : List ε} (s : List ε)
    (h : ∀ e ∈ t, f e = none) : last f (s ++ t) = last f s := by
  rw [last_append, last_eq_none.mpr h, Option.none_or]

end FlashApp.Trace
