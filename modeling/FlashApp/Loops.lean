import Mathlib.Data.List.FinRange

namespace FlashApp.While

variable {σ : Type} {c : σ → Bool} {b : σ → σ}

/-- A while loop on a state. The fuel bounds the number of rounds; `none` says
that the loop is still running then. -/
def whileDo (c : σ → Bool) (b : σ → σ) : Nat → σ → Option σ
  | 0, _ => none
  | n + 1, s => if c s then whileDo c b n (b s) else some s

theorem whileDo_mono {n k : Nat} {s t : σ} (h : whileDo c b n s = some t) (hk : n ≤ k) :
    whileDo c b k s = some t := by
  induction n generalizing s k with
  | zero => simp [whileDo] at h
  | succ n ih =>
    obtain ⟨k, rfl⟩ : ∃ j, k = j + 1 := ⟨k - 1, by omega⟩
    rw [whileDo] at h ⊢
    split at h
    · next hc =>
      rw [if_pos hc]
      exact ih h (by omega)
    · next hc =>
      rw [if_neg hc]
      exact h

theorem whileDo_partial (Inv : σ → Prop) (hstep : ∀ s, Inv s → c s = true → Inv (b s))
    {n : Nat} {s t : σ} (hs : Inv s) (h : whileDo c b n s = some t) : Inv t := by
  induction n generalizing s with
  | zero => simp [whileDo] at h
  | succ n ih =>
    cases hc : c s with
    | false =>
      simp only [whileDo, hc, Bool.false_eq_true, ↓reduceIte, Option.some.injEq] at h
      rwa [← h]
    | true =>
      simp only [whileDo, hc, ↓reduceIte] at h
      exact ih (hstep s hs hc) h

/-- Total correctness of a while loop: an invariant and a measure that each
round decreases. -/
theorem whileDo_total (Inv : σ → Prop) (μ : σ → Nat)
    (hstep : ∀ s, Inv s → c s = true → Inv (b s) ∧ μ (b s) < μ s)
    {n : Nat} {s : σ} (hs : Inv s) (hn : μ s < n) :
    ∃ t, whileDo c b n s = some t ∧ Inv t ∧ c t = false := by
  induction n generalizing s with
  | zero => omega
  | succ n ih =>
    cases hc : c s with
    | false => exact ⟨s, by simp [whileDo, hc], hs, hc⟩
    | true =>
      obtain ⟨hb, hlt⟩ := hstep s hs hc
      obtain ⟨t, ht, hi, hf⟩ := ih hb (by omega)
      exact ⟨t, by simpa [whileDo, hc] using ht, hi, hf⟩

end FlashApp.While

namespace FlashApp.Scan

variable {σ : Type} {live hit : σ → Bool} {next : σ → σ} {s : σ}

/-- Look for a hit, from one position to the next, as long as the positions
are live. The fuel bounds the number of positions; the outer `none` says that
the search is still going on then. -/
def scan (live hit : σ → Bool) (next : σ → σ) : Nat → σ → Option (Option σ)
  | 0, _ => none
  | n + 1, s =>
    if live s then
      if hit s then some (some s) else scan live hit next n (next s)
    else some none

theorem scan_mono {n k : Nat} {r : Option σ} (hr : scan live hit next n s = some r) (hk : n ≤ k) :
    scan live hit next k s = some r := by
  induction n generalizing s k with
  | zero => simp [scan] at hr
  | succ n ih =>
    obtain ⟨k, rfl⟩ : ∃ j, k = j + 1 := ⟨k - 1, by omega⟩
    rw [scan] at hr ⊢
    split_ifs at hr ⊢
    · exact hr
    · exact ih hr (by omega)
    · exact hr

/-- A search whose measure decreases from each live position to the next one
ends. -/
theorem exists_scan (Inv : σ → Prop) (μ : σ → Nat)
    (hnext : ∀ s, Inv s → live s = true → Inv (next s) ∧ μ (next s) < μ s) {n : Nat} (hs : Inv s)
    (hn : μ s < n) : ∃ r, scan live hit next n s = some r := by
  induction n generalizing s with
  | zero => omega
  | succ n ih =>
    rw [scan]
    split_ifs with hlive hhit
    · exact ⟨_, rfl⟩
    · obtain ⟨hi, hlt⟩ := hnext s hs hlive
      exact ih hi (by omega)
    · exact ⟨_, rfl⟩

end FlashApp.Scan

namespace FlashApp.Fuel

variable {α β : Type} {f g : Nat → Option α} {a b : α}

/-- With enough fuel a computation has the result `a`. -/
def Returns (f : Nat → Option α) (a : α) : Prop := ∃ N, ∀ n, N ≤ n → f n = some a

theorem Returns.exists (h : Returns f a) : ∃ n, f n = some a := by
  obtain ⟨N, h⟩ := h
  exact ⟨N, h N (Nat.le_refl N)⟩

theorem Returns.unique (ha : Returns f a) (hb : Returns f b) : a = b := by
  obtain ⟨N, ha⟩ := ha
  obtain ⟨M, hb⟩ := hb
  have h := (ha (max N M) (Nat.le_max_left N M)).symm.trans (hb (max N M) (Nat.le_max_right N M))
  exact Option.some.inj h

theorem returns_shift : Returns (fun n => f (n + 1)) a ↔ Returns f a := by
  constructor
  · rintro ⟨N, h⟩
    refine ⟨N + 1, fun n hn => ?_⟩
    obtain ⟨k, rfl⟩ := Nat.exists_eq_add_of_le hn
    rw [Nat.add_right_comm]
    exact h (N + k) (Nat.le_add_right N k)
  · rintro ⟨N, h⟩
    exact ⟨N, fun n hn => h (n + 1) (by omega)⟩

theorem returns_of_succ (h : ∀ n, f (n + 1) = some a) : Returns f a :=
  returns_shift.mp ⟨0, fun n _ => h n⟩

theorem Returns.succ {g : Nat → Option β} {b : β} (hg : Returns g b)
    (h : ∀ n, g n = some b → f (n + 1) = some a) : Returns f a := by
  obtain ⟨N, hg⟩ := hg
  exact returns_shift.mp ⟨N, fun n hn => h n (hg n hn)⟩

theorem Returns.congr {N : Nat} (h : ∀ n, N ≤ n → f n = g n) (hf : Returns f a) : Returns g a := by
  obtain ⟨M, hf⟩ := hf
  refine ⟨max N M, fun n hn => ?_⟩
  rw [← h n (by omega)]
  exact hf n (by omega)

theorem returns_congr {N : Nat} (h : ∀ n, N ≤ n → f n = g n) : Returns f a ↔ Returns g a :=
  ⟨Returns.congr h, Returns.congr fun n hn => (h n hn).symm⟩

theorem returns_succ_iff {N : Nat} (h : ∀ n, N ≤ n → f (n + 1) = g n) : Returns f a ↔ Returns g a :=
  returns_shift.symm.trans (returns_congr h)

theorem returns_map {k : α → β} {b : β} (hk : Function.Injective k) :
    Returns (fun n => (f n).map k) b ↔ ∃ a, Returns f a ∧ k a = b := by
  constructor
  · rintro ⟨N, h⟩
    obtain ⟨a, -, rfl⟩ := Option.map_eq_some_iff.mp (h N (Nat.le_refl N))
    refine ⟨a, ⟨N, fun n hn => ?_⟩, rfl⟩
    obtain ⟨a', ha', heq⟩ := Option.map_eq_some_iff.mp (h n hn)
    rw [ha', hk heq]
  · rintro ⟨a, ⟨N, h⟩, rfl⟩
    exact ⟨N, fun n hn => Option.map_eq_some_iff.mpr ⟨a, h n hn, rfl⟩⟩

/-- More fuel does not change a result. -/
def Stable (f : Nat → Option α) : Prop := ∀ n a, f n = some a → f (n + 1) = some a

theorem Stable.returns (hf : Stable f) {n : Nat} (h : f n = some a) : Returns f a := by
  refine ⟨n, fun k hk => ?_⟩
  obtain ⟨d, rfl⟩ := Nat.exists_eq_add_of_le hk
  induction d with
  | zero => exact h
  | succ d ih => exact hf (n + d) a (ih (Nat.le_add_right n d))

end FlashApp.Fuel

namespace FlashApp.Slots

variable {n : Nat} {p : Fin n → Bool}

/-- The entry of a table at which a loop from its start to its end stops. -/
def find (p : Fin n → Bool) : Option (Fin n) := (List.finRange n).find? p

theorem find_some {i : Fin n} (h : find p = some i) : p i = true := List.find?_some h

theorem find_eq_none : find p = none ↔ ∀ i, p i = false := by
  simp [find]

theorem exists_find {i : Fin n} (h : p i = true) : ∃ j, find p = some j := by
  cases hf : find p with
  | none =>
    rw [find_eq_none.mp hf i] at h
    cases h
  | some j => exact ⟨j, rfl⟩

theorem filter_of_find {i : Fin n} (h : find p = some i) :
    (List.finRange n).filter p = i :: (List.finRange n).filter (fun j => decide (j ≠ i) && p j) := by
  have hhead : ((List.finRange n).filter p).head? = some i := by
    rw [List.head?_filter]
    exact h
  obtain ⟨js, hjs⟩ := List.head?_eq_some_iff.mp hhead
  have hnodup : (i :: js).Nodup := hjs ▸ (List.nodup_finRange n).filter p
  have hne : ∀ j ∈ js, decide (j ≠ i) = true := by
    intro j hj
    have hij : j ≠ i := fun heq => (List.nodup_cons.mp hnodup).1 (heq ▸ hj)
    simpa using hij
  rw [← List.filter_filter, hjs, List.filter_cons_of_neg (by simp), List.filter_eq_self.mpr hne]

theorem countP_update {α : Type} (P : α → Bool) {f : Fin n → α} {i : Fin n} (hi : P (f i) = false) (a : α)
    {l : List (Fin n)} (hl : l.Nodup) :
    l.countP (fun j => P (Function.update f i a j)) =
      l.countP (fun j => P (f j)) + if i ∈ l ∧ P a = true then 1 else 0 := by
  induction l with
  | nil => simp
  | cons j l ih =>
    obtain ⟨hj, htl⟩ := List.nodup_cons.mp hl
    rw [List.countP_cons, List.countP_cons, ih htl]
    by_cases hij : i = j
    · subst hij
      simp [hi, hj]
    · simp only [Function.update_of_ne (Ne.symm hij), List.mem_cons, hij, false_or]
      omega

end FlashApp.Slots
