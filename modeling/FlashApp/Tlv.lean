import Mathlib.Algebra.BigOperators.Group.Finset.Basic
import Mathlib.Algebra.Order.BigOperators.Group.Finset
import Mathlib.Data.Finset.Insert
import Mathlib.Data.List.Basic

namespace FlashApp.Tlv

/-- The value of the first item with a code, where every item is taken for a
code, a length and a value. The first argument is what is left to skip of the
item before. -/
def find (code : UInt8) : Nat → List UInt8 → Option (List UInt8)
  | k + 1, _ :: bs => find code k bs
  | 0, c :: l :: bs =>
    if c = code ∧ l.toNat ≤ bs.length then some (bs.take l.toNat) else find code l.toNat bs
  | _, _ => none

/-- The values of an option: the bytes that are given, and any others. -/
abbrev Pattern := List (Option UInt8)

/-- No byte is another one than the pattern says. The bytes may be less than
the pattern has. -/
def fits : Pattern → List UInt8 → Bool
  | _, [] => true
  | [], _ :: _ => false
  | p :: pat, b :: bs => (p = none || p = some b) && fits pat bs

/-- The items have all options that are wanted. -/
def Meets (pat : UInt8 → Pattern) (wanted : Finset UInt8) (bs : List UInt8) : Prop :=
  ∀ code ∈ wanted, ∃ value, find code 0 bs = some value ∧
    value.length = (pat code).length ∧ fits (pat code) value = true

/-- The bytes of the options that are wanted. -/
def need (pat : UInt8 → Pattern) (wanted : Finset UInt8) : Nat := ∑ code ∈ wanted, (2 + (pat code).length)

/-- Some `room` bytes behind can complete the items to all options that are
wanted. The second argument is what is left to skip of the item before. -/
def completable (pat : UInt8 → Pattern) (room : Nat) : Finset UInt8 → Nat → List UInt8 → Bool
  | wanted, k, [] => need pat wanted + k ≤ room
  | wanted, k + 1, _ :: bs => completable pat room wanted k bs
  | wanted, 0, [c] => wanted = ∅ || need pat wanted + (if c ∈ wanted then 0 else 2) ≤ room + 1
  | wanted, 0, c :: l :: bs =>
    if wanted = ∅ then true
    else if c ∈ wanted then
      l.toNat = (pat c).length && fits (pat c) (bs.take l.toNat) &&
        completable pat room (wanted.erase c) l.toNat bs
    else completable pat room wanted l.toNat bs

variable {code c l : UInt8} {bs rest tail value : List UInt8} {pat : UInt8 → Pattern} {wanted : Finset UInt8}
  {k n room : Nat}

theorem find_nil (code : UInt8) (k : Nat) : find code k [] = none := by
  cases k <;> rfl

theorem find_of_short (h : bs.length < 2) : find code 0 bs = none := by
  cases bs with
  | nil => rfl
  | cons b bs =>
    obtain rfl := List.eq_nil_of_length_eq_zero (show bs.length = 0 by rw [List.length_cons] at h; omega)
    rfl

theorem find_eq_drop (code : UInt8) (k : Nat) (bs : List UInt8) : find code k bs = find code 0 (bs.drop k) := by
  induction k generalizing bs with
  | zero => rfl
  | succ k ih =>
    cases bs with
    | nil => rfl
    | cons b bs => exact ih bs

theorem find_item (code c l : UInt8) (bs : List UInt8) : find code 0 (c :: l :: bs) =
    if c = code ∧ l.toNat ≤ bs.length then some (bs.take l.toNat) else find code 0 (bs.drop l.toNat) := by
  rw [find, find_eq_drop]

theorem find_of_ne (h : c ≠ code) : find code 0 (c :: l :: bs) = find code 0 (bs.drop l.toNat) := by
  rw [find_item, if_neg (fun hc => h hc.1)]

theorem find_of_eq : find code 0 (code :: l :: bs) =
    if l.toNat ≤ bs.length then some (bs.take l.toNat) else none := by
  rw [find_item]
  by_cases hle : l.toNat ≤ bs.length
  · rw [if_pos ⟨rfl, hle⟩, if_pos hle]
  · rw [if_neg (fun hc => hle hc.2), if_neg hle, List.drop_eq_nil_of_le (by omega), find_nil]

/-- The induction on the items of a list of bytes. -/
theorem items_induction {motive : List UInt8 → Prop} (nil : motive []) (single : ∀ c, motive [c])
    (item : ∀ c l bs, motive (bs.drop l.toNat) → motive (c :: l :: bs)) (bs : List UInt8) : motive bs := by
  induction hn : bs.length using Nat.strong_induction_on generalizing bs with
  | _ n ih =>
    cases bs with
    | nil => exact nil
    | cons c bs =>
      cases bs with
      | nil => exact single c
      | cons l bs =>
        apply item
        apply ih (bs.drop l.toNat).length
        · rw [List.length_drop, ← hn, List.length_cons, List.length_cons]
          omega
        · rfl

/-- A whole item stays what it is when bytes come behind. -/
theorem find_append (h : find code 0 bs = some value) : find code 0 (bs ++ rest) = some value := by
  induction bs using items_induction with
  | nil => cases h
  | single c => cases h
  | item c l bs ih =>
    rw [List.cons_append, List.cons_append, find_item] at *
    split_ifs at h with hitem
    · have hlen : l.toNat ≤ (bs ++ rest).length := by
        rw [List.length_append]
        omega
      rw [if_pos ⟨hitem.1, hlen⟩, List.take_append_of_le_length hitem.2]
      exact h
    · by_cases hle : l.toNat ≤ bs.length
      · have hne : c ≠ code := fun hc => hitem ⟨hc, hle⟩
        rw [if_neg (fun hc => hne hc.1), List.drop_append_of_le_length hle]
        exact ih h
      · rw [List.drop_eq_nil_of_le (by omega), find_nil] at h
        cases h

theorem find_of_not_mem (h : code ∉ bs) : find code k bs = none := by
  fun_induction find code k bs with
  | case1 k b bs ih => exact ih (fun hmem => h (List.mem_cons_of_mem b hmem))
  | case2 c l bs hitem =>
    rw [hitem.1] at h
    exact absurd List.mem_cons_self h
  | case3 c l bs hitem ih =>
    exact ih (fun hmem => h (List.mem_cons_of_mem c (List.mem_cons_of_mem l hmem)))
  | case4 => rfl

theorem getLast_take_replicate {b : UInt8} {n : Nat} (hlt : bs.length < k)
    (hk : k ≤ (bs ++ List.replicate n b).length) : ((bs ++ List.replicate n b).take k).getLast? = some b := by
  rw [List.length_append, List.length_replicate] at hk
  have htake : (bs ++ List.replicate n b).take k = bs ++ List.replicate (k - bs.length) b := by
    rw [List.take_append, List.take_of_length_le (by omega), List.take_replicate, Nat.min_eq_left (by omega)]
  rw [htake, List.getLast?_append, List.getLast?_replicate, if_neg (by omega)]
  rfl

/-- If no whole item has the code, then what comes behind decides on the last
byte of the value. -/
theorem getLast_of_find_append {b : UInt8} {n : Nat} (h : find code 0 bs = none) (hb : b ≠ code) (hzero : b ≠ 0)
    (hv : find code 0 (bs ++ List.replicate n b) = some value) : value.getLast? = some b := by
  have hnone : ∀ k n, find code k (List.replicate n b) = none := fun k n =>
    find_of_not_mem (fun hmem => hb (List.eq_of_mem_replicate hmem).symm)
  induction bs using items_induction with
  | nil => rw [List.nil_append, hnone] at hv; cases hv
  | single c =>
    cases n with
    | zero => cases hv
    | succ n =>
      rw [List.replicate_succ, List.singleton_append, find_item] at hv
      split_ifs at hv with hitem
      · obtain rfl := Option.some.inj hv
        have hpos : 0 < b.toNat := Nat.pos_of_ne_zero (fun hz => hzero (UInt8.toNat_inj.mp hz))
        exact getLast_take_replicate (show ([] : List UInt8).length < b.toNat from hpos) hitem.2
      · rw [List.drop_replicate, hnone] at hv
        cases hv
  | item c l bs ih =>
    rw [find_item] at h
    rw [List.cons_append, List.cons_append, find_item] at hv
    split_ifs at h with hitem
    split_ifs at hv with hitem'
    · obtain rfl := Option.some.inj hv
      exact getLast_take_replicate (Nat.lt_of_not_le fun hle => hitem ⟨hitem'.1, hle⟩) hitem'.2
    · rw [List.drop_append] at hv
      by_cases hle : l.toNat ≤ bs.length
      · rw [Nat.sub_eq_zero_of_le hle, List.drop_zero] at hv
        exact ih h hv
      · rw [List.drop_eq_nil_of_le (by omega), List.nil_append, List.drop_replicate, hnone] at hv
        cases hv

theorem meets_empty (pat : UInt8 → Pattern) (bs : List UInt8) : Meets pat ∅ bs := by
  intro code hcode
  simp at hcode

theorem Meets.append (h : Meets pat wanted bs) (rest : List UInt8) : Meets pat wanted (bs ++ rest) := by
  intro code hcode
  obtain ⟨value, hfind, hvalue⟩ := h code hcode
  exact ⟨value, find_append hfind, hvalue⟩

theorem meets_of_not_mem (hc : c ∉ wanted) :
    Meets pat wanted (c :: l :: bs) ↔ Meets pat wanted (bs.drop l.toNat) := by
  apply forall₂_congr
  intro code hcode
  have hne : c ≠ code := fun h => hc (h ▸ hcode)
  rw [find_of_ne hne]

theorem meets_of_mem (hc : c ∈ wanted) :
    Meets pat wanted (c :: l :: bs) ↔ l.toNat ≤ bs.length ∧ l.toNat = (pat c).length ∧
      fits (pat c) (bs.take l.toNat) = true ∧ Meets pat (wanted.erase c) (bs.drop l.toNat) := by
  have hrest : ∀ code, code ≠ c → find code 0 (c :: l :: bs) = find code 0 (bs.drop l.toNat) :=
    fun code hne => find_of_ne hne.symm
  constructor
  · intro h
    obtain ⟨value, hfind, hlen, hfits⟩ := h c hc
    rw [find_of_eq] at hfind
    split_ifs at hfind with hle
    obtain rfl := Option.some.inj hfind
    rw [List.length_take_of_le hle] at hlen
    refine ⟨hle, hlen, hfits, fun code hcode => ?_⟩
    rw [Finset.mem_erase] at hcode
    rw [← hrest code hcode.1]
    exact h code hcode.2
  · rintro ⟨hle, hlen, hfits, h⟩ code hcode
    by_cases heq : code = c
    · subst heq
      rw [find_of_eq, if_pos hle]
      exact ⟨_, rfl, by rw [List.length_take_of_le hle, hlen], hfits⟩
    · rw [hrest code heq]
      exact h code (Finset.mem_erase.mpr ⟨heq, hcode⟩)

theorem need_erase (pat : UInt8 → Pattern) (hc : c ∈ wanted) :
    need pat wanted = 2 + (pat c).length + need pat (wanted.erase c) :=
  (Finset.add_sum_erase wanted (fun code => 2 + (pat code).length) hc).symm

theorem need_empty (pat : UInt8 → Pattern) : need pat ∅ = 0 := Finset.sum_empty

theorem not_meets_nil (hne : wanted ≠ ∅) : ¬ Meets pat wanted [] := by
  intro h
  obtain ⟨c, hc⟩ := Finset.nonempty_iff_ne_empty.mpr hne
  obtain ⟨value, hfind, -⟩ := h c hc
  cases hfind

theorem not_meets_single (hne : wanted ≠ ∅) : ¬ Meets pat wanted [c] := by
  intro h
  obtain ⟨code, hcode⟩ := Finset.nonempty_iff_ne_empty.mpr hne
  obtain ⟨value, hfind, -⟩ := h code hcode
  cases hfind

/-- The options that are wanted are apart from each other. -/
theorem need_le (h : Meets pat wanted bs) : need pat wanted ≤ bs.length := by
  induction bs using items_induction generalizing wanted with
  | nil =>
    by_cases hne : wanted = ∅
    · rw [hne, need_empty]
      exact Nat.zero_le _
    · exact absurd h (not_meets_nil hne)
  | single c =>
    by_cases hne : wanted = ∅
    · rw [hne, need_empty]
      exact Nat.zero_le _
    · exact absurd h (not_meets_single hne)
  | item c l bs ih =>
    rw [List.length_cons, List.length_cons]
    by_cases hc : c ∈ wanted
    · obtain ⟨hle, hlen, -, h⟩ := (meets_of_mem hc).mp h
      have hneed := ih h
      rw [List.length_drop] at hneed
      rw [need_erase pat hc]
      omega
    · have hneed := ih ((meets_of_not_mem hc).mp h)
      rw [List.length_drop] at hneed
      omega

/-- The rest of a value of which the first `n` bytes are there. -/
def complete (p : Pattern) (n : Nat) : List UInt8 := (p.drop n).map fun b => b.getD 1

theorem length_le_of_fits {p : Pattern} (h : fits p bs = true) : bs.length ≤ p.length := by
  fun_induction fits p bs with
  | case1 => exact Nat.zero_le _
  | case2 => cases h
  | case3 p pat b bs ih =>
    rw [Bool.and_eq_true] at h
    exact Nat.succ_le_succ (ih h.2)

theorem fits_of_append {p : Pattern} (h : fits p (bs ++ rest) = true) : fits p bs = true := by
  fun_induction fits p bs with
  | case1 => rfl
  | case2 => cases h
  | case3 p pat b bs ih =>
    rw [List.cons_append, fits, Bool.and_eq_true] at h
    rw [Bool.and_eq_true]
    exact ⟨h.1, ih h.2⟩

theorem length_complete {p : Pattern} (h : bs.length ≤ p.length) : (bs ++ complete p bs.length).length = p.length := by
  rw [complete, List.length_append, List.length_map, List.length_drop]
  omega

theorem fits_append {p q : Pattern} (h : bs.length = p.length) :
    fits (p ++ q) (bs ++ rest) = (fits p bs && fits q rest) := by
  induction p generalizing bs with
  | nil =>
    obtain rfl := List.eq_nil_of_length_eq_zero h
    rfl
  | cons b p ih =>
    obtain ⟨c, bs, rfl⟩ := List.exists_cons_of_length_eq_add_one h
    rw [List.cons_append, List.cons_append, fits, fits, ih (Nat.succ.inj h), Bool.and_assoc]

theorem fits_map_some (h : bs.length = value.length) : fits (value.map some) bs = true ↔ bs = value := by
  induction value generalizing bs with
  | nil =>
    obtain rfl := List.eq_nil_of_length_eq_zero h
    exact iff_of_true rfl rfl
  | cons b value ih =>
    obtain ⟨c, bs, rfl⟩ := List.exists_cons_of_length_eq_add_one h
    rw [List.map_cons, fits, Bool.and_eq_true, ih (Nat.succ.inj h), List.cons.injEq]
    simp [eq_comm]

theorem fits_replicate_none (h : bs.length ≤ n) : fits (List.replicate n none) bs = true := by
  induction n generalizing bs with
  | zero =>
    obtain rfl := List.eq_nil_of_length_eq_zero (Nat.le_zero.mp h)
    rfl
  | succ n ih =>
    cases bs with
    | nil => rfl
    | cons b bs => exact ih (Nat.le_of_succ_le_succ h)

theorem fits_complete {p : Pattern} (h : fits p bs = true) : fits p (bs ++ complete p bs.length) = true := by
  fun_induction fits p bs with
  | case1 p =>
    induction p with
    | nil => rfl
    | cons b p ih =>
      rw [List.nil_append, complete, List.length_nil, List.drop_zero] at *
      rw [List.map_cons, fits, ih, Bool.and_true]
      cases b <;> simp
  | case2 => cases h
  | case3 p pat b bs ih =>
    rw [Bool.and_eq_true] at h
    rw [List.cons_append, fits, Bool.and_eq_true]
    exact ⟨h.1, ih h.2⟩

theorem exists_value (p : Pattern) : ∃ value : List UInt8, value.length = p.length ∧ fits p value = true := by
  have hnil : fits p [] = true := by cases p <;> rfl
  exact ⟨_, length_complete (Nat.zero_le _), fits_complete hnil⟩

theorem meets_item (hc : c ∈ wanted) (hlen : value.length = (pat c).length) (hlt : value.length < 2 ^ 8)
    (hfits : fits (pat c) value = true) (h : Meets pat (wanted.erase c) bs) :
    Meets pat wanted (c :: UInt8.ofNat value.length :: (value ++ bs)) := by
  have hnat : (UInt8.ofNat value.length).toNat = value.length := by
    rw [UInt8.toNat_ofNat', Nat.mod_eq_of_lt hlt]
  rw [meets_of_mem hc, hnat, List.take_left, List.drop_left, List.length_append]
  exact ⟨Nat.le_add_right _ _, hlen, hfits, h⟩

theorem exists_meets (hpat : ∀ code, (pat code).length < 2 ^ 8) (hneed : need pat wanted ≤ n) :
    ∃ bs, bs.length = n ∧ Meets pat wanted bs := by
  induction wanted using Finset.induction_on generalizing n with
  | empty => exact ⟨List.replicate n 0, List.length_replicate, meets_empty pat _⟩
  | insert c wanted hnot ih =>
    have hc : c ∈ insert c wanted := Finset.mem_insert_self c wanted
    have hrest := need_erase pat hc
    rw [Finset.erase_insert hnot] at hrest
    obtain ⟨bs, hbs, hmeets⟩ := ih (n := n - (2 + (pat c).length)) (by omega)
    obtain ⟨value, hlen, hfits⟩ := exists_value (pat c)
    refine ⟨_, ?_, meets_item hc hlen (hlen ▸ hpat c) hfits (by rwa [Finset.erase_insert hnot])⟩
    rw [List.length_cons, List.length_cons, List.length_append, hlen, hbs]
    omega

theorem exists_meets_of_mem (hpat : ∀ code, (pat code).length < 2 ^ 8) (hc : c ∈ wanted)
    (hneed : need pat wanted ≤ n + 1) : ∃ bs, bs.length = n ∧ Meets pat wanted (c :: bs) := by
  have hrest := need_erase pat hc
  obtain ⟨bs, hbs, hmeets⟩ := exists_meets hpat
    (show need pat (wanted.erase c) ≤ n - (1 + (pat c).length) by omega)
  obtain ⟨value, hlen, hfits⟩ := exists_value (pat c)
  refine ⟨_, ?_, meets_item hc hlen (hlen ▸ hpat c) hfits hmeets⟩
  rw [List.length_cons, List.length_append, hlen, hbs]
  omega

/-- Some bytes of the value of the first item can still be chosen. -/
theorem exists_fits {p : Pattern} {tail : List UInt8} (hk : k = p.length) (hlen : k ≤ bs.length + tail.length)
    (hfits : fits p (bs.take k) = true) :
    ∃ tail', tail'.length = tail.length ∧ fits p ((bs ++ tail').take k) = true ∧
      (bs ++ tail').drop k = (bs ++ tail).drop k := by
  by_cases hle : k ≤ bs.length
  · refine ⟨tail, rfl, ?_, rfl⟩
    rwa [List.take_append_of_le_length hle]
  · rw [List.take_of_length_le (by omega)] at hfits
    have hall : (bs ++ complete p bs.length).length = p.length := length_complete (by omega)
    have hcount := hall
    rw [List.length_append] at hcount
    refine ⟨complete p bs.length ++ tail.drop (k - bs.length), ?_, ?_, ?_⟩
    · rw [List.length_append, List.length_drop]
      omega
    · rw [← List.append_assoc, List.take_append_of_le_length (by omega), List.take_of_length_le (by omega)]
      exact fits_complete hfits
    · rw [← List.append_assoc, List.drop_left' (hall.trans hk.symm), List.drop_append,
        List.drop_eq_nil_of_le (show bs.length ≤ k by omega), List.nil_append]

/-- With no byte of an item there, the options that are wanted come behind. -/
theorem exists_tail_iff (hpat : ∀ code, (pat code).length < 2 ^ 8) :
    (∃ tail : List UInt8, tail.length = room ∧ k ≤ room ∧ Meets pat wanted (tail.drop k)) ↔
      need pat wanted + k ≤ room := by
  constructor
  · rintro ⟨tail, rfl, hk, hmeets⟩
    have hneed := need_le hmeets
    rw [List.length_drop] at hneed
    omega
  · intro hneed
    obtain ⟨bs, hbs, hmeets⟩ := exists_meets hpat (show need pat wanted ≤ room - k by omega)
    refine ⟨List.replicate k 0 ++ bs, ?_, by omega, ?_⟩
    · rw [List.length_append, List.length_replicate, hbs]
      omega
    · rwa [List.drop_left' List.length_replicate]

/-- With the code of an item there, its length comes first. -/
theorem exists_tail_cons_iff (hpat : ∀ code, (pat code).length < 2 ^ 8) (hne : wanted ≠ ∅) :
    (∃ tail : List UInt8, tail.length = room ∧ Meets pat wanted (c :: tail)) ↔
      need pat wanted + (if c ∈ wanted then 0 else 2) ≤ room + 1 := by
  by_cases hc : c ∈ wanted
  · rw [if_pos hc, Nat.add_zero]
    constructor
    · rintro ⟨tail, rfl, hmeets⟩
      exact need_le hmeets
    · exact exists_meets_of_mem hpat hc
  · rw [if_neg hc]
    constructor
    · rintro ⟨tail, rfl, hmeets⟩
      cases tail with
      | nil => exact absurd hmeets (not_meets_single hne)
      | cons l tail =>
        have hneed := need_le ((meets_of_not_mem hc).mp hmeets)
        rw [List.length_drop] at hneed
        rw [List.length_cons]
        omega
    · intro hroom
      obtain ⟨bs, hbs, hmeets⟩ := exists_meets hpat (show need pat wanted ≤ room - 1 by omega)
      refine ⟨0 :: bs, by rw [List.length_cons]; omega, ?_⟩
      rwa [meets_of_not_mem hc, UInt8.toNat_zero, List.drop_zero]

theorem exists_tail_item_iff (hc : c ∈ wanted) :
    (∃ tail : List UInt8, tail.length = room ∧ Meets pat wanted (c :: l :: (bs ++ tail))) ↔
      (l.toNat = (pat c).length ∧ fits (pat c) (bs.take l.toNat) = true) ∧
        ∃ tail : List UInt8, tail.length = room ∧ l.toNat ≤ bs.length + room ∧
          Meets pat (wanted.erase c) ((bs ++ tail).drop l.toNat) := by
  simp only [meets_of_mem hc]
  constructor
  · rintro ⟨tail, rfl, hroom, hlen, hfits, hmeets⟩
    rw [List.length_append] at hroom
    refine ⟨⟨hlen, ?_⟩, tail, rfl, hroom, hmeets⟩
    rw [List.take_append] at hfits
    exact fits_of_append hfits
  · rintro ⟨⟨hlen, hfits⟩, tail, rfl, hroom, hmeets⟩
    obtain ⟨tail', htail, hfits', hdrop⟩ := exists_fits hlen hroom hfits
    rw [← hdrop] at hmeets
    exact ⟨tail', htail, by rw [List.length_append, htail]; exact hroom, hlen, hfits', hmeets⟩

/-- The induction is on the items that are there. -/
theorem completable_iff (hpat : ∀ code, (pat code).length < 2 ^ 8) :
    completable pat room wanted k bs = true ↔
      ∃ tail, tail.length = room ∧ k ≤ bs.length + room ∧ Meets pat wanted ((bs ++ tail).drop k) := by
  fun_induction completable pat room wanted k bs with
  | case1 wanted k =>
    rw [decide_eq_true_eq, ← exists_tail_iff hpat]
    simp only [List.length_nil, Nat.zero_add, List.nil_append]
  | case2 wanted k b bs ih =>
    rw [ih, List.length_cons]
    simp only [List.cons_append, List.drop_succ_cons]
    apply exists_congr
    intro tail
    have hk : k + 1 ≤ bs.length + 1 + room ↔ k ≤ bs.length + room := by omega
    rw [hk]
  | case3 wanted c =>
    rw [Bool.or_eq_true, decide_eq_true_eq, decide_eq_true_eq]
    simp only [List.drop_zero, List.singleton_append, Nat.zero_le, true_and]
    by_cases hne : wanted = ∅
    · subst hne
      exact iff_of_true (.inl rfl) ⟨_, List.length_replicate, meets_empty pat (c :: List.replicate room 0)⟩
    · rw [exists_tail_cons_iff hpat hne]
      exact or_iff_right hne
  | case4 c l bs =>
    exact iff_of_true rfl ⟨List.replicate room 0, List.length_replicate, Nat.zero_le _, meets_empty pat _⟩
  | case5 wanted c l bs hne hc ih =>
    rw [Bool.and_eq_true, Bool.and_eq_true, decide_eq_true_eq, ih]
    simp only [List.drop_zero, List.cons_append, Nat.zero_le, true_and]
    exact (exists_tail_item_iff hc).symm
  | case6 wanted c l bs hne hc ih =>
    rw [ih]
    simp only [List.drop_zero, List.cons_append, Nat.zero_le, true_and, meets_of_not_mem hc]
    apply exists_congr
    intro tail
    constructor
    · rintro ⟨htail, -, hmeets⟩
      exact ⟨htail, hmeets⟩
    · rintro ⟨rfl, hmeets⟩
      refine ⟨rfl, ?_, hmeets⟩
      by_contra hlt
      rw [List.drop_eq_nil_of_le (by rw [List.length_append]; omega)] at hmeets
      exact not_meets_nil hne hmeets

end FlashApp.Tlv
