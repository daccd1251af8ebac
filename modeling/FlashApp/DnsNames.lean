import FlashApp.Dns
import FlashApp.Loops

namespace FlashApp.Dns

open Bytes Eth Fuel

/-- The name at `p` expands to `text`, where each label is followed by a dot,
and its own encoding ends at `q`. The first two bits of a pointer are set, and
`offset` says how far from the start of the message its two bytes lead. The
encoding of the name, and of every name that a pointer leads to, ends before
`bound`. There is no derivation for a name with a cycle. -/
inductive Expands (offset : UInt8 → UInt8 → Nat) (m : Memory) (start bound : Nat) :
    Nat → List UInt8 → Nat → Prop
  | root {p : Nat} (hp : m p = 0) (hbound : p + 1 < bound) : Expands offset m start bound p [] (p + 1)
  | label {p q : Nat} {text : List UInt8} (hpos : m p ≠ 0) (hlt : m p < 0x40)
      (h : Expands offset m start bound (p + 1 + (m p).toNat) text q) :
      Expands offset m start bound p (slice m (p + 1) (m p).toNat ++ [0x2e] ++ text) q
  | pointer {p q : Nat} {text : List UInt8} (hp : 0xc0 ≤ m p) (hbound : p + 2 < bound)
      (h : Expands offset m start bound (start + offset (m p) (m (p + 1))) text q) :
      Expands offset m start bound p text (p + 2)

/-- The offset of RFC 1035 has 14 bits. -/
def rfc1035Offset (hi lo : UInt8) : Nat := hi.toNat % 2 ^ 6 * 2 ^ 8 + lo.toNat

/-- The offset of `unpack_entry_recursive` is the second byte. -/
def lowOffset (_ lo : UInt8) : Nat := lo.toNat

variable {offset offset' : UInt8 → UInt8 → Nat} {m : Memory} {start bound bound' stop n p q q' : Nat}
variable {text text' aucBuffer : List UInt8}

theorem ne_zero_of_ge {b : UInt8} (h : 0x40 ≤ b) : b ≠ 0 := by
  rintro rfl
  exact absurd h (by decide)

theorem ge_of_pointer {b : UInt8} (h : 0xc0 ≤ b) : 0x40 ≤ b := UInt8.le_trans (by decide) h

theorem Expands.lt (h : Expands offset m start bound p text q) : p < q := by
  induction h with
  | root => omega
  | label _ _ _ ih => omega
  | pointer => omega

theorem Expands.lt_bound (h : Expands offset m start bound p text q) : q < bound := by
  induction h with
  | root _ hbound => exact hbound
  | label _ _ _ ih => exact ih
  | pointer _ hbound _ _ => exact hbound

/-- Where a name ends does not depend on what its pointers mean. -/
theorem Expands.end_unique (h : Expands offset m start bound p text q)
    (h' : Expands offset' m start bound' p text' q') : q = q' := by
  induction h generalizing text' with
  | root hp _ =>
    cases h' with
    | root => rfl
    | label hpos _ _ => exact absurd hp hpos
    | pointer hge _ _ => exact absurd hp (ne_zero_of_ge (ge_of_pointer hge))
  | label hpos hlt _ ih =>
    cases h' with
    | root hp => exact absurd hp hpos
    | label _ _ h' => exact ih h'
    | pointer hge _ _ => exact absurd hlt (UInt8.not_lt.mpr (ge_of_pointer hge))
  | pointer hge _ _ _ =>
    cases h' with
    | root hp => exact absurd hp (ne_zero_of_ge (ge_of_pointer hge))
    | label _ hlt _ => exact absurd hlt (UInt8.not_lt.mpr (ge_of_pointer hge))
    | pointer => rfl

theorem Expands.pointer_to {target : Nat} (hp : 0xc0 ≤ m p) (hbound : p + 2 < bound)
    (htarget : start + offset (m p) (m (p + 1)) = target) (h : Expands offset m start bound target text q) :
    Expands offset m start bound p text (p + 2) := by
  subst htarget
  exact .pointer hp hbound h

def IsLabel (label : List UInt8) : Prop := 0 < label.length ∧ label.length < 64

def wireName (labels : List (List UInt8)) : List UInt8 :=
  (labels.flatMap fun label => UInt8.ofNat label.length :: label) ++ [0]

def dottedName (labels : List (List UInt8)) : List UInt8 := labels.flatMap fun label => label ++ [0x2e]

theorem wireName_cons (label : List UInt8) (labels : List (List UInt8)) :
    wireName (label :: labels) = UInt8.ofNat label.length :: (label ++ wireName labels) := by
  simp [wireName]

theorem dottedName_cons (label : List UInt8) (labels : List (List UInt8)) :
    dottedName (label :: labels) = label ++ [0x2e] ++ dottedName labels := List.flatMap_cons

theorem length_wireName_cons (label : List UInt8) (labels : List (List UInt8)) :
    (wireName (label :: labels)).length = 1 + label.length + (wireName labels).length := by
  rw [wireName_cons, List.length_cons, List.length_append]
  omega

theorem holds_wireName_cons {label : List UInt8} {labels : List (List UInt8)} (hlabel : IsLabel label)
    (hm : Holds m p (wireName (label :: labels))) :
    (m p).toNat = label.length ∧ Holds m (p + 1) label ∧ Holds m (p + 1 + label.length) (wireName labels) := by
  obtain ⟨-, hlt⟩ := hlabel
  rw [wireName_cons, holds_cons, holds_append] at hm
  obtain ⟨hp, hm⟩ := hm
  refine ⟨?_, hm⟩
  rw [hp, UInt8.toNat_ofNat']
  exact Nat.mod_eq_of_lt (by omega)

/-- Without pointers the labels are what they are. -/
theorem expands_wireName (offset : UInt8 → UInt8 → Nat) (start : Nat) {labels : List (List UInt8)}
    (hlabels : ∀ label ∈ labels, IsLabel label) (hm : Holds m p (wireName labels))
    (hbound : p + (wireName labels).length < bound) :
    Expands offset m start bound p (dottedName labels) (p + (wireName labels).length) := by
  induction labels generalizing p with
  | nil =>
    have hp : m p = 0 := (holds_cons.mp hm).1
    exact .root hp hbound
  | cons label labels ih =>
    rw [List.forall_mem_cons] at hlabels
    obtain ⟨hlabel, hlabels⟩ := hlabels
    obtain ⟨hlen, hslice, hrest⟩ := holds_wireName_cons hlabel hm
    rw [length_wireName_cons, ← Nat.add_assoc, ← Nat.add_assoc] at hbound ⊢
    have hpos : m p ≠ 0 := by
      intro hz
      rw [hz] at hlen
      exact absurd hlen (by simpa using hlabel.1.ne)
    have hlt : m p < 0x40 := by
      rw [UInt8.lt_iff_toNat_lt, hlen]
      exact hlabel.2
    have hnext := ih hlabels hrest hbound
    rw [Holds, ← hlen] at hslice
    rw [← hlen] at hnext
    have hname := Expands.label hpos hlt hnext
    rwa [hslice, ← dottedName_cons, hlen] at hname

theorem length_cases (b : UInt8) : b = 0 ∨ b ≠ 0 ∧ b < 0x40 ∨ 0x40 ≤ b ∧ b < 0xc0 ∨ 0xc0 ≤ b := by
  by_cases hz : b = 0
  · exact .inl hz
  by_cases hl : b < 0x40
  · exact .inr (.inl ⟨hz, hl⟩)
  by_cases hi : b < 0xc0
  · exact .inr (.inr (.inl ⟨UInt8.not_lt.mp hl, hi⟩))
  · exact .inr (.inr (.inr (UInt8.not_lt.mp hi)))

theorem insidePacket_eq (hp : 0 < p) : insidePacket stop p = if p < stop then some p else none := by
  rw [insidePacket]
  split_ifs with h h'
  · omega
  · rfl
  · rfl
  · omega

theorem unpack_root (hp : m p = 0) (hlt : p + 1 < 2 ^ 32) :
    unpackEntryRecursive m start stop (n + 1) p aucBuffer =
      some (if p + 1 < stop then some (p + 1) else none, aucBuffer) := by
  simp only [unpackEntryRecursive, hp, ↓reduceIte]
  rw [add32_of_lt hlt, insidePacket_eq (by omega)]

theorem unpack_label (hpos : m p ≠ 0) (hlt : m p < 0x40) (hp : p + 64 < 2 ^ 32) :
    unpackEntryRecursive m start stop (n + 1) p aucBuffer =
      if p + 1 + (m p).toNat < stop then
        unpackEntryRecursive m start stop n (p + 1 + (m p).toNat)
          (aucBuffer ++ (slice m (p + 1) (m p).toNat ++ [0x2e]))
      else some (none, aucBuffer ++ (slice m (p + 1) (m p).toNat ++ [0x2e])) := by
  have hlen : (m p).toNat < 64 := UInt8.lt_iff_toNat_lt.mp hlt
  have hone : add32 p 1 = p + 1 := add32_of_lt (by omega)
  have hnext : add32 (p + 1) (m p).toNat = p + 1 + (m p).toNat := add32_of_lt (by omega)
  simp only [unpackEntryRecursive, hpos, hlt, ↓reduceIte, hone, hnext, List.append_assoc]
  by_cases h : p + 1 + (m p).toNat < stop
  · rw [if_pos h, if_pos ⟨by omega, h⟩]
  · rw [if_neg h, if_neg (fun hc => h hc.2), insidePacket_eq (by omega), if_neg h]

theorem unpack_invalid (hge : 0x40 ≤ m p) (hlt : m p < 0xc0) :
    unpackEntryRecursive m start stop (n + 1) p aucBuffer = some (none, aucBuffer) := by
  simp only [unpackEntryRecursive, ne_zero_of_ge hge, UInt8.not_lt.mpr hge, hlt, ↓reduceIte]

theorem unpack_pointer (hge : 0xc0 ≤ m p) (hp : p + 2 < 2 ^ 32) (hstart : start + 255 < 2 ^ 32) :
    unpackEntryRecursive m start stop (n + 1) p aucBuffer =
      (unpackEntryRecursive m start stop n (start + (m (p + 1)).toNat) aucBuffer).map fun r =>
        (if r.1 ≠ none ∧ p + 2 < stop then some (p + 2) else none, r.2) := by
  have hpos : m p ≠ 0 := ne_zero_of_ge (ge_of_pointer hge)
  have hlt : ¬ m p < 0x40 := UInt8.not_lt.mpr (ge_of_pointer hge)
  have hone : add32 p 1 = p + 1 := add32_of_lt (by omega)
  have htwo : add32 (p + 1) 1 = p + 2 := add32_of_lt (by omega)
  have htarget : add32 start (m (p + 1)).toNat = start + (m (p + 1)).toNat := by
    have h := (m (p + 1)).toNat_lt
    exact add32_of_lt (by omega)
  simp only [unpackEntryRecursive, hpos, hlt, UInt8.not_lt.mpr hge, ↓reduceIte, hone, htwo, htarget]
  apply congrArg (Option.map · _)
  funext r
  obtain ⟨r, text⟩ := r
  cases r with
  | none => simp
  | some q => simp [insidePacket_eq]

/-- The message from `start` to `stop` is in memory, and so is everything that
a length byte in it can lead to. -/
def InMemory (start stop : Nat) : Prop := start ≤ stop ∧ stop + 320 < 2 ^ 32

theorem unpack_of_expands (hmem : InMemory start stop) (h : Expands lowOffset m start stop p text q)
    (aucBuffer : List UInt8) :
    Returns (fun n => unpackEntryRecursive m start stop n p aucBuffer) (some q, aucBuffer ++ text) := by
  obtain ⟨hle, hstop⟩ := hmem
  induction h generalizing aucBuffer with
  | root hp hbound =>
    apply returns_of_succ
    intro n
    rw [unpack_root hp (by omega), if_pos hbound, List.append_nil]
  | @label p q text hpos hlt h ih =>
    have hpq := h.lt
    have hq := h.lt_bound
    apply (ih (aucBuffer ++ (slice m (p + 1) (m p).toNat ++ [0x2e]))).succ
    intro n hn
    rw [unpack_label hpos hlt (by omega), if_pos (by omega), hn, List.append_assoc]
  | pointer hge hbound h ih =>
    apply (ih aucBuffer).succ
    intro n hn
    rw [unpack_pointer hge (by omega) (by omega)]
    simp only [lowOffset] at hn
    rw [hn]
    simp [hbound]

theorem expands_of_unpack (hmem : InMemory start stop) (hp : p + 64 < 2 ^ 32)
    (h : unpackEntryRecursive m start stop n p aucBuffer = some (some q, text')) :
    ∃ text, text' = aucBuffer ++ text ∧ Expands lowOffset m start stop p text q := by
  obtain ⟨hle, hstop⟩ := hmem
  induction n generalizing p q aucBuffer with
  | zero => cases h
  | succ n ih =>
    obtain hz | ⟨hpos, hlt⟩ | ⟨hge, hlt⟩ | hge := length_cases (m p)
    · rw [unpack_root hz (by omega)] at h
      split_ifs at h with hbound
      · obtain ⟨hq, rfl⟩ := Prod.mk.inj (Option.some.inj h)
        obtain rfl := Option.some.inj hq
        exact ⟨[], by simp, .root hz hbound⟩
      · cases h
    · rw [unpack_label hpos hlt hp] at h
      split_ifs at h with hnext
      · obtain ⟨text, rfl, htext⟩ := ih (by omega) h
        exact ⟨slice m (p + 1) (m p).toNat ++ [0x2e] ++ text, by simp, .label hpos hlt htext⟩
      · cases h
    · rw [unpack_invalid hge hlt] at h
      cases h
    · rw [unpack_pointer hge (by omega) (by omega)] at h
      obtain ⟨⟨r, text⟩, hr, heq⟩ := Option.map_eq_some_iff.mp h
      obtain ⟨hpos, rfl⟩ := Prod.mk.inj heq
      simp only at hpos
      split_ifs at hpos with hcond
      obtain rfl := Option.some.inj hpos
      obtain ⟨q, rfl⟩ := Option.ne_none_iff_exists'.mp hcond.1
      have hlo := (m (p + 1)).toNat_lt
      obtain ⟨text, rfl, htext⟩ := ih (by omega) hr
      exact ⟨text, rfl, .pointer hge hcond.2 htext⟩

/-- The first `n` labels and pointers that the name at `p` leads through end with
a name. The offset of each pointer is below 256, and no name that a pointer leads
to ends with the message. -/
def pointersNear (m : Memory) (start stop : Nat) : Nat → Bool → Nat → Bool
  | 0, _, _ => false
  | n + 1, target, p =>
    if m p = 0 then
      !target || decide (p + 1 ≠ stop)
    else if m p < 0x40 then
      pointersNear m start stop n target (p + 1 + (m p).toNat)
    else
      decide (m p = 0xc0) && (!target || decide (p + 2 ≠ stop)) &&
        pointersNear m start stop n true (start + (m (p + 1)).toNat)

theorem Expands.near (h : Expands rfc1035Offset m start (stop + 1) p text q) {target : Bool}
    (hmore : target = false → q < stop) (hnear : pointersNear m start stop n target p = true) :
    Expands lowOffset m start stop p text q := by
  have hlast : ∀ {target : Bool} {q : Nat}, (target = false → q < stop) →
      (!target || decide (q ≠ stop)) = true → q < stop + 1 → q < stop := by
    intro target q hmore hne hlt
    cases target with
    | false => exact hmore rfl
    | true =>
      have hq : q ≠ stop := of_decide_eq_true hne
      omega
  induction n generalizing p text q target with
  | zero => cases hnear
  | succ n ih =>
    cases h with
    | root hp hbound =>
      simp only [pointersNear, hp, ↓reduceIte] at hnear
      exact .root hp (hlast hmore hnear hbound)
    | label hpos hlt h =>
      simp only [pointersNear, hpos, hlt, ↓reduceIte] at hnear
      exact .label hpos hlt (ih h hmore hnear)
    | pointer hp hbound h =>
      have hlt : ¬ m p < 0x40 := UInt8.not_lt.mpr (ge_of_pointer hp)
      simp only [pointersNear, ne_zero_of_ge (ge_of_pointer hp), hlt, ↓reduceIte, Bool.and_eq_true,
        decide_eq_true_eq] at hnear
      obtain ⟨⟨hfirst, hend⟩, hnear⟩ := hnear
      have hoffset : rfc1035Offset (m p) (m (p + 1)) = (m (p + 1)).toNat := by
        rw [hfirst, rfc1035Offset]
        exact Nat.zero_add _
      rw [hoffset] at h
      exact .pointer hp (hlast hmore hend hbound) (ih h (by simp) hnear)

/-- A name whose pointers are near is unpacked. -/
theorem unpack_of_pointersNear (hmem : InMemory start stop)
    (hname : Expands rfc1035Offset m start (stop + 1) p text q) (hmore : q < stop)
    (hnear : pointersNear m start stop n false p = true) :
    Returns (fun n => unpackEntryRecursive m start stop n p []) (some q, text) :=
  unpack_of_expands hmem (hname.near (fun _ => hmore) hnear) []

/-- A name of RFC 1035 that does not end with the message is unpacked exactly
if it expands to the same labels when only the second byte of each pointer
counts and no name that a pointer leads to ends with the message. -/
theorem unpack_rfc1035_iff (hmem : InMemory start stop)
    (hname : Expands rfc1035Offset m start (stop + 1) p text q) (hmore : q < stop) :
    Returns (fun n => unpackEntryRecursive m start stop n p []) (some q, text) ↔
      ∃ q', Expands lowOffset m start stop p text q' := by
  constructor
  · intro hret
    obtain ⟨n, hn⟩ := hret.exists
    have hp := hname.lt
    have hstop := hmem.2
    obtain ⟨text', htext, hexp⟩ := expands_of_unpack hmem (by omega) hn
    rw [List.nil_append] at htext
    subst htext
    exact ⟨q, hexp⟩
  · rintro ⟨q', hexp⟩
    obtain rfl := hname.end_unique hexp
    exact unpack_of_expands hmem hexp []

/-- The name `a` at offset 2, a pointer to it at offset 5, and the same name
at offset 300 with a pointer to it at offset 303. -/
def exampleMessage : Memory := fun x =>
  (List.replicate 2 0 ++ ([1, 0x61, 0, 0xc0, 2] ++ (List.replicate 293 0 ++ [1, 0x61, 0, 0xc1, 44])) :
    List UInt8).getD x 0

theorem inMemory_exampleMessage : InMemory 0 320 := by
  unfold InMemory
  decide

theorem expands_exampleMessage (offset : UInt8 → UInt8 → Nat) {bound p : Nat}
    (hm : Holds exampleMessage p (wireName [[0x61]])) (hbound : p + 3 < bound) :
    Expands offset exampleMessage 0 bound p [0x61, 0x2e] (p + 3) := by
  apply expands_wireName offset 0 _ hm hbound
  rw [List.forall_mem_singleton]
  exact ⟨by decide, by decide⟩

theorem unpack_rfc1035_iff_exampleMessage :
    Returns (fun n => unpackEntryRecursive exampleMessage 0 320 n 5 []) (some 7, [0x61, 0x2e]) := by
  have hm : Holds exampleMessage 2 (wireName [[0x61]]) := rfl
  have hname : Expands rfc1035Offset exampleMessage 0 321 5 [0x61, 0x2e] 7 :=
    .pointer_to (by decide) (by decide) (by decide) (expands_exampleMessage rfc1035Offset hm (by decide))
  refine (unpack_rfc1035_iff inMemory_exampleMessage hname (by decide)).mpr ⟨7, ?_⟩
  exact .pointer_to (by decide) (by decide) (by decide) (expands_exampleMessage lowOffset hm (by decide))

/-- The offset 300 of the second pointer is taken for 44, where there is no
name. -/
theorem far_pointer_lost :
    ¬ ∀ (m : Memory) (start stop p q : Nat) (text : List UInt8), InMemory start stop →
      Expands rfc1035Offset m start (stop + 1) p text q → text.length ≤ 64 → q < stop →
        Returns (fun n => unpackEntryRecursive m start stop n p []) (some q, text) := by
  intro hall
  have hm : Holds exampleMessage 300 (wireName [[0x61]]) := by
    unfold Holds
    decide +kernel
  have hname : Expands rfc1035Offset exampleMessage 0 321 303 [0x61, 0x2e] 305 :=
    .pointer_to (by decide +kernel) (by decide) (by decide +kernel)
      (expands_exampleMessage rfc1035Offset hm (by decide))
  have hret := hall exampleMessage 0 320 303 305 _ inMemory_exampleMessage hname (by decide) (by decide)
  have hroot : Expands lowOffset exampleMessage 0 320 44 [] 45 := .root (by decide +kernel) (by decide)
  have hlow : Expands lowOffset exampleMessage 0 320 303 [] 305 :=
    .pointer_to (by decide +kernel) (by decide) (by decide +kernel) hroot
  exact absurd (hret.unique (unpack_of_expands inMemory_exampleMessage hlow [])) (by decide)

end FlashApp.Dns
