import FlashApp.Lwip
import FlashApp.Search

namespace FlashApp.PbufRead

open Bytes Lwip Search

/-- The field `tot_len` of a chain; there is none without an element. -/
def totLen (p : List Pbuf) : Nat := size p % 2 ^ 16

/-- The element in which an offset is, with the elements behind it, and the
offset in there. -/
def pbufSkip : List Pbuf → Nat → List Pbuf × Nat
  | [], offset => ([], offset)
  | b :: bs, offset => if b.len ≤ offset then pbufSkip bs (offset - b.len) else (b :: bs, offset)

def pbufTryGetAt (m : Memory) (p : List Pbuf) (offset : Nat) : Option UInt8 :=
  match pbufSkip p offset with
  | ([], _) => none
  | (b :: _, i) => if i < b.len then some (m (b.payload + i)) else none

def pbufGetAt (m : Memory) (p : List Pbuf) (offset : Nat) : UInt8 := (pbufTryGetAt m p offset).getD 0

def pbufMemcmp (m : Memory) (p : List Pbuf) (offset : Nat) (s2 : List UInt8) : Nat :=
  if totLen p < offset + s2.length then
    0xffff
  else
    let (q, start) := pbufSkip p offset
    let differs := fun i => pbufGetAt m q ((start + i) % 2 ^ 16) ≠ s2.getD i 0
    match (List.range s2.length).find? differs with
    | none => 0
    | some i => min (i + 1) 0xFFFF

def pbufMemfind (m : Memory) (p : List Pbuf) (mem : List UInt8) (startOffset : Nat) : Nat :=
  let maxCmpStart := (totLen p + 2 ^ 16 - mem.length) % 2 ^ 16
  if mem.length + startOffset ≤ totLen p then
    let found := (List.range' startOffset (maxCmpStart + 1 - startOffset)).find? fun i =>
      pbufMemcmp m p i mem = 0
    found.getD 0xFFFF
  else
    0xFFFF

/-- The bytes that are copied; their number is what the function returns. -/
def pbufCopyPartial (m : Memory) : List Pbuf → (len offset : Nat) → List UInt8
  | [], _, _ => []
  | b :: bs, len, offset =>
    if len = 0 then
      []
    else if offset ≠ 0 ∧ b.len ≤ offset then
      pbufCopyPartial m bs len (offset - b.len)
    else
      let n := min (b.len - offset) len
      slice m (b.payload + offset) n ++ pbufCopyPartial m bs (len - n) 0

/-- `pbuf_remove_header` with a size within the element. -/
def pbufRemoveHeader (b : Pbuf) (n : Nat) (hn : n ≤ b.len) : Pbuf where
  payload := b.payload + n
  len := b.len - n
  len_lt := by
    have hlen := b.len_lt
    omega
  fits := by
    have hfits := b.fits
    omega

/-- What is left of a chain, and the elements that were freed. -/
def pbufFreeHeader : List Pbuf → Nat → List Pbuf × List Pbuf
  | [], _ => ([], [])
  | b :: bs, freeLeft =>
    if freeLeft = 0 then
      (b :: bs, [])
    else if h : b.len ≤ freeLeft then
      let (p, freed) := pbufFreeHeader bs (freeLeft - b.len)
      (p, b :: freed)
    else
      (pbufRemoveHeader b freeLeft (by omega) :: bs, [])

variable {m : Memory} {p : List Pbuf} {pat : List UInt8} {offset start i : Nat}

@[simp] theorem payload_cons (m : Memory) (b : Pbuf) (bs : List Pbuf) :
    payload m (b :: bs) = slice m b.payload b.len ++ payload m bs := rfl

theorem payload_append (m : Memory) (bs cs : List Pbuf) :
    payload m (bs ++ cs) = payload m bs ++ payload m cs := List.flatMap_append

theorem size_append (bs cs : List Pbuf) : size (bs ++ cs) = size bs + size cs := by
  simp [size]

theorem drop_slice (m : Memory) (a : Nat) {k n : Nat} (h : k ≤ n) :
    (slice m a n).drop k = slice m (a + k) (n - k) := by
  obtain ⟨d, rfl⟩ := Nat.exists_eq_add_of_le h
  rw [slice_add, List.drop_left' (length_slice m a k), Nat.add_sub_cancel_left]

theorem drop_payload_cons (m : Memory) {b : Pbuf} (bs : List Pbuf) {offset : Nat} (h : b.len ≤ offset) :
    (payload m (b :: bs)).drop offset = (payload m bs).drop (offset - b.len) := by
  have hnil : (slice m b.payload b.len).drop offset = [] := List.drop_eq_nil_of_le (by simpa using h)
  rw [payload_cons, List.drop_append, hnil, length_slice, List.nil_append]

theorem payload_pbufSkip (m : Memory) (p : List Pbuf) (offset : Nat) :
    (payload m (pbufSkip p offset).1).drop (pbufSkip p offset).2 = (payload m p).drop offset := by
  induction p generalizing offset with
  | nil => rfl
  | cons b bs ih =>
    rw [pbufSkip]
    split_ifs with hlen
    · rw [ih, drop_payload_cons m bs hlen]
    · rfl

/-- A byte of the chain is the byte of the data, wherever the elements end. -/
theorem pbufTryGetAt_eq (m : Memory) (p : List Pbuf) (offset : Nat) :
    pbufTryGetAt m p offset = (payload m p)[offset]? := by
  induction p generalizing offset with
  | nil => rfl
  | cons b bs ih =>
    rw [payload_cons]
    by_cases hlen : b.len ≤ offset
    · have hnext : pbufTryGetAt m (b :: bs) offset = pbufTryGetAt m bs (offset - b.len) := by
        simp only [pbufTryGetAt, pbufSkip, hlen, ↓reduceIte]
      rw [hnext, ih, List.getElem?_append_right (by simpa using hlen), length_slice]
    · have hlt : offset < b.len := by omega
      have hhere : pbufTryGetAt m (b :: bs) offset = some (m (b.payload + offset)) := by
        simp only [pbufTryGetAt, pbufSkip, hlen, ↓reduceIte, hlt]
      rw [hhere, List.getElem?_append_left (by simpa using hlt), getElem?_slice m _ _ _ hlt]

theorem pbufGetAt_eq (m : Memory) (p : List Pbuf) (offset : Nat) :
    pbufGetAt m p offset = ((payload m p)[offset]?).getD 0 := by
  rw [pbufGetAt, pbufTryGetAt_eq]

theorem pbufSkip_le (p : List Pbuf) (offset : Nat) : (pbufSkip p offset).2 ≤ offset := by
  induction p generalizing offset with
  | nil => rfl
  | cons b bs ih =>
    rw [pbufSkip]
    split_ifs with hlen
    · exact (ih _).trans (Nat.sub_le _ _)
    · exact le_rfl

theorem totLen_eq (hp : size p < 2 ^ 16) : totLen p = size p := Nat.mod_eq_of_lt hp

theorem pbufMemcmp_eq_zero (hp : size p < 2 ^ 16) :
    pbufMemcmp m p offset pat = 0 ↔ Occurs pat (payload m p) offset := by
  rw [pbufMemcmp, totLen_eq hp, Occurs, length_payload]
  split_ifs with hlen
  · simp only [false_iff, not_and]
    omega
  · have hle : offset + pat.length ≤ size p := by omega
    have hbyte : ∀ k < pat.length,
        pbufGetAt m (pbufSkip p offset).1 (((pbufSkip p offset).2 + k) % 2 ^ 16) =
          ((payload m p)[offset + k]?).getD 0 := by
      intro k hk
      have hskip := pbufSkip_le p offset
      rw [Nat.mod_eq_of_lt (by omega), pbufGetAt_eq, ← List.getElem?_drop, payload_pbufSkip, List.getElem?_drop]
    have hmatch : (∀ k < pat.length, (payload m p)[offset + k]? = pat[k]?) ↔
        ∀ k < pat.length,
          pbufGetAt m (pbufSkip p offset).1 (((pbufSkip p offset).2 + k) % 2 ^ 16) = pat.getD k 0 := by
      refine forall_congr' fun k => forall_congr' fun hk => ?_
      have hin : offset + k < (payload m p).length := by rw [length_payload]; omega
      rw [hbyte k hk, List.getD_eq_getElem?_getD, List.getElem?_eq_getElem hk, List.getElem?_eq_getElem hin]
      simp
    simp only [hle, true_and, hmatch]
    split
    · rename_i hnone
      simpa using hnone
    · rename_i i hsome
      have hi := List.find?_some hsome
      have hmem := List.mem_of_find?_eq_some hsome
      simp only [List.mem_range] at hmem
      simp only [ne_eq, decide_not, Bool.not_eq_eq_eq_not, Bool.not_true, decide_eq_false_iff_not] at hi
      constructor
      · intro hzero
        omega
      · intro hall
        exact absurd (hall i hmem) hi

theorem mem_positions {n k : Nat} (hk : n + start ≤ size p) (hp : size p < 2 ^ 16) (hn : 0 < n) :
    k ∈ List.range' start ((size p + 2 ^ 16 - n) % 2 ^ 16 + 1 - start) ↔ start ≤ k ∧ k + n ≤ size p := by
  have hmod : (size p + 2 ^ 16 - n) % 2 ^ 16 = size p - n := by omega
  rw [hmod, List.mem_range'_1]
  omega

theorem pbufMemfind_first (hp : size p < 2 ^ 16) (hpat : pat ≠ [])
    (h : First pat (payload m p) start i) : pbufMemfind m p pat start = i := by
  have hpos : 0 < pat.length := List.length_pos_iff.mpr hpat
  have hlen := h.length_le
  rw [length_payload] at hlen
  have hstart := h.le
  have hroom : pat.length + start ≤ size p := by omega
  simp only [pbufMemfind, totLen_eq hp, hroom, ↓reduceIte]
  have hmod : (size p + 2 ^ 16 - pat.length) % 2 ^ 16 = size p - pat.length := by omega
  rw [hmod, List.find?_range'_eq_some (i := i) |>.mpr]
  · rfl
  · refine ⟨?_, ?_, ?_⟩
    · simpa [pbufMemcmp_eq_zero hp] using h.occurs
    · rw [List.mem_range'_1]
      omega
    · intro j hj hlt
      simpa [pbufMemcmp_eq_zero hp] using h.before j hj hlt

theorem pbufMemfind_none (hp : size p < 2 ^ 16) (hpat : pat ≠ [])
    (h : ∀ j, start ≤ j → ¬ Occurs pat (payload m p) j) : pbufMemfind m p pat start = 0xFFFF := by
  simp only [pbufMemfind, totLen_eq hp]
  split_ifs with hroom
  · rw [List.find?_eq_none.mpr]
    · rfl
    · intro j hj
      have hpos : 0 < pat.length := List.length_pos_iff.mpr hpat
      rw [mem_positions hroom hp hpos] at hj
      simpa [pbufMemcmp_eq_zero hp] using h j hj.1
  · rfl

theorem pbufCopyPartial_eq (m : Memory) (p : List Pbuf) (len offset : Nat) :
    pbufCopyPartial m p len offset = ((payload m p).drop offset).take len := by
  induction p generalizing len offset with
  | nil => simp [pbufCopyPartial, payload]
  | cons b bs ih =>
    rw [pbufCopyPartial]
    split_ifs with hlen hskip
    · simp [hlen]
    · rw [ih, drop_payload_cons m bs hskip.2]
    · -- the copy starts in this element
      have hle : offset ≤ b.len := by omega
      simp only [ih, payload_cons, List.drop_zero]
      rw [List.drop_append_of_le_length (by simpa using hle), drop_slice m _ hle, List.take_append,
        length_slice]
      congr 1
      · obtain hn | hn := Nat.le_total (b.len - offset) len
        · rw [min_eq_left hn, List.take_of_length_le (by simpa using hn)]
        · rw [min_eq_right hn, take_slice m _ hn]
      · congr 1
        omega

theorem payload_pbufFreeHeader (m : Memory) (p : List Pbuf) (n : Nat) :
    payload m (pbufFreeHeader p n).1 = (payload m p).drop n := by
  induction p generalizing n with
  | nil => simp [pbufFreeHeader, payload]
  | cons b bs ih =>
    rw [pbufFreeHeader]
    split_ifs with hzero hlen
    · rw [hzero, List.drop_zero]
    · rw [drop_payload_cons m bs hlen, ih]
    · have hle : n ≤ b.len := by omega
      rw [payload_cons, payload_cons, List.drop_append_of_le_length (by simpa using hle), drop_slice m _ hle]
      rfl

end FlashApp.PbufRead
