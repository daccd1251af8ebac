import FlashApp.LwipMem
import FlashApp.Tiling
import Mathlib.Data.List.Chain

namespace FlashApp.LwipMem

open Bytes Tiling

theorem word_store {m : Memory} {a v : Nat} (ha : a + 4 ≤ 2 ^ 32) (hv : v < 2 ^ 32) :
    word (store m a (toLe32 v)) a = v :=
  word_of_holds ha hv (holds_store m a (toLe32 v))

theorem word_congr {m m' : Memory} {a : Nat} (ha : a + 4 ≤ 2 ^ 32)
    (h : ∀ x, a ≤ x → x < a + 4 → m' x = m x) : word m' a = word m a := by
  unfold word
  rw [add32_of_lt (by omega), add32_of_lt (by omega), add32_of_lt (by omega)]
  rw [h a (by omega) (by omega), h (a + 1) (by omega) (by omega), h (a + 2) (by omega) (by omega),
    h (a + 3) (by omega) (by omega)]

theorem word_store_out {m : Memory} {a b v : Nat} (ha : a + 4 ≤ 2 ^ 32) (h : a + 4 ≤ b ∨ b + 4 ≤ a) :
    word (store m b (toLe32 v)) a = word m a := by
  apply word_congr ha
  intro x hx1 hx2
  apply store_out
  rw [length_toLe32]
  omega

section Fields

variable {h : Heap} {a b v : Nat} {u : UInt8}

@[simp] theorem setUsed_ram : (h.setUsed a u).ram = h.ram := rfl

@[simp] theorem setUsed_ramEnd : (h.setUsed a u).ramEnd = h.ramEnd := rfl

@[simp] theorem setUsed_lfree : (h.setUsed a u).lfree = h.lfree := rfl

theorem next_setNext (ha : a + 12 ≤ 2 ^ 32) (hv : v < 2 ^ 32) : (h.setNext a v).next a = v :=
  word_store (by omega) hv

theorem next_setNext_out (ha : a + 12 ≤ 2 ^ 32) (hab : a + 12 ≤ b ∨ b + 12 ≤ a) :
    (h.setNext b v).next a = h.next a :=
  word_store_out (by omega) (by omega)

theorem next_setPrev (ha : a + 12 ≤ 2 ^ 32) (hb : b + 12 ≤ 2 ^ 32)
    (hab : a = b ∨ a + 12 ≤ b ∨ b + 12 ≤ a) : (h.setPrev b v).next a = h.next a := by
  unfold Heap.setPrev
  rw [add32_of_lt (by omega)]
  exact word_store_out (by omega) (by omega)

theorem next_setUsed (ha : a + 12 ≤ 2 ^ 32) (hb : b + 12 ≤ 2 ^ 32)
    (hab : a = b ∨ a + 12 ≤ b ∨ b + 12 ≤ a) : (h.setUsed b u).next a = h.next a := by
  unfold Heap.setUsed
  rw [add32_of_lt (by omega)]
  apply word_congr (by omega)
  intro x hx1 hx2
  exact store_out _ (by rw [List.length_singleton]; omega)

theorem prev_eq (ha : a + 12 ≤ 2 ^ 32) : h.prev a = word h.memory (a + 4) := by
  unfold Heap.prev
  rw [add32_of_lt (by omega)]

theorem prev_setPrev (ha : a + 12 ≤ 2 ^ 32) (hv : v < 2 ^ 32) : (h.setPrev a v).prev a = v := by
  unfold Heap.prev Heap.setPrev
  rw [add32_of_lt (by omega)]
  exact word_store (by omega) hv

theorem prev_setPrev_out (ha : a + 12 ≤ 2 ^ 32) (hb : b + 12 ≤ 2 ^ 32) (hab : a + 12 ≤ b ∨ b + 12 ≤ a) :
    (h.setPrev b v).prev a = h.prev a := by
  unfold Heap.prev Heap.setPrev
  rw [add32_of_lt (by omega), add32_of_lt (by omega)]
  exact word_store_out (by omega) (by omega)

theorem prev_setNext (ha : a + 12 ≤ 2 ^ 32) (hab : a = b ∨ a + 12 ≤ b ∨ b + 12 ≤ a) :
    (h.setNext b v).prev a = h.prev a := by
  rw [prev_eq ha, prev_eq ha]
  exact word_store_out (by omega) (by omega)

theorem prev_setUsed (ha : a + 12 ≤ 2 ^ 32) (hb : b + 12 ≤ 2 ^ 32)
    (hab : a = b ∨ a + 12 ≤ b ∨ b + 12 ≤ a) : (h.setUsed b u).prev a = h.prev a := by
  rw [prev_eq ha, prev_eq ha]
  unfold Heap.setUsed
  rw [add32_of_lt (by omega)]
  apply word_congr (by omega)
  intro x hx1 hx2
  exact store_out _ (by rw [List.length_singleton]; omega)

theorem used_eq (ha : a + 12 ≤ 2 ^ 32) : h.used a = h.memory (a + 8) := by
  unfold Heap.used
  rw [add32_of_lt (by omega)]

theorem used_setUsed (ha : a + 12 ≤ 2 ^ 32) : (h.setUsed a u).used a = u := by
  unfold Heap.used Heap.setUsed
  rw [add32_of_lt (by omega)]
  simp [store]

theorem used_setUsed_out (ha : a + 12 ≤ 2 ^ 32) (hb : b + 12 ≤ 2 ^ 32)
    (hab : a + 12 ≤ b ∨ b + 12 ≤ a) : (h.setUsed b u).used a = h.used a := by
  unfold Heap.used Heap.setUsed
  rw [add32_of_lt (by omega), add32_of_lt (by omega)]
  exact store_out _ (by rw [List.length_singleton]; omega)

theorem used_setNext (ha : a + 12 ≤ 2 ^ 32) (hab : a = b ∨ a + 12 ≤ b ∨ b + 12 ≤ a) :
    (h.setNext b v).used a = h.used a := by
  rw [used_eq ha, used_eq ha]
  exact store_out _ (by rw [length_toLe32]; omega)

theorem used_setPrev (ha : a + 12 ≤ 2 ^ 32) (hb : b + 12 ≤ 2 ^ 32)
    (hab : a = b ∨ a + 12 ≤ b ∨ b + 12 ≤ a) : (h.setPrev b v).used a = h.used a := by
  rw [used_eq ha, used_eq ha]
  unfold Heap.setPrev
  rw [add32_of_lt (by omega)]
  exact store_out _ (by rw [length_toLe32]; omega)

end Fields

structure Block where
  size : Nat
  used : Bool
  deriving DecidableEq

/-- The header in front of a block. -/
def Written (h : Heap) (s : Spot Block) : Prop :=
  h.next (h.ram + s.start) = s.start + s.piece.size ∧ h.prev (h.ram + s.start) = s.before ∧
    h.used (h.ram + s.start) = if s.piece.used then 1 else 0

/-- The blocks `bs` fill the heap, with a header in front of each of them. -/
structure Laid (h : Heap) (bs : List Block) : Prop where
  aligned : h.ram % 4 = 0
  fits : h.ram + 65536 + 12 ≤ 2 ^ 32
  ramEnd_eq : h.ramEnd = h.ram + 65536
  endUsed : h.used h.ramEnd = 1
  total_eq : total Block.size bs = 65536
  sizes : ∀ b ∈ bs, 24 ≤ b.size ∧ b.size % 4 = 0
  written : ∀ s ∈ spots Block.size 0 0 bs, Written h s

/-- The offset of the lowest free block, or of the end of the heap. -/
def firstFree : List Block → Nat
  | [] => 0
  | b :: bs => if b.used then b.size + firstFree bs else 0

def Separated (bs : List Block) : Prop := bs.IsChain fun b c => b.used = true ∨ c.used = true

theorem separated_used {pre post : List Block} {n : Nat} :
    Separated (pre ++ ⟨n, true⟩ :: post) ↔ Separated pre ∧ Separated post := by
  unfold Separated
  rw [List.isChain_append, List.isChain_cons]
  simp

theorem separated_free {pre post : List Block} {n : Nat} :
    Separated (pre ++ ⟨n, false⟩ :: post) ↔ Separated pre ∧ Separated post ∧
      (∀ b ∈ pre.getLast?, b.used = true) ∧ ∀ b ∈ post.head?, b.used = true := by
  unfold Separated
  rw [List.isChain_append, List.isChain_cons]
  simp
  tauto

/-- The blocks of the heap between two calls. -/
structure Blocks (h : Heap) (bs : List Block) : Prop extends Laid h bs where
  separated : Separated bs
  lfree_eq : h.lfree = h.ram + firstFree bs

/-- Only the bytes from the offset `a` on for the length `n` change, and the
field `prev` of the header after them. -/
structure Frame (h h' : Heap) (a n : Nat) : Prop where
  ram_eq : h'.ram = h.ram
  ramEnd_eq : h'.ramEnd = h.ramEnd
  memory_eq : ∀ x, x < h.ram + a ∨ h.ram + (a + n) ≤ x →
    x < h.ram + (a + n) + 4 ∨ h.ram + (a + n) + 8 ≤ x → h'.memory x = h.memory x

theorem firstFree_append_of_used {xs : List Block} (ys : List Block) (hx : ∀ b ∈ xs, b.used = true) :
    firstFree (xs ++ ys) = total Block.size xs + firstFree ys := by
  induction xs with
  | nil => simp
  | cons b xs ih =>
    rw [List.cons_append, firstFree, if_pos (hx b List.mem_cons_self),
      ih fun c hc => hx c (List.mem_cons_of_mem b hc), total_cons, Nat.add_assoc]

theorem firstFree_append_of_free {xs : List Block} {c : Block} (ys : List Block) (hc : c ∈ xs)
    (hfree : c.used = false) :
    firstFree (xs ++ ys) = firstFree xs ∧ firstFree xs + c.size ≤ total Block.size xs := by
  induction xs with
  | nil => simp at hc
  | cons b xs ih =>
    rw [List.cons_append, firstFree, firstFree, total_cons]
    by_cases hb : b.used = true
    · have hne : c ≠ b := by
        rintro rfl
        rw [hfree] at hb
        exact absurd hb Bool.false_ne_true
      obtain ⟨h1, h2⟩ := ih ((List.mem_cons.mp hc).resolve_left hne)
      rw [if_pos hb, if_pos hb, h1]
      exact ⟨rfl, by omega⟩
    · rw [if_neg hb, if_neg hb]
      refine ⟨rfl, ?_⟩
      obtain rfl | hc := List.mem_cons.mp hc
      · omega
      · obtain ⟨p, q, rfl⟩ := List.append_of_mem hc
        rw [total_append, total_cons]
        omega

theorem exists_lowest (bs : List Block) :
    ∃ pre rest, bs = pre ++ rest ∧ (∀ b ∈ pre, b.used = true) ∧ firstFree bs = total Block.size pre ∧
      ∀ b ∈ rest.head?, b.used = false := by
  induction bs with
  | nil => exact ⟨[], [], rfl, by simp, rfl, by simp⟩
  | cons b bs ih =>
    by_cases hu : b.used = true
    · obtain ⟨pre, rest, rfl, hpre, hff, hhead⟩ := ih
      refine ⟨b :: pre, rest, rfl, by simpa [hu] using hpre, ?_, hhead⟩
      rw [firstFree, if_pos hu, hff, total_cons]
    · exact ⟨[], b :: bs, rfl, by simp, by rw [firstFree, if_neg hu, total_nil], by simpa using hu⟩

/-- The start and the length of each allocated block. -/
def live : Nat → List Block → List (Nat × Nat)
  | _, [] => []
  | o, b :: bs => if b.used then (o, b.size) :: live (o + b.size) bs else live (o + b.size) bs

theorem live_append (o : Nat) (xs ys : List Block) :
    live o (xs ++ ys) = live o xs ++ live (o + total Block.size xs) ys := by
  induction xs generalizing o with
  | nil => simp [live]
  | cons b xs ih =>
    rw [List.cons_append, live, live, ih, total_cons, Nat.add_assoc]
    split <;> rfl

theorem live_bounds {o a n : Nat} {bs : List Block} (h : (a, n) ∈ live o bs) :
    o ≤ a ∧ a + n ≤ o + total Block.size bs := by
  induction bs generalizing o with
  | nil => simp [live] at h
  | cons b bs ih =>
    rw [total_cons]
    rw [live] at h
    split at h
    · obtain h | h := List.mem_cons.mp h
      · injection h with h1 h2
        omega
      · have := ih h
        omega
    · have := ih h
      omega

theorem exists_append_of_live {o a n : Nat} {bs : List Block} (h : (a, n) ∈ live o bs) :
    ∃ pre post, bs = pre ++ ⟨n, true⟩ :: post ∧ a = o + total Block.size pre := by
  induction bs generalizing o with
  | nil => simp [live] at h
  | cons b bs ih =>
    have htail : (a, n) ∈ live (o + b.size) bs →
        ∃ pre post, b :: bs = pre ++ ⟨n, true⟩ :: post ∧ a = o + total Block.size pre := by
      intro h
      obtain ⟨pre, post, rfl, rfl⟩ := ih h
      exact ⟨b :: pre, post, rfl, by rw [total_cons, Nat.add_assoc]⟩
    rw [live] at h
    split at h
    · next hu =>
      obtain h | h := List.mem_cons.mp h
      · injection h with h1 h2
        refine ⟨[], bs, ?_, by rw [h1, total_nil, Nat.add_zero]⟩
        rw [List.nil_append, h2, ← hu]
      · exact htail h
    · exact htail h

/-- The data of these blocks stays as it is. -/
def Keeps (h h' : Heap) (ls : List (Nat × Nat)) : Prop :=
  ∀ a n, (a, n) ∈ ls → ∀ x, h.ram + a + 12 ≤ x → x < h.ram + a + n → h'.memory x = h.memory x

theorem Frame.keeps {h h' : Heap} {pre post : List Block} {n : Nat}
    (hf : Frame h h' (total Block.size pre) n) :
    Keeps h h' (live 0 pre ++ live (total Block.size pre + n) post) := by
  intro a k hm x hx1 hx2
  obtain hm | hm := List.mem_append.mp hm
  · have hb := live_bounds hm
    exact hf.memory_eq x (by omega) (by omega)
  · have hb := live_bounds hm
    exact hf.memory_eq x (by omega) (by omega)

theorem Written.congr {h h' : Heap} {s : Spot Block} (hs : Written h s) (hram : h'.ram = h.ram)
    (hfit : h.ram + s.start + 12 ≤ 2 ^ 32)
    (hmem : ∀ x, h.ram + s.start ≤ x → x < h.ram + s.start + 12 → h'.memory x = h.memory x) :
    Written h' s := by
  obtain ⟨h1, h2, h3⟩ := hs
  unfold Written
  rw [hram]
  refine ⟨?_, ?_, ?_⟩
  · rw [← h1]
    exact word_congr (by omega) fun x _ _ => hmem x (by omega) (by omega)
  · rw [← h2, prev_eq hfit, prev_eq hfit]
    exact word_congr (by omega) fun x _ _ => hmem x (by omega) (by omega)
  · rw [← h3, used_eq hfit, used_eq hfit]
    exact hmem _ (by omega) (by omega)

/-- A block in the middle, with what is around it. -/
theorem Laid.header {h : Heap} {pre post : List Block} {b : Block} (hl : Laid h (pre ++ b :: post)) :
    Written h ⟨total Block.size pre, lastStart Block.size 0 0 pre, b⟩ := by
  apply hl.written
  rw [spots_append, Nat.zero_add]
  simp [spots]

theorem Laid.lowest_free {h : Heap} {bs : List Block} (hl : Laid h bs) :
    h.ram + firstFree bs = h.ramEnd ∨ h.used (h.ram + firstFree bs) = 0 := by
  obtain ⟨pre, rest, rfl, -, hff, hhead⟩ := exists_lowest bs
  rw [hff]
  cases rest with
  | nil =>
    have hall := hl.total_eq
    rw [List.append_nil] at hall
    rw [hall, hl.ramEnd_eq]
    exact .inl rfl
  | cons b rest =>
    have hb := hl.header.2.2
    dsimp only at hb
    rw [hb, hhead b rfl]
    exact .inr rfl

theorem Laid.next_header {h : Heap} {pre post : List Block} {b c : Block} (hl : Laid h (pre ++ b :: c :: post)) :
    Written h ⟨total Block.size pre + b.size, total Block.size pre, c⟩ := by
  apply hl.written
  rw [spots_append, Nat.zero_add]
  simp [spots]

theorem Laid.bounds {h : Heap} {pre post : List Block} {b : Block} (hl : Laid h (pre ++ b :: post)) :
    24 ≤ b.size ∧ b.size % 4 = 0 ∧ total Block.size pre + b.size + total Block.size post = 65536 := by
  obtain ⟨h1, h2⟩ := hl.sizes b (by simp)
  have h3 := hl.total_eq
  rw [total_append, total_cons] at h3
  exact ⟨h1, h2, by omega⟩

theorem total_mod {bs : List Block} (hb : ∀ b ∈ bs, 24 ≤ b.size ∧ b.size % 4 = 0) :
    total Block.size bs % 4 = 0 := by
  induction bs with
  | nil => rfl
  | cons b bs ih =>
    have h1 := ih fun c hc => hb c (List.mem_cons_of_mem b hc)
    have h2 := (hb b List.mem_cons_self).2
    rw [total_cons]
    omega

theorem Laid.total_mod {h : Heap} {pre post : List Block} (hl : Laid h (pre ++ post)) :
    total Block.size pre % 4 = 0 :=
  LwipMem.total_mod fun b hb => hl.sizes b (List.mem_append_left post hb)

theorem Laid.written_before {h h' : Heap} {pre post : List Block} (hl : Laid h (pre ++ post))
    (hram : h'.ram = h.ram) (hmem : ∀ x, x < h.ram + total Block.size pre → h'.memory x = h.memory x) :
    ∀ s ∈ spots Block.size 0 0 pre, Written h' s := by
  intro s hs
  have hfits := hl.fits
  have hall := hl.total_eq
  rw [total_append] at hall
  obtain ⟨-, hb⟩ := spots_bounds hs
  have h24 := (hl.sizes s.piece (List.mem_append_left post (piece_mem hs))).1
  have hw : Written h s := by
    apply hl.written
    rw [spots_append]
    exact List.mem_append_left _ hs
  apply hw.congr hram (by omega)
  intro x _ hx
  exact hmem x (by omega)

theorem Laid.written_after {h h' : Heap} {pre post : List Block} {p : Nat} (hl : Laid h (pre ++ post))
    (hram : h'.ram = h.ram)
    (hmem : ∀ x, h.ram + total Block.size pre ≤ x →
      x < h.ram + total Block.size pre + 4 ∨ h.ram + total Block.size pre + 8 ≤ x → h'.memory x = h.memory x)
    (hprev : post ≠ [] → h'.prev (h.ram + total Block.size pre) = p) :
    ∀ s ∈ spots Block.size (total Block.size pre) p post, Written h' s := by
  intro s hs
  have hfits := hl.fits
  have hall := hl.total_eq
  rw [total_append] at hall
  have h24 := (hl.sizes s.piece (List.mem_append_right pre (piece_mem hs))).1
  cases post with
  | nil => simp [spots] at hs
  | cons c post =>
    have hc := (hl.sizes c (by simp)).1
    rw [total_cons] at hall
    rw [spots, List.mem_cons] at hs
    obtain rfl | hs := hs
    · obtain ⟨h1, -, h3⟩ := hl.header
      dsimp only at h1 h3
      refine ⟨?_, ?_, ?_⟩
      · dsimp only
        rw [hram, ← h1]
        exact word_congr (by omega) fun x _ _ => hmem x (by omega) (by omega)
      · dsimp only
        rw [hram, hprev (List.cons_ne_nil c post)]
      · dsimp only
        rw [hram, ← h3, used_eq (by omega), used_eq (by omega)]
        exact hmem _ (by omega) (by omega)
    · obtain ⟨h1, h2⟩ := spots_bounds hs
      have hw : Written h s := by
        apply hl.written
        rw [spots_append, Nat.zero_add, spots]
        exact List.mem_append_right _ (List.mem_cons_of_mem _ hs)
      apply hw.congr hram (by omega)
      intro x hx1 hx2
      exact hmem x (by omega) (by omega)

/-- Some blocks in the middle are replaced by others of the same length. -/
theorem Laid.splice {h h' : Heap} {pre mid mid' post : List Block} (hl : Laid h (pre ++ mid ++ post))
    (hframe : Frame h h' (total Block.size pre) (total Block.size mid))
    (htotal : total Block.size mid' = total Block.size mid)
    (hsizes : ∀ b ∈ mid', 24 ≤ b.size ∧ b.size % 4 = 0)
    (hmid : ∀ s ∈ spots Block.size (total Block.size pre) (lastStart Block.size 0 0 pre) mid', Written h' s)
    (hpost : post ≠ [] → h'.prev (h.ram + (total Block.size pre + total Block.size mid)) =
      lastStart Block.size (total Block.size pre) (lastStart Block.size 0 0 pre) mid') :
    Laid h' (pre ++ mid' ++ post) := by
  obtain ⟨hram, hend, hframe⟩ := hframe
  have hfits := hl.fits
  have hall := hl.total_eq
  rw [total_append, total_append] at hall
  refine ⟨by rw [hram, hl.aligned], by omega, by rw [hend, hl.ramEnd_eq, hram], ?_, ?_, ?_, ?_⟩
  · have hre := hl.ramEnd_eq
    have hu := hl.endUsed
    rw [used_eq (by omega)] at hu
    rw [hend, used_eq (by omega), ← hu]
    exact hframe _ (by omega) (by omega)
  · rw [total_append, total_append, htotal]
    exact hall
  · intro b hb
    rw [List.append_assoc, List.mem_append, List.mem_append] at hb
    obtain hb | hb | hb := hb
    · exact hl.sizes b (by simp [hb])
    · exact hsizes b hb
    · exact hl.sizes b (by simp [hb])
  · intro s hs
    rw [spots_append, spots_append, lastStart_append, total_append, Nat.zero_add, Nat.zero_add, htotal,
      List.mem_append, List.mem_append] at hs
    obtain (hs | hs) | hs := hs
    · refine (List.append_assoc pre mid post ▸ hl).written_before hram ?_ s hs
      intro x hx
      exact hframe x (by omega) (by omega)
    · exact hmid s hs
    · rw [← total_append] at hs
      refine hl.written_after hram ?_ ?_ s hs
      · intro x hx1 hx2
        rw [total_append] at hx1 hx2
        exact hframe x (by omega) (by omega)
      · intro hne
        rw [total_append]
        exact hpost hne

end FlashApp.LwipMem
