import FlashApp.LwipHeap

namespace FlashApp.LwipMem

open Bytes Tiling

section Links

variable {h : Heap} {a ptr2 nxt : Nat}

theorem ptrToMem_eq (hfit : h.ram + a < 2 ^ 32) : ptrToMem h a = h.ram + a := add32_of_lt hfit

theorem memToPtr_eq (hfit : h.ram + a < 2 ^ 32) : memToPtr h (h.ram + a) = a := by
  unfold memToPtr
  rw [sub32_of_le (by omega) hfit]
  omega

@[simp] theorem linkAfter_ram (mem : Nat) : (linkAfter h mem ptr2 nxt).ram = h.ram := rfl

@[simp] theorem linkAfter_ramEnd (mem : Nat) : (linkAfter h mem ptr2 nxt).ramEnd = h.ramEnd := rfl

@[simp] theorem linkAfter_lfree (mem : Nat) : (linkAfter h mem ptr2 nxt).lfree = h.lfree := rfl

theorem linkAfter_eq (hfit : h.ram + ptr2 < 2 ^ 32) (ha : a ≤ ptr2) :
    linkAfter h (h.ram + a) ptr2 nxt =
      (((h.setUsed (h.ram + ptr2) 0).setNext (h.ram + ptr2) nxt).setPrev (h.ram + ptr2) a).setNext
        (h.ram + a) ptr2 := by
  unfold linkAfter
  rw [ptrToMem_eq hfit, memToPtr_eq (by omega)]

theorem linkAfter_new (hfit : h.ram + ptr2 + 12 ≤ 2 ^ 32) (ha : a + 12 ≤ ptr2) (hn : nxt < 2 ^ 32) :
    (linkAfter h (h.ram + a) ptr2 nxt).next (h.ram + ptr2) = nxt ∧
      (linkAfter h (h.ram + a) ptr2 nxt).prev (h.ram + ptr2) = a ∧
      (linkAfter h (h.ram + a) ptr2 nxt).used (h.ram + ptr2) = 0 := by
  rw [linkAfter_eq (by omega) (by omega)]
  refine ⟨?_, ?_, ?_⟩
  · rw [next_setNext_out (by omega) (by omega), next_setPrev (by omega) (by omega) (by omega),
      next_setNext (by omega) hn]
  · rw [prev_setNext (by omega) (by omega), prev_setPrev (by omega) (by omega)]
  · rw [used_setNext (by omega) (by omega), used_setPrev (by omega) (by omega) (by omega),
      used_setNext (by omega) (by omega), used_setUsed (by omega)]

theorem linkAfter_old (nxt : Nat) (hfit : h.ram + ptr2 + 12 ≤ 2 ^ 32) (ha : a + 12 ≤ ptr2) :
    (linkAfter h (h.ram + a) ptr2 nxt).next (h.ram + a) = ptr2 ∧
      (linkAfter h (h.ram + a) ptr2 nxt).prev (h.ram + a) = h.prev (h.ram + a) ∧
      (linkAfter h (h.ram + a) ptr2 nxt).used (h.ram + a) = h.used (h.ram + a) := by
  rw [linkAfter_eq (by omega) (by omega)]
  refine ⟨?_, ?_, ?_⟩
  · rw [next_setNext (by omega) (by omega)]
  · rw [prev_setNext (by omega) (by omega), prev_setPrev_out (by omega) (by omega) (by omega),
      prev_setNext (by omega) (by omega), prev_setUsed (by omega) (by omega) (by omega)]
  · rw [used_setNext (by omega) (by omega), used_setPrev (by omega) (by omega) (by omega),
      used_setNext (by omega) (by omega), used_setUsed_out (by omega) (by omega) (by omega)]

theorem linkAfter_memory (hfit : h.ram + ptr2 + 12 ≤ 2 ^ 32) (ha : a + 12 ≤ ptr2) {x : Nat}
    (hx : x < h.ram + a ∨ h.ram + a + 12 ≤ x) (hx2 : x < h.ram + ptr2 ∨ h.ram + ptr2 + 12 ≤ x) :
    (linkAfter h (h.ram + a) ptr2 nxt).memory x = h.memory x := by
  rw [linkAfter_eq (by omega) (by omega)]
  simp only [Heap.setNext, Heap.setPrev, Heap.setUsed]
  rw [add32_of_lt (by omega), add32_of_lt (by omega)]
  rw [store_out _ (by rw [length_toLe32]; omega), store_out _ (by rw [length_toLe32]; omega),
    store_out _ (by rw [length_toLe32]; omega), store_out _ (by rw [List.length_singleton]; omega)]

theorem linkBack_of_end (hfit : h.ram + ptr2 + 12 ≤ 2 ^ 32) (hn : h.next (h.ram + ptr2) = 65536) :
    linkBack h ptr2 = h := by
  unfold linkBack
  rw [ptrToMem_eq (by omega), hn]
  rfl

theorem linkBack_of_next (hfit : h.ram + ptr2 + 12 ≤ 2 ^ 32) (hn : h.next (h.ram + ptr2) = nxt)
    (hne : nxt ≠ 65536) (hfit2 : h.ram + nxt + 12 ≤ 2 ^ 32) :
    linkBack h ptr2 = h.setPrev (h.ram + nxt) ptr2 := by
  unfold linkBack
  dsimp only
  rw [ptrToMem_eq (by omega), hn, ptrToMem_eq (by omega)]
  exact if_pos hne

theorem linkBack_memory (hfit : h.ram + ptr2 + 12 ≤ 2 ^ 32) (hn : h.next (h.ram + ptr2) = nxt)
    (hfit2 : h.ram + nxt + 12 ≤ 2 ^ 32) {x : Nat} (hx : x < h.ram + nxt + 4 ∨ h.ram + nxt + 8 ≤ x) :
    (linkBack h ptr2).memory x = h.memory x := by
  by_cases hne : nxt = 65536
  · rw [linkBack_of_end hfit (hn.trans hne)]
  · rw [linkBack_of_next hfit hn hne hfit2]
    simp only [Heap.setPrev]
    rw [add32_of_lt (by omega)]
    exact store_out _ (by rw [length_toLe32]; omega)

@[simp] theorem linkBack_ram : (linkBack h ptr2).ram = h.ram := by
  unfold linkBack
  dsimp only
  split <;> rfl

@[simp] theorem linkBack_ramEnd : (linkBack h ptr2).ramEnd = h.ramEnd := by
  unfold linkBack
  dsimp only
  split <;> rfl

@[simp] theorem linkBack_lfree : (linkBack h ptr2).lfree = h.lfree := by
  unfold linkBack
  dsimp only
  split <;> rfl

end Links

/-- The headers of some new blocks in the middle have been written, the last
one at `q`. The header after them is linked back to it. -/
theorem Laid.relink {h g : Heap} {pre mid mid' post : List Block} {q : Nat} (hl : Laid h (pre ++ mid ++ post))
    (hmid : ∀ s ∈ spots Block.size (total Block.size pre) (lastStart Block.size 0 0 pre) mid', Written g s)
    (hq : lastStart Block.size (total Block.size pre) (lastStart Block.size 0 0 pre) mid' = q)
    (hnext : g.next (g.ram + q) = total Block.size pre + total Block.size mid)
    (hlt : q < total Block.size pre + total Block.size mid) (hram : g.ram = h.ram) (hend : g.ramEnd = h.ramEnd)
    (hmem : ∀ x, x < h.ram + total Block.size pre ∨ h.ram + (total Block.size pre + total Block.size mid) ≤ x →
      g.memory x = h.memory x)
    (htotal : total Block.size mid' = total Block.size mid)
    (hsizes : ∀ b ∈ mid', 24 ≤ b.size ∧ b.size % 4 = 0) :
    Laid (linkBack g q) (pre ++ mid' ++ post) ∧
      Frame h (linkBack g q) (total Block.size pre) (total Block.size mid) := by
  have hfits := hl.fits
  have hall := hl.total_eq
  rw [total_append, total_append] at hall
  have hframe : Frame h (linkBack g q) (total Block.size pre) (total Block.size mid) := by
    refine ⟨by rw [linkBack_ram, hram], by rw [linkBack_ramEnd, hend], ?_⟩
    intro x hx1 hx2
    rw [linkBack_memory (by omega) hnext (by omega) (by omega), hmem x hx1]
  refine ⟨hl.splice hframe htotal hsizes ?_ ?_, hframe⟩
  · intro s hs
    have hb := spots_bounds hs
    have h24 := (hsizes s.piece (piece_mem hs)).1
    apply (hmid s hs).congr linkBack_ram (by omega)
    intro x _ hx
    exact linkBack_memory (by omega) hnext (by omega) (by omega)
  · intro hne
    have hpos : 0 < total Block.size post := by
      cases post with
      | nil => exact absurd rfl hne
      | cons c post =>
        have hc := (hl.sizes c (by simp)).1
        rw [total_cons]
        omega
    rw [linkBack_of_next (by omega) hnext (by omega) (by omega), hq, ← hram]
    exact prev_setPrev (by omega) (by omega)

/-- A block is cut in two. -/
theorem Laid.cut {h g : Heap} {pre mid post : List Block} {k j : Nat} (hl : Laid h (pre ++ mid ++ post))
    (hfst : Written g ⟨total Block.size pre, lastStart Block.size 0 0 pre, ⟨k, true⟩⟩)
    (hsnd : Written g ⟨total Block.size pre + k, total Block.size pre, ⟨j, false⟩⟩)
    (hram : g.ram = h.ram) (hend : g.ramEnd = h.ramEnd)
    (hmem : ∀ x, x < h.ram + total Block.size pre ∨ h.ram + (total Block.size pre + (k + j)) ≤ x →
      g.memory x = h.memory x)
    (hn : total Block.size mid = k + j) (hk : 24 ≤ k) (hk4 : k % 4 = 0) (hj : 24 ≤ j) :
    Laid (linkBack g (total Block.size pre + k)) (pre ++ [⟨k, true⟩, ⟨j, false⟩] ++ post) ∧
      Frame h (linkBack g (total Block.size pre + k)) (total Block.size pre) (k + j) := by
  have hmod : (k + j) % 4 = 0 := by
    rw [← hn]
    exact LwipMem.total_mod fun b hb => hl.sizes b (by simp [hb])
  have hmid : ∀ s ∈ spots Block.size (total Block.size pre) (lastStart Block.size 0 0 pre)
      [⟨k, true⟩, ⟨j, false⟩], Written g s := by
    intro s hs
    simp only [spots, List.mem_cons, List.not_mem_nil, or_false] at hs
    obtain rfl | rfl := hs
    · exact hfst
    · exact hsnd
  have hlast : lastStart Block.size (total Block.size pre) (lastStart Block.size 0 0 pre)
      [⟨k, true⟩, ⟨j, false⟩] = total Block.size pre + k := rfl
  have hnext : g.next (g.ram + (total Block.size pre + k)) = total Block.size pre + total Block.size mid := by
    rw [hsnd.1, hn, Nat.add_assoc]
  have hsizes : ∀ b ∈ [⟨k, true⟩, ⟨j, false⟩], 24 ≤ Block.size b ∧ Block.size b % 4 = 0 := by
    intro b hb
    simp only [List.mem_cons, List.not_mem_nil, or_false] at hb
    obtain rfl | rfl := hb
    · exact ⟨hk, hk4⟩
    · exact ⟨hj, by dsimp only; omega⟩
  have htotal : total Block.size [⟨k, true⟩, ⟨j, false⟩] = total Block.size mid := by
    rw [hn, total_cons, total_cons, total_nil, Nat.add_zero]
  rw [← hn] at hmem ⊢
  exact hl.relink hmid hlast hnext (by omega) hram hend hmem htotal hsizes

theorem Laid.mark {h : Heap} {pre post : List Block} {n : Nat} {v u : Bool}
    (hl : Laid h (pre ++ ⟨n, v⟩ :: post)) :
    Laid (h.setUsed (h.ram + total Block.size pre) (if u then 1 else 0)) (pre ++ ⟨n, u⟩ :: post) ∧
      Frame h (h.setUsed (h.ram + total Block.size pre) (if u then 1 else 0)) (total Block.size pre) n := by
  have hfits := hl.fits
  obtain ⟨h24, h4, hall⟩ := hl.bounds
  obtain ⟨hw1, hw2, -⟩ := hl.header
  dsimp only at h24 h4 hall hw1 hw2
  have hframe : Frame h (h.setUsed (h.ram + total Block.size pre) (if u then 1 else 0))
      (total Block.size pre) n := by
    refine ⟨rfl, rfl, ?_⟩
    intro x hx1 hx2
    simp only [Heap.setUsed]
    rw [add32_of_lt (by omega)]
    exact store_out _ (by rw [List.length_singleton]; omega)
  refine ⟨?_, hframe⟩
  have hl' : Laid h (pre ++ [⟨n, v⟩] ++ post) := by simpa using hl
  suffices hgoal : Laid (h.setUsed (h.ram + total Block.size pre) (if u then 1 else 0))
      (pre ++ [⟨n, u⟩] ++ post) by simpa using hgoal
  refine hl'.splice (by simpa using hframe) (by rfl) (by simpa using ⟨h24, h4⟩) ?_ ?_
  · intro s hs
    simp only [spots, List.mem_cons, List.not_mem_nil, or_false] at hs
    subst hs
    refine ⟨?_, ?_, used_setUsed (by omega)⟩
    · exact (next_setUsed (by omega) (by omega) (.inl rfl)).trans hw1
    · exact (prev_setUsed (by omega) (by omega) (.inl rfl)).trans hw2
  · intro hne
    cases post with
    | nil => exact absurd rfl hne
    | cons c post =>
      have hc := hl.next_header.2.1
      have hc24 := (hl.sizes c (by simp)).1
      dsimp only at hc
      rw [total_cons] at hall
      simp only [total_cons, total_nil, Nat.add_zero, lastStart]
      rw [prev_setUsed (by omega) (by omega) (by omega)]
      exact hc

theorem room_eq {h : Heap} {pre post : List Block} {b : Block} (hl : Laid h (pre ++ b :: post)) :
    room h (total Block.size pre) = b.size - 12 := by
  have hfits := hl.fits
  obtain ⟨h24, -, hall⟩ := hl.bounds
  have hw := hl.header.1
  dsimp only at hw
  unfold room
  rw [ptrToMem_eq (by omega), hw, sizeofStructMem, add32_of_lt (by omega), sub32_of_le (by omega) (by omega)]
  omega

theorem allocated_written {h : Heap} {a k j p : Nat} (hfit : h.ram + (a + k) + 12 ≤ 2 ^ 32) (hk : 12 ≤ k)
    (hj : a + k + j < 2 ^ 32) (hprev : h.prev (h.ram + a) = p) :
    Written ((linkAfter h (h.ram + a) (a + k) (a + k + j)).setUsed (h.ram + a) 1) ⟨a, p, ⟨k, true⟩⟩ ∧
      Written ((linkAfter h (h.ram + a) (a + k) (a + k + j)).setUsed (h.ram + a) 1)
        ⟨a + k, a, ⟨j, false⟩⟩ := by
  have hak : a + 12 ≤ a + k := by omega
  obtain ⟨ho1, ho2, -⟩ := linkAfter_old (a + k + j) hfit hak
  obtain ⟨hn1, hn2, hn3⟩ := linkAfter_new hfit hak hj
  generalize hg : linkAfter h (h.ram + a) (a + k) (a + k + j) = g at *
  have hram : g.ram = h.ram := by rw [← hg, linkAfter_ram]
  unfold Written
  dsimp only [Heap.setUsed]
  rw [hram]
  refine ⟨⟨?_, ?_, ?_⟩, ?_, ?_, ?_⟩
  · exact (next_setUsed (by omega) (by omega) (.inl rfl)).trans ho1
  · exact ((prev_setUsed (by omega) (by omega) (.inl rfl)).trans ho2).trans hprev
  · exact used_setUsed (by omega)
  · exact (next_setUsed (by omega) (by omega) (by omega)).trans hn1
  · exact (prev_setUsed (by omega) (by omega) (by omega)).trans hn2
  · exact (used_setUsed_out (by omega) (by omega) (by omega)).trans hn3

/-- What becomes of a free block that is allocated. -/
def taken (n size : Nat) : List Block :=
  if size + 36 ≤ n then [⟨size + 12, true⟩, ⟨n - (size + 12), false⟩] else [⟨n, true⟩]

theorem takeBlock_spec {h : Heap} {pre post : List Block} {n size : Nat}
    (hl : Laid h (pre ++ ⟨n, false⟩ :: post)) (hsize : 12 ≤ size) (h4 : size % 4 = 0) (hfit : size + 12 ≤ n) :
    ∃ h', takeBlock h (total Block.size pre) size = .done h' ∧ Laid h' (pre ++ taken n size ++ post) ∧
      Frame h h' (total Block.size pre) n ∧ h'.lfree = h.lfree := by
  have hfits := hl.fits
  obtain ⟨h24, -, hall⟩ := hl.bounds
  obtain ⟨hw1, hw2, -⟩ := hl.header
  have hroom := room_eq hl
  have hl' : Laid h (pre ++ [⟨n, false⟩] ++ post) := by simpa using hl
  dsimp only at h24 hall hw1 hw2 hroom
  have hp2 : add32 (add32 (total Block.size pre) sizeofStructMem) size =
      total Block.size pre + (size + 12) := by
    unfold sizeofStructMem add32
    omega
  have hcond : add32 (add32 size sizeofStructMem) minSizeAligned = size + 24 := by
    unfold sizeofStructMem minSizeAligned add32
    omega
  unfold takeBlock taken
  dsimp only
  rw [ptrToMem_eq (by omega), hroom, hp2, hcond, hw1]
  by_cases hcut : size + 36 ≤ n
  · rw [if_pos (by omega), if_pos hcut, lwipAssert_of (by unfold memSizeAligned; omega), Outcome.done_bind,
      Outcome.pure_eq]
    obtain ⟨j, rfl⟩ : ∃ j, n = size + 12 + j := ⟨n - (size + 12), by omega⟩
    rw [Nat.add_sub_cancel_left, ← Nat.add_assoc _ (size + 12) j]
    obtain ⟨g, hg⟩ : ∃ g, g = (linkAfter h (h.ram + total Block.size pre) (total Block.size pre + (size + 12))
      (total Block.size pre + (size + 12) + j)).setUsed (h.ram + total Block.size pre) 1 := ⟨_, rfl⟩
    obtain ⟨hfst, hsnd⟩ := allocated_written (j := j) (k := size + 12) (by omega) (by omega) (by omega) hw2
    have hmem : ∀ x, x < h.ram + total Block.size pre ∨ h.ram + (total Block.size pre + (size + 12 + j)) ≤ x →
        g.memory x = h.memory x := by
      intro x hx
      rw [hg]
      simp only [Heap.setUsed]
      rw [add32_of_lt (by omega), store_out _ (by rw [List.length_singleton]; omega)]
      exact linkAfter_memory (by omega) (by omega) (by omega) (by omega)
    have hram : g.ram = h.ram := by rw [hg, setUsed_ram, linkAfter_ram]
    have hend : g.ramEnd = h.ramEnd := by rw [hg, setUsed_ramEnd, linkAfter_ramEnd]
    have hlfree : g.lfree = h.lfree := by rw [hg, setUsed_lfree, linkAfter_lfree]
    rw [← hg] at hfst hsnd ⊢
    have hone : total Block.size [⟨size + 12 + j, false⟩] = size + 12 + j := Nat.add_zero _
    obtain ⟨hlaid, hframe⟩ := hl'.cut hfst hsnd hram hend hmem hone (by omega) (by omega) (by omega)
    exact ⟨_, rfl, hlaid, hframe, linkBack_lfree.trans hlfree⟩
  · rw [if_neg (by omega), if_neg hcut, Outcome.pure_eq]
    obtain ⟨hlaid, hframe⟩ := hl.mark (u := true)
    exact ⟨_, rfl, by simpa using hlaid, hframe, rfl⟩

end FlashApp.LwipMem
