import FlashApp.LwipFree

namespace FlashApp.LwipMem

open Bytes Tiling

theorem Laid.setLfree {h : Heap} {bs : List Block} (hl : Laid h bs) (x : Nat) : Laid { h with lfree := x } bs :=
  ⟨hl.aligned, hl.fits, hl.ramEnd_eq, hl.endUsed, hl.total_eq, hl.sizes, hl.written⟩

/-- The used block at the start of `mid` is cut down to the length `k`. -/
theorem shrink_spec {h : Heap} {pre mid post : List Block} {k j : Nat} (hl : Laid h (pre ++ mid ++ post))
    (hprev : h.prev (h.ram + total Block.size pre) = lastStart Block.size 0 0 pre)
    (hused : h.used (h.ram + total Block.size pre) = 1) (hn : total Block.size mid = k + j) (hk : 24 ≤ k)
    (hk4 : k % 4 = 0) (hj : 24 ≤ j) :
    Laid (linkBack (linkAfter h (h.ram + total Block.size pre) (total Block.size pre + k)
        (total Block.size pre + k + j)) (total Block.size pre + k)) (pre ++ [⟨k, true⟩, ⟨j, false⟩] ++ post) ∧
      Keeps h (linkBack (linkAfter h (h.ram + total Block.size pre) (total Block.size pre + k)
        (total Block.size pre + k + j)) (total Block.size pre + k))
        (live 0 pre ++ (total Block.size pre, k) :: live (total Block.size pre + (k + j)) post) := by
  have hfits := hl.fits
  have hall := hl.total_eq
  rw [total_append, total_append, hn] at hall
  obtain ⟨g, hg⟩ : ∃ g, g = linkAfter h (h.ram + total Block.size pre) (total Block.size pre + k)
    (total Block.size pre + k + j) := ⟨_, rfl⟩
  have hram : g.ram = h.ram := by rw [hg, linkAfter_ram]
  have hend : g.ramEnd = h.ramEnd := by rw [hg, linkAfter_ramEnd]
  have hfit : h.ram + (total Block.size pre + k) + 12 ≤ 2 ^ 32 := by omega
  have hpk : total Block.size pre + 12 ≤ total Block.size pre + k := by omega
  obtain ⟨ho1, ho2, ho3⟩ := linkAfter_old (total Block.size pre + k + j) hfit hpk
  obtain ⟨hn1, hn2, hn3⟩ := linkAfter_new hfit hpk (by omega : total Block.size pre + k + j < 2 ^ 32)
  have hmem : ∀ x, x < h.ram + total Block.size pre ∨ h.ram + total Block.size pre + 12 ≤ x →
      x < h.ram + (total Block.size pre + k) ∨ h.ram + (total Block.size pre + k) + 12 ≤ x →
      g.memory x = h.memory x := by
    intro x hx1 hx2
    rw [hg]
    exact linkAfter_memory hfit hpk hx1 hx2
  rw [← hg] at ho1 ho2 ho3 hn1 hn2 hn3 ⊢
  have hfst : Written g ⟨total Block.size pre, lastStart Block.size 0 0 pre, ⟨k, true⟩⟩ := by
    unfold Written
    rw [hram]
    exact ⟨ho1, ho2.trans hprev, ho3.trans hused⟩
  have hsnd : Written g ⟨total Block.size pre + k, total Block.size pre, ⟨j, false⟩⟩ := by
    unfold Written
    rw [hram]
    exact ⟨hn1, hn2, hn3⟩
  obtain ⟨hlaid, hframe⟩ := hl.cut hfst hsnd hram hend (fun x hx => hmem x (by omega) (by omega)) hn hk hk4 hj
  refine ⟨hlaid, ?_⟩
  intro a n hm x hx1 hx2
  have hkeeps : Keeps h _ (live 0 pre ++ live (total Block.size pre + (k + j)) post) := hframe.keeps
  obtain hm | hm := List.mem_append.mp hm
  · exact hkeeps a n (List.mem_append_left _ hm) x hx1 hx2
  · obtain hm | hm := List.mem_cons.mp hm
    · injection hm with h1 h2
      subst h1 h2
      rw [← hram] at hn1
      rw [linkBack_memory (by omega) hn1 (by omega) (by omega), hmem x (by omega) (by omega)]
    · exact hkeeps a n (List.mem_append_right _ hm) x hx1 hx2

theorem shrink_blocks {h : Heap} {pre mid post : List Block} {k j x : Nat} (hl : Laid h (pre ++ mid ++ post))
    (hprev : h.prev (h.ram + total Block.size pre) = lastStart Block.size 0 0 pre)
    (hused : h.used (h.ram + total Block.size pre) = 1) (hn : total Block.size mid = k + j) (hk : 24 ≤ k)
    (hk4 : k % 4 = 0) (hj : 24 ≤ j) (hsep : Separated (pre ++ [⟨k, true⟩, ⟨j, false⟩] ++ post))
    (hx : x = h.ram + firstFree (pre ++ [⟨k, true⟩, ⟨j, false⟩] ++ post)) :
    ∃ h', linkBack (linkAfter { h with lfree := x } (h.ram + total Block.size pre) (total Block.size pre + k)
        (total Block.size pre + k + j)) (total Block.size pre + k) = h' ∧
      Blocks h' (pre ++ [⟨k, true⟩, ⟨j, false⟩] ++ post) ∧ h'.ram = h.ram ∧
      Keeps h h' (live 0 pre ++ (total Block.size pre, k) :: live (total Block.size pre + (k + j)) post) := by
  obtain ⟨hlaid, hkeeps⟩ := shrink_spec (hl.setLfree x) hprev hused hn hk hk4 hj
  refine ⟨_, rfl, ⟨hlaid, hsep, ?_⟩, ?_, hkeeps⟩
  · rw [linkBack_lfree, linkAfter_lfree, linkBack_ram, linkAfter_ram, hx]
  · rw [linkBack_ram, linkAfter_ram]

theorem live_used (o n : Nat) (post : List Block) : live o (⟨n, true⟩ :: post) = (o, n) :: live (o + n) post := by
  simp only [live, ↓reduceIte]

theorem live_halves (pre post : List Block) (k j : Nat) :
    live 0 (pre ++ [⟨k, true⟩, ⟨j, false⟩] ++ post) =
      live 0 pre ++ (total Block.size pre, k) :: live (total Block.size pre + (k + j)) post := by
  rw [List.append_assoc, live_append, Nat.zero_add, List.cons_append, live_used, List.cons_append, live_free,
    List.nil_append, Nat.add_assoc]

theorem moved_lfree {h : Heap} {pre rest : List Block} {n k m j : Nat}
    (hb : Blocks h (pre ++ ⟨n, true⟩ :: ⟨k, false⟩ :: rest)) :
    (if h.lfree = h.ram + (total Block.size pre + n) then h.ram + (total Block.size pre + m) else h.lfree) =
      h.ram + firstFree (pre ++ [⟨m, true⟩, ⟨j, false⟩] ++ rest) := by
  have hlf := hb.lfree_eq
  have h24 := hb.bounds.1
  dsimp only at h24
  rw [List.append_assoc]
  by_cases hused : ∀ b ∈ pre, b.used = true
  · rw [firstFree_append_of_used _ hused] at hlf ⊢
    simp only [firstFree, Bool.false_eq_true, ↓reduceIte, List.cons_append, Nat.add_zero] at hlf ⊢
    rw [if_pos hlf]
  · obtain ⟨c, hc, hfree⟩ : ∃ c ∈ pre, c.used = false := by simpa using hused
    obtain ⟨h1, h2⟩ := firstFree_append_of_free (⟨n, true⟩ :: ⟨k, false⟩ :: rest) hc hfree
    rw [h1] at hlf
    rw [(firstFree_append_of_free _ hc hfree).1, if_neg (by omega), hlf]

theorem split_lfree {h : Heap} {pre post : List Block} {n m j : Nat} (hb : Blocks h (pre ++ ⟨n, true⟩ :: post))
    (hm : m < n) :
    (if h.ram + (total Block.size pre + m) < h.lfree then h.ram + (total Block.size pre + m) else h.lfree) =
      h.ram + firstFree (pre ++ [⟨m, true⟩, ⟨j, false⟩] ++ post) := by
  have hlf := hb.lfree_eq
  rw [List.append_assoc]
  by_cases hused : ∀ b ∈ pre, b.used = true
  · rw [firstFree_append_of_used _ hused] at hlf ⊢
    simp only [firstFree, Bool.false_eq_true, ↓reduceIte, List.cons_append, Nat.add_zero] at hlf ⊢
    rw [if_pos (by omega)]
  · obtain ⟨c, hc, hfree⟩ : ∃ c ∈ pre, c.used = false := by simpa using hused
    obtain ⟨h1, h2⟩ := firstFree_append_of_free (⟨n, true⟩ :: post) hc hfree
    rw [h1] at hlf
    rw [(firstFree_append_of_free _ hc hfree).1, if_neg (by omega), hlf]

theorem halves_separated {pre post : List Block} {k j : Nat} (hpre : Separated pre)
    (hpost : Separated (⟨j, false⟩ :: post)) : Separated (pre ++ [⟨k, true⟩, ⟨j, false⟩] ++ post) := by
  simpa using separated_used.mpr ⟨hpre, hpost⟩

theorem separated_head {post : List Block} {k j : Nat} (h : Separated (⟨k, false⟩ :: post)) :
    Separated (⟨j, false⟩ :: post) := by
  obtain ⟨-, hpost, -, hhead⟩ := separated_free.mp (List.nil_append (_ :: post) ▸ h)
  exact List.nil_append (_ :: post) ▸ separated_free.mpr ⟨List.isChain_nil, hpost, by simp, hhead⟩

theorem separated_free_cons {post : List Block} {c : Block} {j : Nat} (h : Separated (c :: post))
    (hc : c.used = true) : Separated (⟨j, false⟩ :: c :: post) :=
  List.nil_append (_ :: c :: post) ▸ separated_free.mpr ⟨List.isChain_nil, h, by simp, by simpa using hc⟩

/-- The part of `mem_trim` after its checks: `n` is the length of the block. -/
theorem memTrim_eq {h : Heap} {pre post : List Block} {n newSize : Nat} (hl : Laid h (pre ++ ⟨n, true⟩ :: post))
    (hle : newSize ≤ alignedRequest newSize) (hfit : alignedRequest newSize + 12 ≤ n) :
    memTrim h (h.ram + (total Block.size pre + 12)) newSize =
      if alignedRequest newSize + 12 = n then .done (h, h.ram + (total Block.size pre + 12))
      else if h.used (h.ram + (total Block.size pre + n)) = 0 then do
        lwipAssert "invalid next ptr" (total Block.size pre + n ≠ memSizeAligned)
        pure (linkBack (linkAfter { h with lfree :=
            if h.lfree = h.ram + (total Block.size pre + n) then
              h.ram + (total Block.size pre + (alignedRequest newSize + 12)) else h.lfree }
          (h.ram + total Block.size pre) (total Block.size pre + (alignedRequest newSize + 12))
          (h.next (h.ram + (total Block.size pre + n)))) (total Block.size pre + (alignedRequest newSize + 12)),
          h.ram + (total Block.size pre + 12))
      else if alignedRequest newSize + 36 ≤ n then do
        lwipAssert "invalid next ptr" (total Block.size pre + n ≠ memSizeAligned)
        pure (linkBack (linkAfter { h with lfree :=
            if h.ram + (total Block.size pre + (alignedRequest newSize + 12)) < h.lfree then
              h.ram + (total Block.size pre + (alignedRequest newSize + 12)) else h.lfree }
          (h.ram + total Block.size pre) (total Block.size pre + (alignedRequest newSize + 12))
          (total Block.size pre + n)) (total Block.size pre + (alignedRequest newSize + 12)),
          h.ram + (total Block.size pre + 12))
      else .done (h, h.ram + (total Block.size pre + 12)) := by
  have hfits := hl.fits
  have hend := hl.ramEnd_eq
  obtain ⟨h24, -, hall⟩ := hl.bounds
  have hnext := hl.header.1
  dsimp only at h24 hall hnext
  have hmem : sub32 (h.ram + (total Block.size pre + 12)) sizeofStructMem = h.ram + total Block.size pre := by
    unfold sizeofStructMem
    rw [sub32_of_le (by omega) (by omega)]
    omega
  have hptr : memToPtr h (h.ram + total Block.size pre) = total Block.size pre := memToPtr_eq (by omega)
  have hsize : sub32 (sub32 (total Block.size pre + n) (total Block.size pre)) sizeofStructMem = n - 12 := by
    unfold sizeofStructMem
    rw [sub32_of_le (a := total Block.size pre + n) (by omega) (by omega), sub32_of_le (by omega) (by omega)]
    omega
  have hptr2 : add32 (add32 (total Block.size pre) sizeofStructMem) (alignedRequest newSize) =
      total Block.size pre + (alignedRequest newSize + 12) := by
    unfold sizeofStructMem add32
    omega
  have hsplit : add32 (add32 (alignedRequest newSize) sizeofStructMem) minSizeAligned =
      alignedRequest newSize + 24 := by
    unfold sizeofStructMem minSizeAligned add32
    omega
  have hmem2 : ptrToMem h (total Block.size pre + n) = h.ram + (total Block.size pre + n) := ptrToMem_eq (by omega)
  have hnew : ptrToMem h (total Block.size pre + (alignedRequest newSize + 12)) =
      h.ram + (total Block.size pre + (alignedRequest newSize + 12)) := ptrToMem_eq (by omega)
  have haccept : ¬ (alignedRequest newSize > memSizeAligned ∨ alignedRequest newSize < newSize) := by
    unfold memSizeAligned
    omega
  have hlegal : h.ram ≤ h.ram + (total Block.size pre + 12) ∧ h.ram + (total Block.size pre + 12) < h.ramEnd := by
    omega
  have hshrink : alignedRequest newSize ≤ n - 12 := by omega
  unfold memTrim
  dsimp only
  rw [if_neg haccept, lwipAssert_of hlegal, Outcome.done_bind, hmem, hptr, hnext, hsize, lwipAssert_of hshrink,
    Outcome.done_bind, hptr2, hsplit, hmem2, hnew]
  by_cases heq : alignedRequest newSize + 12 = n
  · have hsame : alignedRequest newSize = n - 12 := by omega
    rw [if_pos hsame, if_pos heq, Outcome.pure_eq]
  have hother : ¬ alignedRequest newSize = n - 12 := by omega
  rw [if_neg hother, if_neg heq]
  by_cases hfree : h.used (h.ram + (total Block.size pre + n)) = 0
  · rw [if_pos hfree, if_pos hfree]
  rw [if_neg hfree, if_neg hfree]
  by_cases hcut : alignedRequest newSize + 36 ≤ n
  · have hroom : alignedRequest newSize + 24 ≤ n - 12 := by omega
    rw [if_pos hroom, if_pos hcut]
  · have hroom : ¬ alignedRequest newSize + 24 ≤ n - 12 := by omega
    rw [if_neg hroom, if_neg hcut, Outcome.pure_eq]

/-- The block behind `pre` has been trimmed to the length `m`, and all other
blocks are as before. -/
def Trims (h : Heap) (pre post : List Block) (n newSize : Nat) (out : Outcome (Heap × Nat)) : Prop :=
  ∃ h' bs' m, out = .done (h', h.ram + (total Block.size pre + 12)) ∧ Blocks h' bs' ∧ h'.ram = h.ram ∧
    live 0 bs' = live 0 pre ++ (total Block.size pre, m) :: live (total Block.size pre + n) post ∧
    alignedRequest newSize + 12 ≤ m ∧ m ≤ n ∧ m < alignedRequest newSize + 36 ∧ Keeps h h' (live 0 bs')

section Trim

variable {h : Heap} {pre post rest : List Block} {n k newSize : Nat}

theorem trims_same (hb : Blocks h (pre ++ ⟨n, true⟩ :: post)) (hfit : alignedRequest newSize + 12 ≤ n)
    (hlt : n < alignedRequest newSize + 36) :
    Trims h pre post n newSize (.done (h, h.ram + (total Block.size pre + 12))) := by
  have hlive : live 0 (pre ++ ⟨n, true⟩ :: post) =
      live 0 pre ++ (total Block.size pre, n) :: live (total Block.size pre + n) post := by
    rw [live_append, Nat.zero_add, live_used]
  exact ⟨h, _, n, rfl, hb, rfl, hlive, hfit, Nat.le_refl n, hlt, fun _ _ _ _ _ _ => rfl⟩

theorem memTrim_last (hb : Blocks h (pre ++ [⟨n, true⟩])) (hle : newSize ≤ alignedRequest newSize)
    (hfit : alignedRequest newSize + 12 ≤ n) :
    (alignedRequest newSize + 36 ≤ n ∧
      memTrim h (h.ram + (total Block.size pre + 12)) newSize = .assertion "invalid next ptr") ∨
    n < alignedRequest newSize + 36 ∧
      Trims h pre [] n newSize (memTrim h (h.ram + (total Block.size pre + 12)) newSize) := by
  have hl := hb.toLaid
  have hend := hl.ramEnd_eq
  obtain ⟨-, -, hall⟩ := hl.bounds
  rw [total_nil] at hall
  dsimp only at hall
  have hlast : h.ram + (total Block.size pre + n) = h.ramEnd := by omega
  rw [memTrim_eq hl hle hfit]
  by_cases heq : alignedRequest newSize + 12 = n
  · rw [if_pos heq]
    exact .inr ⟨by omega, trims_same hb hfit (by omega)⟩
  rw [if_neg heq, hlast, hl.endUsed, if_neg (by decide)]
  by_cases hcut : alignedRequest newSize + 36 ≤ n
  · rw [if_pos hcut, lwipAssert_of_not (by unfold memSizeAligned; omega), Outcome.assertion_bind]
    exact .inl ⟨hcut, rfl⟩
  · rw [if_neg hcut]
    exact .inr ⟨by omega, trims_same hb hfit (by omega)⟩

/-- The free block behind the used one is moved to the front. -/
theorem memTrim_next_free (hb : Blocks h (pre ++ ⟨n, true⟩ :: ⟨k, false⟩ :: rest))
    (hle : newSize ≤ alignedRequest newSize) (hfit : alignedRequest newSize + 12 ≤ n) :
    Trims h pre (⟨k, false⟩ :: rest) n newSize (memTrim h (h.ram + (total Block.size pre + 12)) newSize) := by
  have hl := hb.toLaid
  obtain ⟨-, h4, hall⟩ := hl.bounds
  obtain ⟨-, hprev, hused⟩ := hl.header
  obtain ⟨hnext, -, hu⟩ := hl.next_header
  obtain ⟨hk24, -⟩ := hl.sizes ⟨k, false⟩ (by simp)
  have hmod := alignedRequest_mod newSize
  have hge := alignedRequest_ge newSize
  rw [total_cons] at hall
  dsimp only at h4 hall hprev hused hnext hu hk24
  rw [if_pos rfl] at hused
  rw [memTrim_eq hl hle hfit]
  by_cases heq : alignedRequest newSize + 12 = n
  · rw [if_pos heq]
    exact trims_same hb hfit (by omega)
  rw [if_neg heq, hu, if_pos (by simp), lwipAssert_of (by unfold memSizeAligned; omega), Outcome.done_bind,
    Outcome.pure_eq, hnext]
  have hl' : Laid h (pre ++ [⟨n, true⟩, ⟨k, false⟩] ++ rest) := by simpa using hl
  obtain ⟨j, hj⟩ : ∃ j, j = n - (alignedRequest newSize + 12) + k := ⟨_, rfl⟩
  have hnk : total Block.size pre + n + k = total Block.size pre + (alignedRequest newSize + 12) + j := by omega
  have htwo : total Block.size [⟨n, true⟩, ⟨k, false⟩] = alignedRequest newSize + 12 + j := by
    rw [total_cons, total_cons, total_nil]
    dsimp only
    omega
  have hsep : Separated (pre ++ [⟨alignedRequest newSize + 12, true⟩, ⟨j, false⟩] ++ rest) := by
    obtain ⟨hpre, hpost⟩ := separated_used.mp hb.separated
    exact halves_separated hpre (separated_head hpost)
  obtain ⟨h', hcall, hb', hram, hkeeps⟩ := shrink_blocks hl' hprev hused htwo (by omega) (by omega) (by omega)
    hsep (moved_lfree hb)
  have hlive := live_halves pre rest (alignedRequest newSize + 12) j
  refine ⟨h', _, alignedRequest newSize + 12, ?_, hb', hram, ?_, Nat.le_refl _, hfit, by omega, ?_⟩
  · rw [hnk, hcall]
  · rw [hlive, live_free]
    congr 3
    omega
  · rw [hlive]
    exact hkeeps

/-- The end of the block becomes a free block. -/
theorem memTrim_next_used (hb : Blocks h (pre ++ ⟨n, true⟩ :: ⟨k, true⟩ :: rest))
    (hle : newSize ≤ alignedRequest newSize) (hfit : alignedRequest newSize + 12 ≤ n) :
    Trims h pre (⟨k, true⟩ :: rest) n newSize (memTrim h (h.ram + (total Block.size pre + 12)) newSize) := by
  have hl := hb.toLaid
  obtain ⟨-, h4, hall⟩ := hl.bounds
  obtain ⟨-, hprev, hused⟩ := hl.header
  obtain ⟨-, -, hu⟩ := hl.next_header
  obtain ⟨hk24, -⟩ := hl.sizes ⟨k, true⟩ (by simp)
  have hmod := alignedRequest_mod newSize
  have hge := alignedRequest_ge newSize
  rw [total_cons] at hall
  dsimp only at h4 hall hprev hused hu hk24
  rw [if_pos rfl] at hused
  rw [memTrim_eq hl hle hfit]
  by_cases heq : alignedRequest newSize + 12 = n
  · rw [if_pos heq]
    exact trims_same hb hfit (by omega)
  rw [if_neg heq, hu, if_neg (by simp)]
  by_cases hcut : alignedRequest newSize + 36 ≤ n
  · rw [if_pos hcut, lwipAssert_of (by unfold memSizeAligned; omega), Outcome.done_bind, Outcome.pure_eq]
    have hl' : Laid h (pre ++ [⟨n, true⟩] ++ ⟨k, true⟩ :: rest) := by simpa using hl
    obtain ⟨j, rfl⟩ : ∃ j, n = alignedRequest newSize + 12 + j := ⟨n - (alignedRequest newSize + 12), by omega⟩
    have hone : total Block.size [⟨alignedRequest newSize + 12 + j, true⟩] = alignedRequest newSize + 12 + j :=
      Nat.add_zero _
    have hsep : Separated (pre ++ [⟨alignedRequest newSize + 12, true⟩, ⟨j, false⟩] ++ ⟨k, true⟩ :: rest) := by
      obtain ⟨hpre, hpost⟩ := separated_used.mp hb.separated
      exact halves_separated hpre (separated_free_cons hpost rfl)
    obtain ⟨h', hcall, hb', hram, hkeeps⟩ := shrink_blocks hl' hprev hused hone (by omega) (by omega) (by omega)
      hsep (split_lfree hb (by omega))
    have hlive := live_halves pre (⟨k, true⟩ :: rest) (alignedRequest newSize + 12) j
    refine ⟨h', _, alignedRequest newSize + 12, ?_, hb', hram, hlive, Nat.le_refl _, hfit, by omega, ?_⟩
    · rw [← Nat.add_assoc _ (alignedRequest newSize + 12) j, hcall]
    · rw [hlive]
      exact hkeeps
  · rw [if_neg hcut]
    exact trims_same hb hfit (by omega)

/-- What a call of `mem_trim` for an allocated block does. It only fails where
the rest would become the last block of the heap. -/
theorem memTrim_spec (hb : Blocks h (pre ++ ⟨n, true⟩ :: post)) (hle : newSize ≤ alignedRequest newSize)
    (hfit : alignedRequest newSize + 12 ≤ n) :
    (post = [] ∧ alignedRequest newSize + 36 ≤ n ∧
      memTrim h (h.ram + (total Block.size pre + 12)) newSize = .assertion "invalid next ptr") ∨
    (¬ (post = [] ∧ alignedRequest newSize + 36 ≤ n) ∧
      Trims h pre post n newSize (memTrim h (h.ram + (total Block.size pre + 12)) newSize)) := by
  cases post with
  | nil =>
    obtain ⟨hcut, hfails⟩ | ⟨hlt, htrims⟩ := memTrim_last hb hle hfit
    · exact .inl ⟨rfl, hcut, hfails⟩
    · exact .inr ⟨by omega, htrims⟩
  | cons c rest =>
    refine .inr ⟨by simp, ?_⟩
    obtain ⟨k, used⟩ := c
    cases used with
    | false => exact memTrim_next_free hb hle hfit
    | true => exact memTrim_next_used hb hle hfit

end Trim

end FlashApp.LwipMem
