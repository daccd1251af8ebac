import FlashApp.LwipHeapOps

namespace FlashApp.LwipMem

open Bytes Tiling

theorem and_three (n : Nat) : n &&& 3 = n % 4 := Nat.and_two_pow_sub_one_eq_mod n 2

theorem and_mask {n : Nat} (hn : n < 2 ^ 32) : n &&& 0xfffffffc = n / 4 * 4 := by
  have hmask : (0xfffffffc : Nat) = (2 ^ 30 - 1) <<< 2 := by decide
  have hdiv : n / 4 * 4 = (n >>> 2) <<< 2 := by rw [Nat.shiftRight_eq_div_pow, Nat.shiftLeft_eq]
  rw [hmask, hdiv]
  apply Nat.eq_of_testBit_eq
  intro i
  simp only [Nat.testBit_and, Nat.testBit_shiftLeft, Nat.testBit_shiftRight, Nat.testBit_two_pow_sub_one]
  by_cases hi : 2 ≤ i
  · have hi2 : 2 + (i - 2) = i := by omega
    by_cases h32 : i < 32
    · have h30 : i - 2 < 30 := by omega
      simp [hi, h30]
    · have hle : 2 ^ 32 ≤ 2 ^ i := Nat.pow_le_pow_right (by decide) (by omega)
      have hbit : n.testBit i = false := Nat.testBit_lt_two_pow (Nat.lt_of_lt_of_le hn hle)
      simp [hbit, hi2]
  · simp [hi]

theorem alignedRequest_mod (size : Nat) : alignedRequest size % 4 = 0 := by
  unfold alignedRequest lwipMemAlignSize
  rw [and_mask (add32_lt _ _)]
  split
  · rfl
  · omega

theorem alignedRequest_ge (size : Nat) : 12 ≤ alignedRequest size := by
  unfold alignedRequest minSizeAligned
  split <;> omega

/-- A request that is not rejected is served in full, and at most three bytes
are added to more than the smallest block. -/
theorem alignedRequest_bounds {size : Nat} (hs : size < 2 ^ 32) (h : ¬ alignedRequest size < size) :
    size ≤ alignedRequest size ∧ alignedRequest size ≤ max 12 (size + 3) := by
  refine ⟨by omega, ?_⟩
  unfold alignedRequest lwipMemAlignSize memAlignment minSizeAligned
  rw [and_mask (add32_lt _ _)]
  unfold add32
  split <;> omega

section Walk

variable {h : Heap} {pre post : List Block}

theorem Laid.at_block {b : Block} (hl : Laid h (pre ++ b :: post)) :
    ptrToMem h (total Block.size pre) = h.ram + total Block.size pre ∧
      h.next (h.ram + total Block.size pre) = total Block.size (pre ++ [b]) ∧
      (h.used (h.ram + total Block.size pre) = 0 ↔ b.used = false) := by
  have hfits := hl.fits
  obtain ⟨h24, -, hall⟩ := hl.bounds
  obtain ⟨h1, -, h3⟩ := hl.header
  dsimp only at h1 h3
  refine ⟨ptrToMem_eq (by omega), ?_, ?_⟩
  · rw [h1]
    simp
  · rw [h3]
    cases b.used <;> simp

/-- The search for a free block that is large enough, from any block on. -/
theorem scan_spec {fuel : Nat} (size : Nat) (hl : Laid h (pre ++ post)) (hf : post.length < fuel) :
    (∃ p q n, post = p ++ ⟨n, false⟩ :: q ∧ size + 12 ≤ n ∧
      Scan.scan (fun ptr => ptr < memSizeAligned - size)
        (fun ptr => h.used (ptrToMem h ptr) == 0 && size ≤ room h ptr)
        (fun ptr => h.next (ptrToMem h ptr)) fuel (total Block.size pre) =
        some (some (total Block.size (pre ++ p)))) ∨
    ((∀ b ∈ post, b.used = false → b.size < size + 12) ∧
      Scan.scan (fun ptr => ptr < memSizeAligned - size)
        (fun ptr => h.used (ptrToMem h ptr) == 0 && size ≤ room h ptr)
        (fun ptr => h.next (ptrToMem h ptr)) fuel (total Block.size pre) = some none) := by
  induction post generalizing pre fuel with
  | nil =>
    obtain ⟨fuel, rfl⟩ : ∃ k, fuel = k + 1 := ⟨fuel - 1, by simp at hf; omega⟩
    have hall := hl.total_eq
    rw [List.append_nil] at hall
    refine .inr ⟨by simp, ?_⟩
    rw [Scan.scan, if_neg]
    rw [hall]
    unfold memSizeAligned
    simp
  | cons b post ih =>
    obtain ⟨fuel, rfl⟩ : ∃ k, fuel = k + 1 := ⟨fuel - 1, by simp at hf; omega⟩
    obtain ⟨hp, hnext, hused⟩ := hl.at_block
    obtain ⟨h24, -, hall⟩ := hl.bounds
    have hroom := room_eq hl
    by_cases hlive : total Block.size pre < memSizeAligned - size
    · by_cases hhit : b.used = false ∧ size + 12 ≤ b.size
      · refine .inl ⟨[], post, b.size, ?_, hhit.2, ?_⟩
        · rw [← hhit.1]
          rfl
        · rw [Scan.scan, if_pos (by simpa using hlive), if_pos, List.append_nil]
          rw [hp, hroom, Bool.and_eq_true, beq_iff_eq, decide_eq_true_iff, hused]
          exact ⟨hhit.1, by omega⟩
      · have hmiss : (h.used (ptrToMem h (total Block.size pre)) == 0 &&
            decide (size ≤ room h (total Block.size pre))) ≠ true := by
          rw [hp, hroom, Ne, Bool.and_eq_true, beq_iff_eq, decide_eq_true_iff, hused]
          rintro ⟨hu, hr⟩
          exact hhit ⟨hu, by omega⟩
        have hl' : Laid h ((pre ++ [b]) ++ post) := by simpa using hl
        have hf' : post.length < fuel := by simpa using hf
        have hstep := ih hl' hf'
        rw [Scan.scan, if_pos (by simpa using hlive), if_neg hmiss, hp, hnext]
        obtain ⟨p, q, n, rfl, hn, hscan⟩ | ⟨hnone, hscan⟩ := hstep
        · exact .inl ⟨b :: p, q, n, rfl, hn, by simpa using hscan⟩
        · refine .inr ⟨?_, hscan⟩
          intro c hc hfree
          obtain rfl | hc := List.mem_cons.mp hc
          · rw [← Nat.not_le]
            exact fun hle => hhit ⟨hfree, hle⟩
          · exact hnone c hc hfree
    · refine .inr ⟨?_, ?_⟩
      · -- behind this position no block of the size has room before the end
        intro c hc _
        have hsum : c.size ≤ total Block.size (b :: post) := by
          obtain ⟨p, q, hpq⟩ := List.append_of_mem hc
          rw [hpq, total_append, total_cons]
          omega
        rw [total_cons] at hsum
        unfold memSizeAligned at hlive
        omega
      · rw [Scan.scan, if_neg (by simpa using hlive)]

theorem lowest_spec {fuel : Nat} (hl : Laid h (pre ++ post)) (hf : post.length < fuel) :
    While.whileDo (fun cur => h.used cur != 0 && cur != h.ramEnd) (fun cur => ptrToMem h (h.next cur)) fuel
      (h.ram + total Block.size pre) = some (h.ram + (total Block.size pre + firstFree post)) := by
  have hend := hl.ramEnd_eq
  induction post generalizing pre fuel with
  | nil =>
    obtain ⟨fuel, rfl⟩ : ∃ k, fuel = k + 1 := ⟨fuel - 1, by simp at hf; omega⟩
    have hall := hl.total_eq
    rw [List.append_nil] at hall
    rw [While.whileDo, if_neg]
    · rfl
    · rw [hall, ← hend]
      simp
  | cons b post ih =>
    obtain ⟨fuel, rfl⟩ : ∃ k, fuel = k + 1 := ⟨fuel - 1, by simp at hf; omega⟩
    have hfits := hl.fits
    obtain ⟨hp, hnext, hused⟩ := hl.at_block
    obtain ⟨h24, -, hall⟩ := hl.bounds
    rw [While.whileDo, firstFree]
    by_cases hu : b.used = true
    · have hl' : Laid h ((pre ++ [b]) ++ post) := by simpa using hl
      have hne : h.used (h.ram + total Block.size pre) ≠ 0 := by
        rw [Ne, hused, hu]
        simp
      have hb : total Block.size (pre ++ [b]) = total Block.size pre + b.size := by simp
      rw [if_pos (by simp [hne]; omega), if_pos hu, hnext, ptrToMem_eq (by omega), ih hl' (by simpa using hf),
        hb, Nat.add_assoc]
    · rw [if_neg (by simp [hused, hu]), if_neg hu]
      rfl

end Walk

theorem taken_total (n size : Nat) : total Block.size (taken n size) = n := by
  unfold taken
  split
  · simp only [total_cons, total_nil]
    omega
  · exact Nat.add_zero n

theorem taken_separated {pre post : List Block} {n size : Nat} (hs : Separated (pre ++ ⟨n, false⟩ :: post)) :
    Separated (pre ++ taken n size ++ post) := by
  obtain ⟨hpre, hpost, -, hhead⟩ := separated_free.mp hs
  unfold taken
  split
  · have hrest : Separated ([] ++ ⟨n - (size + 12), false⟩ :: post) :=
      separated_free.mpr ⟨List.isChain_nil, hpost, by simp, hhead⟩
    simpa using separated_used.mpr ⟨hpre, hrest⟩
  · simpa using separated_used.mpr ⟨hpre, hpost⟩

theorem taken_live {n size o : Nat} (hfit : size + 12 ≤ n) :
    ∃ k, live o (taken n size) = [(o, k)] ∧ size + 12 ≤ k ∧ k < size + 36 := by
  unfold taken
  split
  · exact ⟨size + 12, by simp [live], by omega, by omega⟩
  · exact ⟨n, by simp [live], hfit, by omega⟩

theorem adjust_spec {h g : Heap} {pre post : List Block} {n size fuel : Nat}
    (hb : Blocks h (pre ++ ⟨n, false⟩ :: post)) (hl : Laid g (pre ++ taken n size ++ post))
    (hram : g.ram = h.ram) (hlfree : g.lfree = h.lfree) (hf : (taken n size ++ post).length < fuel) :
    adjustLfree fuel g (h.ram + total Block.size pre) =
      .done { g with lfree := g.ram + firstFree (pre ++ taken n size ++ post) } := by
  unfold adjustLfree
  have hlf := hb.lfree_eq
  rw [← hlfree] at hlf
  by_cases hused : ∀ b ∈ pre, b.used = true
  · rw [firstFree_append_of_used _ hused] at hlf
    simp only [firstFree, Bool.false_eq_true, ↓reduceIte, Nat.add_zero] at hlf
    rw [if_pos hlf.symm]
    have hlow := hl.lowest_free
    rw [List.append_assoc, firstFree_append_of_used _ hused] at hlow
    rw [hlf, ← hram, lowest_spec (List.append_assoc pre _ post ▸ hl) hf]
    rw [List.append_assoc, firstFree_append_of_used _ hused]
    simp only [Outcome.ofOption, Outcome.done_bind, Outcome.pure_eq]
    rw [lwipAssert_of hlow, Outcome.done_bind]
  · obtain ⟨c, hc, hfree⟩ : ∃ c ∈ pre, c.used = false := by
      simpa using hused
    obtain ⟨h1, h2⟩ := firstFree_append_of_free (⟨n, false⟩ :: post) hc hfree
    have hc24 := (hb.sizes c (by simp [hc])).1
    rw [h1] at hlf
    rw [if_neg (by omega)]
    have hsame : g.ram + firstFree pre = g.lfree := by rw [hlf, hram]
    rw [List.append_assoc, (firstFree_append_of_free _ hc hfree).1, hsame, Outcome.pure_eq]

theorem length_taken_le (n size : Nat) : (taken n size).length ≤ 2 := by
  unfold taken
  split <;> simp

theorem allocate_spec {h : Heap} {pre post : List Block} {n size fuel : Nat}
    (hb : Blocks h (pre ++ ⟨n, false⟩ :: post)) (hsize : 12 ≤ size) (h4 : size % 4 = 0) (hfit : size + 12 ≤ n)
    (hf : post.length + 2 < fuel) :
    ∃ h', allocate fuel h (total Block.size pre) size = .done (h', h.ram + (total Block.size pre + 12)) ∧
      Blocks h' (pre ++ taken n size ++ post) ∧ Frame h h' (total Block.size pre) n := by
  have hfits := hb.fits
  have haligned := hb.aligned
  obtain ⟨h24, -, hall⟩ := hb.bounds
  have hmod := hb.toLaid.total_mod
  dsimp only at h24 hall
  obtain ⟨g, htake, hlaid, hframe, hlfree⟩ := takeBlock_spec hb.toLaid hsize h4 hfit
  have hlen : (taken n size ++ post).length < fuel := by
    have := length_taken_le n size
    rw [List.length_append]
    omega
  have hadj := adjust_spec hb hlaid hframe.ram_eq hlfree hlen
  have hend : g.ramEnd = h.ram + 65536 := by rw [hframe.ramEnd_eq, hb.ramEnd_eq]
  refine ⟨{ g with lfree := g.ram + firstFree (pre ++ taken n size ++ post) }, ?_, ?_, ?_⟩
  · have hdata : add32 (h.ram + total Block.size pre) sizeofStructMem = h.ram + (total Block.size pre + 12) := by
      unfold sizeofStructMem add32
      omega
    have habove : add32 (add32 (h.ram + total Block.size pre) sizeofStructMem) size ≤ g.ramEnd := by
      rw [hdata, add32_of_lt (by omega), hend]
      omega
    have hproper : add32 (h.ram + total Block.size pre) sizeofStructMem % memAlignment = 0 := by
      rw [hdata]
      unfold memAlignment
      omega
    have hsanity : h.ram + total Block.size pre &&& memAlignment - 1 = 0 := by
      unfold memAlignment
      rw [and_three]
      omega
    unfold allocate
    dsimp only
    rw [ptrToMem_eq (by omega), htake, Outcome.done_bind, hadj, Outcome.done_bind, lwipAssert_of habove,
      Outcome.done_bind, lwipAssert_of hproper, Outcome.done_bind, lwipAssert_of hsanity, Outcome.done_bind,
      Outcome.pure_eq, hdata]
  · exact ⟨⟨hlaid.aligned, hlaid.fits, hlaid.ramEnd_eq, hlaid.endUsed, hlaid.total_eq, hlaid.sizes, hlaid.written⟩,
      taken_separated hb.separated, rfl⟩
  · exact ⟨hframe.ram_eq, hframe.ramEnd_eq, hframe.memory_eq⟩

theorem adjustLfree_mono {h h' : Heap} {mem n k : Nat} (hd : adjustLfree n h mem = .done h') (hk : n ≤ k) :
    adjustLfree k h mem = .done h' := by
  unfold adjustLfree at hd ⊢
  split at hd
  · next heq =>
    rw [if_pos heq]
    obtain ⟨cur, hcur, hd⟩ := Outcome.bind_eq_done.mp hd
    rw [Outcome.ofOption_eq_done] at hcur
    exact Outcome.bind_eq_done.mpr ⟨cur, Outcome.ofOption_eq_done.mpr (While.whileDo_mono hcur hk), hd⟩
  · next hne =>
    rw [if_neg hne]
    exact hd

theorem allocate_mono {h : Heap} {ptr size n k : Nat} {r : Heap × Nat} (hd : allocate n h ptr size = .done r)
    (hk : n ≤ k) : allocate k h ptr size = .done r := by
  unfold allocate at hd ⊢
  obtain ⟨g, htake, hd⟩ := Outcome.bind_eq_done.mp hd
  obtain ⟨g', hadj, hd⟩ := Outcome.bind_eq_done.mp hd
  exact Outcome.bind_eq_done.mpr ⟨g, htake, Outcome.bind_eq_done.mpr ⟨g', adjustLfree_mono hadj hk, hd⟩⟩

theorem memMalloc_mono {h : Heap} {sizeIn n k : Nat} {r : Heap × Nat} (hd : memMalloc n h sizeIn = .done r)
    (hk : n ≤ k) : memMalloc k h sizeIn = .done r := by
  unfold memMalloc at hd ⊢
  by_cases hzero : sizeIn = 0
  · rw [if_pos hzero] at hd ⊢
    exact hd
  rw [if_neg hzero] at hd ⊢
  by_cases hbig : alignedRequest sizeIn > memSizeAligned ∨ alignedRequest sizeIn < sizeIn
  · dsimp only at hd ⊢
    rw [if_pos hbig] at hd ⊢
    exact hd
  dsimp only at hd ⊢
  rw [if_neg hbig] at hd ⊢
  obtain ⟨found, hfound, hd⟩ := Outcome.bind_eq_done.mp hd
  rw [Outcome.ofOption_eq_done] at hfound
  refine Outcome.bind_eq_done.mpr ⟨found, Outcome.ofOption_eq_done.mpr (Scan.scan_mono hfound hk), ?_⟩
  cases found with
  | none => exact hd
  | some ptr => exact allocate_mono hd hk

/-- What one call of `mem_malloc` does to the blocks of the heap. -/
theorem memMalloc_spec {h : Heap} {bs : List Block} {fuel : Nat} (sizeIn : Nat) (hb : Blocks h bs)
    (hf : bs.length + 2 < fuel) :
    (memMalloc fuel h sizeIn = .done (h, 0) ∧
      (sizeIn = 0 ∨ alignedRequest sizeIn > 65536 ∨ alignedRequest sizeIn < sizeIn ∨
        ∀ b ∈ bs, b.used = false → b.size < alignedRequest sizeIn + 12)) ∨
    ∃ h' bs' o n l l', memMalloc fuel h sizeIn = .done (h', h.ram + (o + 12)) ∧ Blocks h' bs' ∧
      h'.ram = h.ram ∧ live 0 bs = l ++ l' ∧ live 0 bs' = l ++ (o, n) :: l' ∧ sizeIn ≤ alignedRequest sizeIn ∧
      alignedRequest sizeIn + 12 ≤ n ∧ n < alignedRequest sizeIn + 36 ∧ Keeps h h' (live 0 bs) := by
  by_cases hzero : sizeIn = 0
  · exact .inl ⟨by simp [memMalloc, hzero], .inl hzero⟩
  by_cases hbig : alignedRequest sizeIn > memSizeAligned ∨ alignedRequest sizeIn < sizeIn
  · refine .inl ⟨by simp [memMalloc, hzero, hbig], .inr ?_⟩
    exact hbig.imp_right .inl
  have hcall : memMalloc fuel h sizeIn =
      (Outcome.ofOption (findBlock fuel h (alignedRequest sizeIn)) >>= fun found =>
        found.elim (.done (h, 0)) fun ptr => allocate fuel h ptr (alignedRequest sizeIn)) := by
    unfold memMalloc
    rw [if_neg hzero]
    refine (if_neg hbig).trans ?_
    congr 1
    funext found
    cases found with
    | none => rfl
    | some ptr => rfl
  have hfits := hb.fits
  have hlf := hb.lfree_eq
  -- the search starts behind blocks that are all in use
  obtain ⟨pre, rest, rfl, hpre, hff, -⟩ := exists_lowest bs
  have hall := hb.total_eq
  rw [total_append] at hall
  have hptr : memToPtr h h.lfree = total Block.size pre := by
    rw [hlf, hff, memToPtr_eq (by omega)]
  rw [List.length_append] at hf
  have hscan := scan_spec (alignedRequest sizeIn) hb.toLaid (by omega : rest.length < fuel)
  rw [← hptr] at hscan
  obtain ⟨p, q, n, rfl, hfit, hfound⟩ | ⟨hnone, hfound⟩ := hscan
  · right
    rw [← List.append_assoc] at hb
    rw [List.length_append, List.length_cons] at hf
    obtain ⟨h', hcall', hb', hframe⟩ := allocate_spec hb (alignedRequest_ge sizeIn) (alignedRequest_mod sizeIn)
      hfit (by omega : q.length + 2 < fuel)
    obtain ⟨k, hlive, hk1, hk2⟩ := taken_live (o := total Block.size (pre ++ p)) hfit
    have hlive0 : live 0 (pre ++ (p ++ ⟨n, false⟩ :: q)) =
        live 0 (pre ++ p) ++ live (total Block.size (pre ++ p) + n) q := by
      rw [← List.append_assoc, live_append, Nat.zero_add, live, if_neg Bool.false_ne_true]
    refine ⟨h', _, total Block.size (pre ++ p), k, live 0 (pre ++ p),
      live (total Block.size (pre ++ p) + n) q, ?_, hb', hframe.ram_eq, hlive0, ?_, by omega, hk1, hk2, ?_⟩
    · rw [hcall]
      unfold findBlock
      rw [hfound]
      exact hcall'
    · rw [live_append, live_append, total_append (pre ++ p), Nat.zero_add, Nat.zero_add, taken_total, hlive,
        List.append_assoc]
      rfl
    · rw [hlive0]
      exact hframe.keeps
  · left
    refine ⟨?_, .inr (.inr (.inr ?_))⟩
    · rw [hcall]
      unfold findBlock
      rw [hfound]
      rfl
    · intro b hm hfree
      obtain hm | hm := List.mem_append.mp hm
      · rw [hpre b hm] at hfree
        exact absurd hfree (by decide)
      · exact hnone b hm hfree

end FlashApp.LwipMem
