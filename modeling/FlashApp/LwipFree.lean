import FlashApp.LwipMalloc

namespace FlashApp.LwipMem

open Bytes Tiling

theorem combine_spec {h : Heap} {pre post : List Block} {n k : Nat}
    (hl : Laid h (pre ++ ⟨n, false⟩ :: ⟨k, false⟩ :: post)) :
    Laid (combine h (h.ram + total Block.size pre) (h.ram + (total Block.size pre + n)))
        (pre ++ ⟨n + k, false⟩ :: post) ∧
      Frame h (combine h (h.ram + total Block.size pre) (h.ram + (total Block.size pre + n)))
        (total Block.size pre) (n + k) ∧
      (combine h (h.ram + total Block.size pre) (h.ram + (total Block.size pre + n))).lfree = h.lfree := by
  have hfits := hl.fits
  obtain ⟨hn24, hn4, hall⟩ := hl.bounds
  obtain ⟨hk24, hk4⟩ := hl.sizes ⟨k, false⟩ (by simp)
  obtain ⟨-, hprev, hused⟩ := hl.header
  obtain ⟨hnext, -, -⟩ := hl.next_header
  have hl' : Laid h (pre ++ [⟨n, false⟩, ⟨k, false⟩] ++ post) := by simpa using hl
  rw [total_cons] at hall
  dsimp only at hn24 hn4 hall hk24 hk4 hprev hused hnext
  obtain ⟨a, ha⟩ : ∃ a, a = total Block.size pre := ⟨_, rfl⟩
  rw [← ha] at hall hprev hused hnext ⊢
  have hsnd : (h.setNext (h.ram + a) (a + n + k)).next (h.ram + (a + n)) = a + n + k := by
    rw [next_setNext_out (by omega) (by omega), hnext]
  have heq : combine h (h.ram + a) (h.ram + (a + n)) = linkBack (h.setNext (h.ram + a) (a + n + k)) a := by
    have hfst : (h.setNext (h.ram + a) (a + n + k)).next (h.ram + a) = a + n + k :=
      next_setNext (by omega) (by omega)
    have hptr : memToPtr (h.setNext (h.ram + a) (a + n + k)) (h.ram + a) = a :=
      memToPtr_eq (by simp only [Heap.setNext]; omega)
    have hmem : ptrToMem (h.setNext (h.ram + a) (a + n + k)) a = h.ram + a :=
      ptrToMem_eq (by simp only [Heap.setNext]; omega)
    unfold combine linkBack
    dsimp only
    rw [hnext, hsnd, hmem, hfst, hptr]
  rw [heq]
  have hmid : ∀ s ∈ spots Block.size a (lastStart Block.size 0 0 pre) [⟨n + k, false⟩],
      Written (h.setNext (h.ram + a) (a + n + k)) s := by
    intro s hs
    simp only [spots, List.mem_cons, List.not_mem_nil, or_false] at hs
    subst hs
    refine ⟨?_, ?_, ?_⟩
    · exact (next_setNext (by omega) (by omega)).trans (Nat.add_assoc a n k)
    · exact (prev_setNext (by omega) (.inl rfl)).trans hprev
    · exact (used_setNext (by omega) (.inl rfl)).trans hused
  have htwo : total Block.size [⟨n, false⟩, ⟨k, false⟩] = n + k := by
    rw [total_cons, total_cons, total_nil, Nat.add_zero]
  have hnext' : (h.setNext (h.ram + a) (a + n + k)).next (h.ram + a) =
      a + total Block.size [⟨n, false⟩, ⟨k, false⟩] := by
    rw [next_setNext (by omega) (by omega), htwo, Nat.add_assoc]
  have hmem : ∀ x, x < h.ram + a ∨ h.ram + (a + total Block.size [⟨n, false⟩, ⟨k, false⟩]) ≤ x →
      (h.setNext (h.ram + a) (a + n + k)).memory x = h.memory x := by
    intro x hx
    rw [htwo] at hx
    exact store_out _ (by rw [length_toLe32]; omega)
  have hsizes : ∀ b ∈ [⟨n + k, false⟩], 24 ≤ Block.size b ∧ Block.size b % 4 = 0 := by
    simp only [List.mem_singleton, forall_eq]
    omega
  have hlast : lastStart Block.size a (lastStart Block.size 0 0 pre) [⟨n + k, false⟩] = a := rfl
  subst ha
  obtain ⟨hlaid, hframe⟩ := hl'.relink hmid hlast hnext' (by rw [htwo]; omega) rfl rfl hmem
    (by rw [htwo, total_cons, total_nil, Nat.add_zero]) hsizes
  rw [htwo] at hframe
  exact ⟨by simpa using hlaid, hframe, linkBack_lfree⟩

theorem live_combined (o n k : Nat) (post : List Block) :
    live o (⟨n + k, false⟩ :: post) = live o (⟨n, false⟩ :: ⟨k, false⟩ :: post) := by
  simp only [live, Bool.false_eq_true, ↓reduceIte, Nat.add_assoc]

theorem live_free (o n : Nat) (post : List Block) : live o (⟨n, false⟩ :: post) = live (o + n) post := by
  simp only [live, Bool.false_eq_true, ↓reduceIte]

/-- The two lists describe the same allocations and the same lowest free block. -/
def Alike (bs bs' : List Block) : Prop := live 0 bs' = live 0 bs ∧ firstFree bs' = firstFree bs

theorem combine_alike (pre post : List Block) (n k : Nat) :
    Alike (pre ++ ⟨n, false⟩ :: ⟨k, false⟩ :: post) (pre ++ ⟨n + k, false⟩ :: post) := by
  constructor
  · rw [live_append, live_append, live_combined]
  · induction pre with
    | nil => rfl
    | cons b pre ih => rw [List.cons_append, List.cons_append, firstFree, firstFree, ih]

/-- What `plug_holes` does in one direction. -/
structure Plugged (h g : Heap) (bs bs' : List Block) : Prop where
  laid : Laid g bs'
  ram_eq : g.ram = h.ram
  lfree_eq : g.lfree = h.lfree
  alike : Alike bs bs'
  keeps : Keeps h g (live 0 bs)

theorem Plugged.refl {h : Heap} {bs : List Block} (hl : Laid h bs) : Plugged h h bs bs :=
  ⟨hl, rfl, rfl, ⟨rfl, rfl⟩, fun _ _ _ _ _ _ => rfl⟩

theorem plugged_combine {h : Heap} {pre post : List Block} {n k : Nat}
    (hl : Laid h (pre ++ ⟨n, false⟩ :: ⟨k, false⟩ :: post)) :
    Plugged h (combine h (h.ram + total Block.size pre) (h.ram + (total Block.size pre + n)))
      (pre ++ ⟨n, false⟩ :: ⟨k, false⟩ :: post) (pre ++ ⟨n + k, false⟩ :: post) := by
  obtain ⟨hlaid, hframe, hlfree⟩ := combine_spec hl
  refine ⟨hlaid, hframe.ram_eq, hlfree, combine_alike pre post n k, ?_⟩
  have hlive : live 0 (pre ++ ⟨n, false⟩ :: ⟨k, false⟩ :: post) =
      live 0 pre ++ live (total Block.size pre + (n + k)) post := by
    rw [← (combine_alike pre post n k).1, live_append, Nat.zero_add, live_free]
  rw [hlive]
  exact hframe.keeps

theorem Plugged.trans {h g k : Heap} {bs bs' bs'' : List Block} (h1 : Plugged h g bs bs')
    (h2 : Plugged g k bs' bs'') : Plugged h k bs bs'' := by
  refine ⟨h2.laid, h2.ram_eq.trans h1.ram_eq, h2.lfree_eq.trans h1.lfree_eq,
    ⟨h2.alike.1.trans h1.alike.1, h2.alike.2.trans h1.alike.2⟩, ?_⟩
  intro a n hm x hx1 hx2
  rw [← h1.keeps a n hm x hx1 hx2]
  rw [← h1.ram_eq] at hx1 hx2
  rw [← h1.alike.1] at hm
  exact h2.keeps a n hm x hx1 hx2

theorem firstFree_le (pre : List Block) (n : Nat) (post : List Block) :
    firstFree (pre ++ ⟨n, false⟩ :: post) ≤ total Block.size pre := by
  induction pre with
  | nil => exact Nat.le_refl 0
  | cons b pre ih =>
    rw [List.cons_append, firstFree, total_cons]
    split <;> omega

theorem plugForward_spec {h : Heap} {pre post : List Block} {n : Nat} (hl : Laid h (pre ++ ⟨n, false⟩ :: post))
    (hpost : Separated post) (hlf : h.lfree ≤ h.ram + total Block.size pre) :
    ∃ m rest, Plugged h (plugForward h (h.ram + total Block.size pre)) (pre ++ ⟨n, false⟩ :: post)
      (pre ++ ⟨m, false⟩ :: rest) ∧ Separated rest ∧ ∀ b ∈ rest.head?, b.used = true := by
  have hfits := hl.fits
  have hend := hl.ramEnd_eq
  obtain ⟨h24, -, hall⟩ := hl.bounds
  have hnext := hl.header.1
  dsimp only at h24 hall hnext
  unfold plugForward
  dsimp only
  rw [hnext, ptrToMem_eq (by omega)]
  cases post with
  | nil =>
    rw [total_nil] at hall
    rw [if_neg (by rw [hend]; omega)]
    exact ⟨n, [], Plugged.refl hl, hpost, by simp⟩
  | cons c post =>
    obtain ⟨k, u⟩ := c
    have hc24 := (hl.sizes ⟨k, u⟩ (by simp)).1
    have hused := hl.next_header.2.2
    rw [total_cons] at hall
    dsimp only at hused hc24 hall
    rw [hused]
    cases u with
    | true =>
      rw [if_neg (by simp)]
      exact ⟨n, _, Plugged.refl hl, hpost, by simp⟩
    | false =>
      rw [if_pos (by rw [hend]; simp; omega), if_neg (by omega)]
      obtain ⟨-, hrest, -, hhead⟩ := separated_free.mp (List.nil_append (_ :: post) ▸ hpost)
      exact ⟨n + k, post, plugged_combine hl, hrest, hhead⟩

theorem plugBackward_spec {h : Heap} {pre post : List Block} {n : Nat} (hl : Laid h (pre ++ ⟨n, false⟩ :: post))
    (hpre : Separated pre) (hlf : h.lfree = h.ram + firstFree (pre ++ ⟨n, false⟩ :: post)) :
    ∃ m rest, Plugged h (plugBackward h (h.ram + total Block.size pre)) (pre ++ ⟨n, false⟩ :: post)
      (rest ++ ⟨m, false⟩ :: post) ∧ Separated rest ∧ ∀ b ∈ rest.getLast?, b.used = true := by
  have hfits := hl.fits
  obtain ⟨h24, -, hall⟩ := hl.bounds
  have hprev := hl.header.2.1
  dsimp only at h24 hall hprev
  obtain rfl | ⟨pre, c, rfl⟩ := List.eq_nil_or_concat pre
  · have hself : ptrToMem h (h.prev (h.ram + 0)) = h.ram + 0 := by
      rw [total_nil, lastStart] at hprev
      rw [hprev, ptrToMem_eq (by omega)]
    unfold plugBackward
    rw [total_nil, hself]
    dsimp only
    rw [if_neg (by simp)]
    exact ⟨n, [], Plugged.refl hl, hpre, by simp⟩
  · rw [List.concat_eq_append] at *
    obtain ⟨k, u⟩ := c
    have hl' : Laid h (pre ++ ⟨k, u⟩ :: ⟨n, false⟩ :: post) := by simpa using hl
    have hused := hl'.header.2.2
    have hc24 := (hl.sizes ⟨k, u⟩ (by simp)).1
    have hstart : total Block.size (pre ++ [⟨k, u⟩]) = total Block.size pre + k := by simp
    dsimp only at hused hc24
    rw [hstart] at hall hprev ⊢
    have hbefore : ptrToMem h (h.prev (h.ram + (total Block.size pre + k))) = h.ram + total Block.size pre := by
      rw [hprev, lastStart_append, Nat.zero_add, lastStart, lastStart, ptrToMem_eq (by omega)]
    unfold plugBackward
    rw [hbefore]
    dsimp only
    rw [hused]
    cases u with
    | true =>
      rw [if_neg (by simp)]
      exact ⟨n, _, Plugged.refl hl, hpre, by simp⟩
    | false =>
      have hmem : (⟨k, false⟩ : Block) ∈ pre ++ [⟨k, false⟩] := List.mem_append_right pre List.mem_cons_self
      obtain ⟨hsame, hlow⟩ := firstFree_append_of_free (⟨n, false⟩ :: post) hmem rfl
      rw [hsame] at hlf
      rw [hstart] at hlow
      dsimp only at hlow
      rw [if_pos (by simp; omega), if_neg (by omega)]
      obtain ⟨hsep, -, hlast, -⟩ := separated_free.mp hpre
      exact ⟨k + n, pre, by simpa using plugged_combine hl', hsep, hlast⟩

theorem plugHoles_spec {h : Heap} {pre post : List Block} {n : Nat} (hl : Laid h (pre ++ ⟨n, false⟩ :: post))
    (hpre : Separated pre) (hpost : Separated post)
    (hlf : h.lfree = h.ram + firstFree (pre ++ ⟨n, false⟩ :: post)) :
    ∃ h' bs', plugHoles h (h.ram + total Block.size pre) = .done h' ∧
      Plugged h h' (pre ++ ⟨n, false⟩ :: post) bs' ∧ Separated bs' := by
  have hend := hl.ramEnd_eq
  obtain ⟨h24, -, hall⟩ := hl.bounds
  obtain ⟨hnext, -, hused⟩ := hl.header
  dsimp only at h24 hall hnext hused
  rw [if_neg Bool.false_ne_true] at hused
  have hle : firstFree (pre ++ ⟨n, false⟩ :: post) ≤ total Block.size pre := firstFree_le pre n post
  obtain ⟨m, rest, hforward, hrest, hhead⟩ := plugForward_spec hl hpost (by omega)
  have hlf' : (plugForward h (h.ram + total Block.size pre)).lfree =
      (plugForward h (h.ram + total Block.size pre)).ram + firstFree (pre ++ ⟨m, false⟩ :: rest) := by
    rw [hforward.lfree_eq, hforward.ram_eq, hforward.alike.2, hlf]
  obtain ⟨k, front, hbackward, hfront, hlast⟩ := plugBackward_spec hforward.laid hpre hlf'
  rw [hforward.ram_eq] at hbackward
  refine ⟨_, _, ?_, hforward.trans hbackward, separated_free.mpr ⟨hfront, hrest, hlast, hhead⟩⟩
  unfold plugHoles
  rw [lwipAssert_of (by omega), Outcome.done_bind, lwipAssert_of (by omega), Outcome.done_bind,
    lwipAssert_of hused, Outcome.done_bind, lwipAssert_of (by rw [hnext]; unfold memSizeAligned; omega),
    Outcome.done_bind, Outcome.pure_eq]

theorem freed_lfree {h : Heap} {pre post : List Block} {n : Nat} (hb : Blocks h (pre ++ ⟨n, true⟩ :: post)) :
    (if h.ram + total Block.size pre < h.lfree then h.ram + total Block.size pre else h.lfree) =
      h.ram + firstFree (pre ++ ⟨n, false⟩ :: post) := by
  have hlf := hb.lfree_eq
  have h24 := hb.bounds.1
  dsimp only at h24
  by_cases hused : ∀ b ∈ pre, b.used = true
  · rw [firstFree_append_of_used _ hused, firstFree, if_pos rfl] at hlf
    rw [firstFree_append_of_used _ hused, firstFree, if_neg Bool.false_ne_true, if_pos (by dsimp only at hlf; omega),
      Nat.add_zero]
  · obtain ⟨c, hc, hfree⟩ : ∃ c ∈ pre, c.used = false := by simpa using hused
    obtain ⟨h1, h2⟩ := firstFree_append_of_free (⟨n, true⟩ :: post) hc hfree
    rw [h1] at hlf
    rw [(firstFree_append_of_free (⟨n, false⟩ :: post) hc hfree).1, if_neg (by omega), hlf]

theorem linkValid_of_laid {h : Heap} {pre post : List Block} {b : Block} (hl : Laid h (pre ++ b :: post)) :
    memLinkValid h (h.ram + total Block.size pre) = true := by
  have hfits := hl.fits
  have hend := hl.ramEnd_eq
  obtain ⟨h24, -, hall⟩ := hl.bounds
  obtain ⟨hnext, hprev, -⟩ := hl.header
  dsimp only at hnext hprev
  have hptr : memToPtr h (h.ram + total Block.size pre) = total Block.size pre := memToPtr_eq (by omega)
  have hnmem : ptrToMem h (total Block.size pre + b.size) = h.ram + (total Block.size pre + b.size) :=
    ptrToMem_eq (by omega)
  have hback : lastStart Block.size 0 0 pre ≤ 65536 ∧ (lastStart Block.size 0 0 pre = total Block.size pre ∨
      h.next (ptrToMem h (lastStart Block.size 0 0 pre)) = total Block.size pre) := by
    obtain rfl | ⟨pre, c, rfl⟩ := List.eq_nil_or_concat pre
    · exact ⟨Nat.zero_le _, .inl rfl⟩
    · rw [List.concat_eq_append] at *
      have hl' : Laid h (pre ++ c :: b :: post) := by simpa using hl
      have hc := hl'.header.1
      rw [total_append] at hall
      rw [lastStart_append, Nat.zero_add, lastStart, lastStart, ptrToMem_eq (by omega), hc]
      exact ⟨by omega, .inr (by simp)⟩
  have hforth : h.ram + (total Block.size pre + b.size) = h.ramEnd ∨
      h.prev (h.ram + (total Block.size pre + b.size)) = total Block.size pre := by
    cases post with
    | nil =>
      rw [total_nil] at hall
      exact .inl (by omega)
    | cons c post => exact .inr hl.next_header.2.1
  unfold memLinkValid
  dsimp only
  rw [hptr, hnext, hprev, hnmem]
  unfold memSizeAligned
  simp only [Bool.not_eq_true', Bool.or_eq_false_iff, Bool.and_eq_false_iff, decide_eq_false_iff_not,
    bne_eq_false_iff_eq]
  exact ⟨⟨⟨by omega, by omega⟩, hback.2⟩, hforth⟩

/-- What a call of `mem_free` for an allocated block does. -/
theorem memFree_spec {h : Heap} {pre post : List Block} {n : Nat} (hb : Blocks h (pre ++ ⟨n, true⟩ :: post)) :
    ∃ h' bs', memFree h (h.ram + (total Block.size pre + 12)) = .done h' ∧ Blocks h' bs' ∧ h'.ram = h.ram ∧
      live 0 bs' = live 0 pre ++ live (total Block.size pre + n) post ∧
      Keeps h h' (live 0 pre ++ live (total Block.size pre + n) post) := by
  have hl := hb.toLaid
  have hfits := hl.fits
  have haligned := hl.aligned
  have hend := hl.ramEnd_eq
  have hmod := hl.total_mod
  obtain ⟨h24, -, hall⟩ := hl.bounds
  have hused := hl.header.2.2
  dsimp only at h24 hall hused
  rw [if_pos rfl] at hused
  obtain ⟨hpre, hpost⟩ := separated_used.mp hb.separated
  obtain ⟨hlaid, hframe⟩ := hl.mark (u := false)
  rw [if_neg Bool.false_ne_true] at hlaid hframe
  obtain ⟨g, hg⟩ : ∃ g, g = (if h.ram + total Block.size pre < h.lfree then
      { h.setUsed (h.ram + total Block.size pre) 0 with lfree := h.ram + total Block.size pre }
      else h.setUsed (h.ram + total Block.size pre) 0) := ⟨_, rfl⟩
  have hgl : g.lfree = h.ram + firstFree (pre ++ ⟨n, false⟩ :: post) := by
    rw [← freed_lfree hb, hg]
    split <;> rfl
  have hgram : g.ram = h.ram := by
    rw [hg]
    split <;> rfl
  have hgmem : g.memory = (h.setUsed (h.ram + total Block.size pre) 0).memory := by
    rw [hg]
    split <;> rfl
  have hglaid : Laid g (pre ++ ⟨n, false⟩ :: post) := by
    rw [hg]
    split
    · exact ⟨hlaid.aligned, hlaid.fits, hlaid.ramEnd_eq, hlaid.endUsed, hlaid.total_eq, hlaid.sizes, hlaid.written⟩
    · exact hlaid
  obtain ⟨h', bs', hcall, hplug, hsep⟩ := plugHoles_spec hglaid hpre hpost (by rw [hgl, hgram])
  have hlive : live 0 (pre ++ ⟨n, false⟩ :: post) = live 0 pre ++ live (total Block.size pre + n) post := by
    rw [live_append, Nat.zero_add, live_free]
  refine ⟨h', bs', ?_, ⟨hplug.laid, hsep, ?_⟩, hplug.ram_eq.trans hgram, hplug.alike.1.trans hlive, ?_⟩
  · have hmem : sub32 (h.ram + (total Block.size pre + 12)) sizeofStructMem = h.ram + total Block.size pre := by
      unfold sizeofStructMem
      rw [sub32_of_le (by omega) (by omega)]
      omega
    unfold memFree
    rw [if_neg (by omega), lwipAssert_of (by unfold memAlignment; rw [and_three]; omega), Outcome.done_bind]
    dsimp only
    rw [hmem, lwipAssert_of (by unfold minSizeAligned add32; omega), Outcome.done_bind,
      lwipAssert_of (by rw [hused]; decide), Outcome.done_bind, lwipAssert_of (linkValid_of_laid hl),
      Outcome.done_bind, setUsed_lfree, ← hg, ← hgram]
    exact hcall
  · rw [hplug.lfree_eq, hplug.ram_eq, hplug.alike.2, hgl, hgram]
  · intro a k hm x hx1 hx2
    rw [← hframe.keeps a k hm x hx1 hx2, ← hgmem]
    rw [← hgram] at hx1 hx2
    exact hplug.keeps a k (hlive ▸ hm) x hx1 hx2

end FlashApp.LwipMem
