import FlashApp.LwipTrim
import FlashApp.Machine
import Mathlib.Data.List.Nodup

namespace FlashApp.LwipMem

open Bytes Tiling Machine

/-- Memory that a caller has got from the heap, with what the caller has
written to it. -/
structure Alloc where
  ptr : Nat
  contents : List UInt8

structure State where
  heap : Heap
  ledger : List Alloc

inductive Call where
  | malloc (size : UInt32)
  | free (rmem : Nat)
  | trim (rmem newSize : Nat)
  | write (rmem i : Nat) (v : UInt8)
  | elsewhere (memory : Memory)

/-- The change of one entry of the ledger. -/
def update (ledger : List Alloc) (ptr : Nat) (f : List UInt8 → List UInt8) : List Alloc :=
  ledger.map fun a => if a.ptr = ptr then ⟨a.ptr, f a.contents⟩ else a

/-- The calls that keep to the rules: only `NULL` or allocated memory is freed,
`mem_trim` only shrinks, and the callers write inside of what they have got.
The rest of the memory changes in any way. -/
inductive Step : State → Call → State → Prop
  | malloc {s : State} {size : UInt32} {fuel ptr : Nat} {h : Heap}
      (hcall : memMalloc fuel s.heap size.toNat = .done (h, ptr)) :
      Step s (.malloc size)
        ⟨h, if ptr = 0 then s.ledger else ⟨ptr, slice h.memory ptr size.toNat⟩ :: s.ledger⟩
  | freeNull {s : State} {h : Heap} (hcall : memFree s.heap 0 = .done h) : Step s (.free 0) ⟨h, s.ledger⟩
  | free {s : State} {a : Alloc} {h : Heap} (ha : a ∈ s.ledger) (hcall : memFree s.heap a.ptr = .done h) :
      Step s (.free a.ptr) ⟨h, s.ledger.filter fun b => b.ptr != a.ptr⟩
  | trim {s : State} {a : Alloc} {newSize ptr : Nat} {h : Heap} (ha : a ∈ s.ledger)
      (hle : newSize ≤ a.contents.length) (hcall : memTrim s.heap a.ptr newSize = .done (h, ptr)) :
      Step s (.trim a.ptr newSize) ⟨h, update s.ledger a.ptr (List.take newSize)⟩
  | write {s : State} {a : Alloc} {i : Nat} {v : UInt8} (ha : a ∈ s.ledger) (hi : i < a.contents.length) :
      Step s (.write a.ptr i v) ⟨{ s.heap with memory := store s.heap.memory (a.ptr + i) [v] },
        update s.ledger a.ptr fun bs => bs.set i v⟩
  | elsewhere {s : State} {memory : Memory}
      (hm : ∀ x, s.heap.ram ≤ x → x < s.heap.ram + 65548 → memory x = s.heap.memory x) :
      Step s (.elsewhere memory) ⟨{ s.heap with memory := memory }, s.ledger⟩

/-- The heap after `mem_init`, in an aligned place of the memory. -/
def Start (s : State) : Prop :=
  ∃ memory ram, ram % 4 = 0 ∧ ram + 65548 ≤ 2 ^ 32 ∧ s = ⟨memInit memory ram, []⟩

theorem Laid.setMemory {h : Heap} {bs : List Block} {m : Memory} (hl : Laid h bs)
    (hm : ∀ s ∈ spots Block.size 0 0 bs, ∀ x, h.ram + s.start ≤ x → x < h.ram + s.start + 12 → m x = h.memory x)
    (hend : m (h.ram + 65544) = h.memory (h.ram + 65544)) : Laid { h with memory := m } bs := by
  have hfits := hl.fits
  have hu := hl.endUsed
  rw [hl.ramEnd_eq, used_eq (by omega)] at hu
  refine ⟨hl.aligned, hl.fits, hl.ramEnd_eq, ?_, hl.total_eq, hl.sizes, ?_⟩
  · dsimp only
    rw [hl.ramEnd_eq, used_eq (by omega), ← hu]
    exact hend
  · intro s hs
    have hb := spots_bounds hs
    rw [hl.total_eq] at hb
    have h24 := (hl.sizes s.piece (piece_mem hs)).1
    exact (hl.written s hs).congr rfl (by omega) (hm s hs)

theorem memInit_blocks {memory : Memory} {ram : Nat} (haligned : ram % 4 = 0) (hfits : ram + 65548 ≤ 2 ^ 32) :
    Blocks (memInit memory ram) [⟨65536, false⟩] := by
  have hend : add32 ram memSizeAligned = ram + 65536 := by
    unfold memSizeAligned
    exact add32_of_lt (by omega)
  have hinit : memInit memory ram = (((((Heap.setNext ⟨memory, ram, ram + 65536, ram⟩ ram 65536).setPrev ram
      0).setUsed ram 0).setUsed (ram + 65536) 1).setNext (ram + 65536) 65536).setPrev (ram + 65536) 65536 := by
    unfold memInit
    rw [hend]
    rfl
  obtain ⟨g, hg⟩ : ∃ g, g = memInit memory ram := ⟨_, rfl⟩
  have hram : g.ram = ram := by rw [hg, hinit]; rfl
  have hramEnd : g.ramEnd = ram + 65536 := by rw [hg, hinit]; rfl
  have hlfree : g.lfree = ram := by rw [hg, hinit]; rfl
  have hused : g.used (ram + 65536) = 1 := by
    rw [hg, hinit, used_setPrev (by omega) (by omega) (.inl rfl), used_setNext (by omega) (.inl rfl),
      used_setUsed (by omega)]
  have hnext : g.next ram = 65536 := by
    rw [hg, hinit, next_setPrev (by omega) (by omega) (by omega), next_setNext_out (by omega) (by omega),
      next_setUsed (by omega) (by omega) (by omega), next_setUsed (by omega) (by omega) (.inl rfl),
      next_setPrev (by omega) (by omega) (.inl rfl), next_setNext (by omega) (by omega)]
  have hprev : g.prev ram = 0 := by
    rw [hg, hinit, prev_setPrev_out (by omega) (by omega) (by omega), prev_setNext (by omega) (by omega),
      prev_setUsed (by omega) (by omega) (by omega), prev_setUsed (by omega) (by omega) (.inl rfl),
      prev_setPrev (by omega) (by omega)]
  have hfree : g.used ram = 0 := by
    rw [hg, hinit, used_setPrev (by omega) (by omega) (by omega), used_setNext (by omega) (by omega),
      used_setUsed_out (by omega) (by omega) (by omega), used_setUsed (by omega)]
  rw [← hg]
  refine ⟨⟨by omega, by omega, by omega, by rw [hramEnd, hused], rfl, by simp, ?_⟩, List.isChain_singleton _, ?_⟩
  · intro s hs
    simp only [spots, List.mem_cons, List.not_mem_nil, or_false] at hs
    subst hs
    unfold Written
    dsimp only
    rw [hram, Nat.add_zero]
    exact ⟨hnext, hprev, hfree⟩
  · rw [hlfree, hram]
    rfl

theorem live_apart {bs : List Block} {o a n a' n' : Nat} (h : (a, n) ∈ live o bs) (h' : (a', n') ∈ live o bs) :
    (a = a' ∧ n = n') ∨ a + n ≤ a' ∨ a' + n' ≤ a := by
  induction bs generalizing o with
  | nil => simp [live] at h
  | cons b bs ih =>
    rw [live] at h h'
    split at h
    · next hu =>
      rw [if_pos hu] at h'
      obtain h | h := List.mem_cons.mp h <;> obtain h' | h' := List.mem_cons.mp h'
      · rw [Prod.mk.injEq] at h h'
        omega
      · rw [Prod.mk.injEq] at h
        have := live_bounds h'
        omega
      · rw [Prod.mk.injEq] at h'
        have := live_bounds h
        omega
      · exact ih h h'
    · next hu =>
      rw [if_neg hu] at h'
      exact ih h h'

theorem live_positive {bs : List Block} {o a n : Nat} (hb : ∀ b ∈ bs, 24 ≤ b.size) (h : (a, n) ∈ live o bs) :
    24 ≤ n := by
  obtain ⟨pre, post, rfl, -⟩ := exists_append_of_live h
  exact hb ⟨n, true⟩ (by simp)

/-- An allocation and its block. -/
structure Entry (h : Heap) (a : Alloc) (o n : Nat) : Prop where
  ptr_eq : a.ptr = h.ram + (o + 12)
  size_le : a.contents.length ≤ alignedRequest a.contents.length
  fits : alignedRequest a.contents.length + 12 ≤ n
  tight : n < alignedRequest a.contents.length + 36
  holds : Holds h.memory a.ptr a.contents

/-- The ledger has one entry for each allocated block. -/
structure Inv (s : State) (bs : List Block) : Prop where
  blocks : Blocks s.heap bs
  ptrs : (s.ledger.map Alloc.ptr).Perm ((live 0 bs).map fun p => s.heap.ram + (p.1 + 12))
  entries : ∀ a ∈ s.ledger, ∃ o n, (o, n) ∈ live 0 bs ∧ Entry s.heap a o n

theorem Entry.keeps {h h' : Heap} {a : Alloc} {o n : Nat} {ls : List (Nat × Nat)} (he : Entry h a o n)
    (hk : Keeps h h' ls) (hm : (o, n) ∈ ls) (hram : h'.ram = h.ram) : Entry h' a o n := by
  refine ⟨by rw [he.ptr_eq, hram], he.size_le, he.fits, he.tight, ?_⟩
  have hsize := he.size_le
  have hfits := he.fits
  have hptr := he.ptr_eq
  unfold Holds
  rw [slice_congr fun x hx1 hx2 => hk o n hm x (by omega) (by omega)]
  exact he.holds

/-- The pointer of an allocation says which block it has. -/
theorem Inv.at {s : State} {bs : List Block} (hi : Inv s bs) {a : Alloc} (ha : a ∈ s.ledger) :
    ∃ pre post n, bs = pre ++ ⟨n, true⟩ :: post ∧ (total Block.size pre, n) ∈ live 0 bs ∧
      Entry s.heap a (total Block.size pre) n := by
  obtain ⟨o, n, hm, he⟩ := hi.entries a ha
  obtain ⟨pre, post, hbs, ho⟩ := exists_append_of_live hm
  rw [Nat.zero_add] at ho
  subst ho
  exact ⟨pre, post, n, hbs, hm, he⟩

theorem live_around (pre post : List Block) (n : Nat) :
    live 0 (pre ++ ⟨n, true⟩ :: post) =
      live 0 pre ++ (total Block.size pre, n) :: live (total Block.size pre + n) post := by
  rw [live_append, Nat.zero_add, live_used]

theorem Inv.malloc {s : State} {bs : List Block} (hi : Inv s bs) {size : UInt32} {fuel ptr : Nat} {h : Heap}
    (hcall : memMalloc fuel s.heap size.toNat = .done (h, ptr)) :
    ∃ bs', Inv ⟨h, if ptr = 0 then s.ledger else ⟨ptr, slice h.memory ptr size.toNat⟩ :: s.ledger⟩ bs' := by
  have hf : bs.length + 2 < max fuel (bs.length + 3) := by omega
  replace hcall := memMalloc_mono hcall (Nat.le_max_left fuel (bs.length + 3))
  obtain ⟨hnull, -⟩ | ⟨h', bs', o, n, l, l', hdone, hb, hram, hl, hl', hsize, hn1, hn2, hkeeps⟩ :=
    memMalloc_spec size.toNat hi.blocks hf
  · rw [hcall] at hnull
    injection hnull with hnull
    injection hnull with h1 h2
    rw [h1, if_pos h2]
    exact ⟨bs, hi⟩
  · rw [hcall] at hdone
    injection hdone with hdone
    injection hdone with h1 h2
    subst h1
    rw [if_neg (by omega), h2]
    refine ⟨bs', hb, ?_, ?_⟩
    · have hp := hi.ptrs
      rw [hl, List.map_append] at hp
      dsimp only
      rw [hl', hram, List.map_cons, List.map_append, List.map_cons]
      exact (hp.cons _).trans List.perm_middle.symm
    · intro a ha
      obtain rfl | ha := List.mem_cons.mp ha
      · refine ⟨o, n, by rw [hl']; simp, by rw [hram], ?_, ?_, ?_, ?_⟩
        · simpa using hsize
        · simpa using hn1
        · simpa using hn2
        · unfold Holds
          rw [length_slice]
      · obtain ⟨o', n', hm, he⟩ := hi.entries a ha
        refine ⟨o', n', ?_, he.keeps hkeeps hm hram⟩
        rw [hl] at hm
        rw [hl']
        simp only [List.mem_append, List.mem_cons] at hm ⊢
        tauto

theorem mem_of_ne {l l' : List (Nat × Nat)} {o n o' n' : Nat} (h : (o', n') ∈ l ++ (o, n) :: l') (hne : o' ≠ o) :
    (o', n') ∈ l ++ l' := by
  simp only [List.mem_append, List.mem_cons, Prod.mk.injEq] at h ⊢
  tauto

theorem Inv.free {s : State} {bs : List Block} (hi : Inv s bs) {a : Alloc} {h : Heap} (ha : a ∈ s.ledger)
    (hcall : memFree s.heap a.ptr = .done h) :
    ∃ bs', Inv ⟨h, s.ledger.filter fun b => b.ptr != a.ptr⟩ bs' := by
  obtain ⟨pre, post, n, rfl, hm, he⟩ := hi.at ha
  obtain ⟨h', bs', hdone, hb, hram, hlive, hkeeps⟩ := memFree_spec hi.blocks
  rw [← he.ptr_eq, hcall] at hdone
  injection hdone with hdone
  subst hdone
  have hold := live_around pre post n
  have hother : ∀ p ∈ live 0 pre ++ live (total Block.size pre + n) post,
      s.heap.ram + (p.1 + 12) ≠ a.ptr := by
    rintro ⟨o', n'⟩ hp
    have h24 := (hi.blocks.bounds).1
    dsimp only at h24 ⊢
    rw [he.ptr_eq]
    obtain hp | hp := List.mem_append.mp hp
    · have := live_bounds hp
      have := live_positive (fun b hb => (hi.blocks.sizes b (by simp [hb])).1) hp
      omega
    · have := live_bounds hp
      omega
  refine ⟨bs', hb, ?_, ?_⟩
  · have hp := hi.ptrs.filter fun x => x != a.ptr
    have hself : ((live 0 pre ++ live (total Block.size pre + n) post).map fun p => s.heap.ram + (p.1 + 12)).filter
        (fun x => x != a.ptr) =
        (live 0 pre ++ live (total Block.size pre + n) post).map fun p => s.heap.ram + (p.1 + 12) := by
      rw [List.filter_eq_self]
      intro x hx
      obtain ⟨p, hpm, rfl⟩ := List.mem_map.mp hx
      simpa using hother p hpm
    rw [hold, List.map_append, List.map_cons, List.filter_append, List.filter_cons_of_neg (by simp [he.ptr_eq]),
      ← List.filter_append, ← List.map_append, hself, List.filter_map] at hp
    dsimp only
    rw [hlive, hram]
    exact hp
  · intro b hbm
    obtain ⟨hbl, hne⟩ := List.mem_filter.mp hbm
    obtain ⟨o', n', hm', he'⟩ := hi.entries b hbl
    have hne' : o' ≠ total Block.size pre := by
      rintro rfl
      rw [he'.ptr_eq, he.ptr_eq] at hne
      simp at hne
    rw [hold] at hm'
    have hm' := mem_of_ne hm' hne'
    exact ⟨o', n', by rwa [hlive], he'.keeps hkeeps hm' hram⟩

theorem update_ptrs (ledger : List Alloc) (ptr : Nat) (f : List UInt8 → List UInt8) :
    (update ledger ptr f).map Alloc.ptr = ledger.map Alloc.ptr := by
  unfold update
  rw [List.map_map]
  apply List.map_congr_left
  intro a _
  simp only [Function.comp_apply]
  split <;> rfl

theorem mem_update {ledger : List Alloc} {ptr : Nat} {f : List UInt8 → List UInt8} {b : Alloc}
    (hb : b ∈ update ledger ptr f) :
    ∃ a ∈ ledger, (a.ptr = ptr ∧ b = ⟨a.ptr, f a.contents⟩) ∨ (a.ptr ≠ ptr ∧ b = a) := by
  obtain ⟨a, ha, rfl⟩ := List.mem_map.mp hb
  refine ⟨a, ha, ?_⟩
  by_cases h : a.ptr = ptr
  · exact .inl ⟨h, if_pos h⟩
  · exact .inr ⟨h, if_neg h⟩

theorem alignedRequest_mono {a b : Nat} (hab : a ≤ b) (hb : b + 3 < 2 ^ 32) :
    alignedRequest a ≤ alignedRequest b ∧ a ≤ alignedRequest a := by
  unfold alignedRequest lwipMemAlignSize memAlignment minSizeAligned
  rw [and_mask (add32_lt _ _), and_mask (add32_lt _ _)]
  unfold add32
  split <;> split <;> omega

theorem live_nodup (ram : Nat) {bs : List Block} (hb : ∀ b ∈ bs, 24 ≤ b.size) (o : Nat) :
    ((live o bs).map fun p => ram + (p.1 + 12)).Nodup := by
  induction bs generalizing o with
  | nil => exact List.nodup_nil
  | cons b bs ih =>
    have htail := ih (fun c hc => hb c (List.mem_cons_of_mem b hc)) (o + b.size)
    have h24 := hb b List.mem_cons_self
    rw [live]
    split
    · rw [List.map_cons, List.nodup_cons]
      refine ⟨?_, htail⟩
      intro hm
      obtain ⟨⟨o', n'⟩, hp, heq⟩ := List.mem_map.mp hm
      have := live_bounds hp
      dsimp only at heq
      omega
    · exact htail

theorem Inv.unique {s : State} {bs : List Block} (hi : Inv s bs) {a b : Alloc} (ha : a ∈ s.ledger)
    (hb : b ∈ s.ledger) (hptr : b.ptr = a.ptr) : b = a := by
  have hnodup := hi.ptrs.nodup_iff.mpr (live_nodup s.heap.ram (fun c hc => (hi.blocks.sizes c hc).1) 0)
  exact List.inj_on_of_nodup_map hnodup hb ha hptr

theorem Inv.trim {s : State} {bs : List Block} (hi : Inv s bs) {a : Alloc} {newSize ptr : Nat} {h : Heap}
    (ha : a ∈ s.ledger) (hle : newSize ≤ a.contents.length)
    (hcall : memTrim s.heap a.ptr newSize = .done (h, ptr)) :
    ∃ bs', Inv ⟨h, update s.ledger a.ptr (List.take newSize)⟩ bs' := by
  obtain ⟨pre, post, n, rfl, hm, he⟩ := hi.at ha
  have hbound := live_bounds hm
  rw [hi.blocks.total_eq] at hbound
  have hsize := he.size_le
  have hfits := he.fits
  obtain ⟨hmono, hnew⟩ := alignedRequest_mono hle (by omega)
  obtain ⟨-, -, hfail⟩ | ⟨-, h', bs', m, hdone, hb, hram, hlive, hm1, hm2, hm3, hkeeps⟩ :=
    memTrim_spec hi.blocks hnew (by omega)
  · rw [← he.ptr_eq, hcall] at hfail
    cases hfail
  · rw [← he.ptr_eq, hcall] at hdone
    injection hdone with hdone
    injection hdone with hdone
    subst hdone
    have hold := live_around pre post n
    refine ⟨bs', hb, ?_, ?_⟩
    · have hp := hi.ptrs
      rw [hold] at hp
      dsimp only
      rw [update_ptrs, hlive, hram]
      simpa using hp
    · intro b hbm
      obtain ⟨c, hc, ⟨hptr, rfl⟩ | ⟨hne, rfl⟩⟩ := mem_update hbm
      · -- the allocation that shrinks
        obtain rfl := hi.unique ha hc hptr
        have hmem : (total Block.size pre, m) ∈ live 0 bs' := by
          rw [hlive]
          simp
        have hlen : (c.contents.take newSize).length = newSize := by rw [List.length_take, Nat.min_eq_left hle]
        refine ⟨total Block.size pre, m, hmem, by rw [he.ptr_eq, hram], ?_, ?_, ?_, ?_⟩
        · rw [hlen]
          exact hnew
        · rw [hlen]
          exact hm1
        · rw [hlen]
          exact hm3
        · have hptr := he.ptr_eq
          unfold Holds
          dsimp only
          rw [hlen, slice_congr fun x hx1 hx2 => hkeeps _ _ hmem x (by omega) (by omega),
            ← take_slice _ _ hle]
          exact congrArg (List.take newSize) he.holds
      · obtain ⟨o', n', hm', he'⟩ := hi.entries b hc
        have hne' : o' ≠ total Block.size pre := by
          rintro rfl
          rw [he'.ptr_eq, he.ptr_eq] at hne
          exact hne rfl
        rw [hold] at hm'
        have hm' := mem_of_ne hm' hne'
        have hm'' : (o', n') ∈ live 0 bs' := by
          rw [hlive]
          simp only [List.mem_append, List.mem_cons] at hm' ⊢
          tauto
        exact ⟨o', n', hm'', he'.keeps hkeeps hm'' hram⟩

theorem holds_set {m : Memory} {a i : Nat} {bs : List UInt8} (v : UInt8) (h : Holds m a bs) (hi : i < bs.length) :
    Holds (store m (a + i) [v]) a (bs.set i v) := by
  have hlen : (bs.take i).length = i := by rw [List.length_take, Nat.min_eq_left (by omega)]
  rw [← List.take_append_drop i bs, holds_append, List.drop_eq_getElem_cons hi, holds_cons, hlen] at h
  obtain ⟨h1, -, h2⟩ := h
  rw [List.set_eq_take_append_cons_drop, if_pos hi, holds_append, holds_cons, hlen]
  refine ⟨?_, by simp [store], ?_⟩
  · unfold Holds
    rw [slice_store_out _ (by omega)]
    exact h1
  · unfold Holds
    rw [slice_store_out _ (by simp)]
    exact h2

theorem Laid.writeData {h : Heap} {pre post : List Block} {n : Nat} {u : Bool} {m : Memory}
    (hl : Laid h (pre ++ ⟨n, u⟩ :: post))
    (hm : ∀ x, x < h.ram + (total Block.size pre + 12) ∨ h.ram + (total Block.size pre + n) ≤ x →
      m x = h.memory x) : Laid { h with memory := m } (pre ++ ⟨n, u⟩ :: post) := by
  obtain ⟨h24, -, hall⟩ := hl.bounds
  dsimp only at h24 hall
  apply hl.setMemory
  · intro s hs x hx1 hx2
    have hsize := (hl.sizes s.piece (piece_mem hs)).1
    rw [spots_append, Nat.zero_add, spots, List.mem_append, List.mem_cons] at hs
    obtain hs | rfl | hs := hs
    · have := spots_bounds hs
      exact hm x (by omega)
    · dsimp only at hx1 hx2
      exact hm x (by omega)
    · have := spots_bounds hs
      exact hm x (by dsimp only at this; omega)
  · exact hm _ (by omega)

theorem Inv.write {s : State} {bs : List Block} (hi : Inv s bs) {a : Alloc} {i : Nat} {v : UInt8}
    (ha : a ∈ s.ledger) (hlt : i < a.contents.length) :
    Inv ⟨{ s.heap with memory := store s.heap.memory (a.ptr + i) [v] },
      update s.ledger a.ptr fun bs => bs.set i v⟩ bs := by
  obtain ⟨pre, post, n, rfl, hm, he⟩ := hi.at ha
  have hptr := he.ptr_eq
  have hsize := he.size_le
  have hfits := he.fits
  have hout : ∀ x, x ≠ a.ptr + i → store s.heap.memory (a.ptr + i) [v] x = s.heap.memory x := by
    intro x hx
    exact store_out _ (by rw [List.length_singleton]; omega)
  refine ⟨⟨?_, hi.blocks.separated, hi.blocks.lfree_eq⟩, ?_, ?_⟩
  · apply hi.blocks.toLaid.writeData
    intro x hx
    exact hout x (by omega)
  · dsimp only
    rw [update_ptrs]
    exact hi.ptrs
  · intro b hbm
    dsimp only at hbm
    obtain ⟨c, hc, ⟨hp, rfl⟩ | ⟨hne, rfl⟩⟩ := mem_update hbm
    · obtain rfl := hi.unique ha hc hp
      refine ⟨_, n, hm, he.ptr_eq, ?_, ?_, ?_, ?_⟩
      · simpa using he.size_le
      · simpa using he.fits
      · simpa using he.tight
      · exact holds_set v he.holds hlt
    · obtain ⟨o', n', hm', he'⟩ := hi.entries b hc
      refine ⟨o', n', hm', he'.ptr_eq, he'.size_le, he'.fits, he'.tight, ?_⟩
      have hptr' := he'.ptr_eq
      have hfits' := he'.fits
      have hsize' := he'.size_le
      have hap := live_apart hm hm'
      unfold Holds
      dsimp only
      rw [slice_congr fun x hx1 hx2 => hout x (by omega)]
      exact he'.holds

theorem Inv.elsewhere {s : State} {bs : List Block} (hi : Inv s bs) {m : Memory}
    (hm : ∀ x, s.heap.ram ≤ x → x < s.heap.ram + 65548 → m x = s.heap.memory x) :
    Inv ⟨{ s.heap with memory := m }, s.ledger⟩ bs := by
  have htotal := hi.blocks.total_eq
  refine ⟨⟨?_, hi.blocks.separated, hi.blocks.lfree_eq⟩, hi.ptrs, ?_⟩
  · apply hi.blocks.toLaid.setMemory
    · intro p hp x hx1 hx2
      have hb := spots_bounds hp
      have h24 := (hi.blocks.sizes p.piece (piece_mem hp)).1
      exact hm x (by omega) (by omega)
    · exact hm _ (by omega) (by omega)
  · intro a ha
    obtain ⟨o, n, hmem, he⟩ := hi.entries a ha
    have hb := live_bounds hmem
    refine ⟨o, n, hmem, he.keeps ?_ hmem rfl⟩
    intro o' n' hmem' x hx1 hx2
    have hb' := live_bounds hmem'
    exact hm x (by omega) (by omega)

theorem Inv.step {s s' : State} {c : Call} {bs : List Block} (hi : Inv s bs) (hs : Step s c s') :
    ∃ bs', Inv s' bs' := by
  cases hs with
  | malloc hcall => exact hi.malloc hcall
  | freeNull hcall =>
    injection hcall with hcall
    rw [← hcall]
    exact ⟨bs, hi⟩
  | free ha hcall => exact hi.free ha hcall
  | trim ha hle hcall => exact hi.trim ha hle hcall
  | write ha hlt => exact ⟨bs, hi.write ha hlt⟩
  | elsewhere hm => exact ⟨bs, hi.elsewhere hm⟩

theorem Inv.run {s : State} {cs : List Call} (hr : Reach Start Step cs s) : ∃ bs, Inv s bs := by
  apply hr.invariant fun _ s => ∃ bs, Inv s bs
  · rintro s ⟨memory, ram, haligned, hfits, rfl⟩
    exact ⟨_, memInit_blocks haligned hfits, List.Perm.refl _, by simp⟩
  · rintro h s c s' ⟨bs, hi⟩ hs
    exact hi.step hs

/-- In every run of calls that keep to the rules, the memory that callers hold
is aligned and inside of the heap, no two callers share a byte, and everybody
reads back what they have written. -/
theorem heap_run_safe {s : State} {cs : List Call} (hr : Reach Start Step cs s) :
    (∀ a ∈ s.ledger, a.ptr % 4 = 0 ∧ s.heap.ram ≤ a.ptr ∧ a.ptr + a.contents.length ≤ s.heap.ramEnd ∧
      Holds s.heap.memory a.ptr a.contents) ∧
    s.ledger.Pairwise fun a b => a.ptr + a.contents.length ≤ b.ptr ∨ b.ptr + b.contents.length ≤ a.ptr := by
  obtain ⟨bs, hi⟩ := Inv.run hr
  have haligned := hi.blocks.aligned
  have hend := hi.blocks.ramEnd_eq
  have htotal := hi.blocks.total_eq
  constructor
  · intro a ha
    obtain ⟨pre, post, n, rfl, hm, he⟩ := hi.at ha
    have hptr := he.ptr_eq
    have hsize := he.size_le
    have hfits := he.fits
    have hbound := live_bounds hm
    have hmod := hi.blocks.toLaid.total_mod
    exact ⟨by omega, by omega, by omega, he.holds⟩
  · have hnodup := hi.ptrs.nodup_iff.mpr (live_nodup s.heap.ram (fun c hc => (hi.blocks.sizes c hc).1) 0)
    rw [List.Nodup, List.pairwise_map] at hnodup
    refine hnodup.imp_of_mem ?_
    intro a b ha hb hne
    obtain ⟨o, n, hm, he⟩ := hi.entries a ha
    obtain ⟨o', n', hm', he'⟩ := hi.entries b hb
    have hap := live_apart hm hm'
    have hptr := he.ptr_eq
    have hsize := he.size_le
    have hfits := he.fits
    have hptr' := he'.ptr_eq
    have hsize' := he'.size_le
    have hfits' := he'.fits
    omega

def exampleHeap : Heap := memInit (fun _ => 0) 4096

theorem start_exampleHeap : Start ⟨exampleHeap, []⟩ := ⟨fun _ => 0, 4096, rfl, by decide, rfl⟩

theorem exists_two_mallocs : ∃ s, Reach Start Step [.malloc 1000, .malloc 2000] s ∧
    (s.ledger.map fun a => a.ptr) = [5120, 4108] ∧ (s.ledger.map fun a => a.contents.length) = [2000, 1000] := by
  have hcall : (match memMalloc 5 exampleHeap 1000 with
      | .done (h, p) => p == 4108 && match memMalloc 5 h 2000 with
        | .done r => r.2 == 5120
        | _ => false
      | _ => false) = true := by decide +kernel
  cases hm : memMalloc 5 exampleHeap 1000 with
  | running => simp [hm] at hcall
  | assertion message => simp [hm] at hcall
  | done r =>
    obtain ⟨h, p⟩ := r
    cases hm' : memMalloc 5 h 2000 with
    | running => simp [hm, hm'] at hcall
    | assertion message => simp [hm, hm'] at hcall
    | done r =>
      obtain ⟨h', q⟩ := r
      simp only [hm, hm', Bool.and_eq_true, beq_iff_eq] at hcall
      obtain ⟨rfl, rfl⟩ := hcall
      exact ⟨_, ((Reach.init start_exampleHeap).step (.malloc hm)).step (.malloc hm'), by simp, by simp⟩

theorem heap_run_safe_two : ∃ s, Reach Start Step [.malloc 1000, .malloc 2000] s ∧ s.ledger.length = 2 ∧
    s.ledger.Pairwise fun a b => a.ptr + a.contents.length ≤ b.ptr ∨ b.ptr + b.contents.length ≤ a.ptr := by
  obtain ⟨s, hr, hptrs, -⟩ := exists_two_mallocs
  exact ⟨s, hr, by simpa using congrArg List.length hptrs, (heap_run_safe hr).2⟩

end FlashApp.LwipMem
