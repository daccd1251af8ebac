import FlashApp.LwipMemRuns
import Mathlib.Algebra.Order.BigOperators.Group.List

namespace FlashApp.LwipMem

open Bytes Tiling Machine

/-- Free blocks only lie between allocated ones, so there is at most one more
of them. -/
theorem total_le_of_small {bs : List Block} {k : Nat} (o : Nat) (hsep : Separated bs)
    (hsmall : ∀ b ∈ bs, b.used = false → b.size ≤ k) :
    total Block.size bs ≤ ((live o bs).map Prod.snd).sum + ((live o bs).length + 1) * k ∧
      ((∀ b ∈ bs.head?, b.used = true) →
        total Block.size bs ≤ ((live o bs).map Prod.snd).sum + (live o bs).length * k) := by
  induction bs generalizing o with
  | nil => simp [live]
  | cons b bs ih =>
    obtain ⟨n, u⟩ := b
    have hsmall' : ∀ b ∈ bs, b.used = false → b.size ≤ k := fun c hc => hsmall c (List.mem_cons_of_mem _ hc)
    cases u with
    | true =>
      obtain ⟨-, htail⟩ := separated_used.mp (List.nil_append (_ :: bs) ▸ hsep)
      obtain ⟨hrest, -⟩ := ih (o + n) htail hsmall'
      rw [live_used, List.map_cons, List.sum_cons, List.length_cons, total_cons]
      dsimp only
      have hmul : ((live (o + n) bs).length + 1 + 1) * k = ((live (o + n) bs).length + 1) * k + k :=
        Nat.succ_mul _ k
      exact ⟨by omega, fun _ => by omega⟩
    | false =>
      obtain ⟨-, htail, -, hhead⟩ := separated_free.mp (List.nil_append (_ :: bs) ▸ hsep)
      obtain ⟨-, hrest⟩ := ih (o + n) htail hsmall'
      have hn := hsmall ⟨n, false⟩ List.mem_cons_self rfl
      have hr := hrest hhead
      rw [live_free, total_cons]
      dsimp only at hn ⊢
      refine ⟨?_, fun h => absurd (h ⟨n, false⟩ rfl) Bool.false_ne_true⟩
      rw [Nat.succ_mul]
      omega

theorem sum_of_keys {α : Type} {f : α → Nat} {g : Nat × Nat → Nat} {w : α → Nat} {xs : List α}
    {ls : List (Nat × Nat)} (hp : (xs.map f).Perm (ls.map g)) (hnodup : (ls.map g).Nodup)
    (hw : ∀ x ∈ xs, ∃ p ∈ ls, f x = g p ∧ p.2 ≤ w x) : (ls.map Prod.snd).sum ≤ (xs.map w).sum := by
  have hkey : ∀ p ∈ ls, ((ls.find? fun q => g q == g p).map Prod.snd).getD 0 = p.2 := by
    intro p hpm
    cases hfind : ls.find? fun q => g q == g p with
    | none =>
      have := List.find?_eq_none.mp hfind p hpm
      simp at this
    | some q =>
      have hq := List.find?_some hfind
      rw [beq_iff_eq] at hq
      rw [List.inj_on_of_nodup_map hnodup (List.mem_of_find?_eq_some hfind) hpm hq]
      rfl
  have hleft : (ls.map Prod.snd).sum =
      ((ls.map g).map fun x => ((ls.find? fun q => g q == x).map Prod.snd).getD 0).sum := by
    rw [List.map_map]
    congr 1
    apply List.map_congr_left
    intro p hpm
    exact (hkey p hpm).symm
  rw [hleft, ← (hp.map _).sum_eq, List.map_map]
  apply List.sum_le_sum
  intro x hx
  obtain ⟨p, hpm, heq, hle⟩ := hw x hx
  rw [Function.comp_apply, heq, hkey p hpm]
  exact hle

theorem Laid.length_le {h : Heap} {bs : List Block} (hl : Laid h bs) : bs.length ≤ 2730 := by
  have hmul : bs.length * 24 ≤ total Block.size bs := by
    have := List.card_nsmul_le_sum (bs.map Block.size) 24 (by
      intro n hn
      obtain ⟨b, hb, rfl⟩ := List.mem_map.mp hn
      exact (hl.sizes b hb).1)
    simpa [total] using this
  rw [hl.total_eq] at hmul
  omega

theorem Inv.malloc_room {s : State} {bs : List Block} (hi : Inv s bs) {size fuel : Nat} (hpos : 0 < size)
    (hroom : (s.ledger.map fun a => a.contents.length + 44).sum + (s.ledger.length + 1) * (size + 24) ≤ 65536)
    (hf : 2733 ≤ fuel) : ∃ h ptr, memMalloc fuel s.heap size = .done (h, ptr) ∧ ptr ≠ 0 := by
  have hlen := hi.blocks.length_le
  have hlt : size + 24 ≤ 65536 := by
    have := Nat.le_mul_of_pos_left (size + 24) (by omega : 0 < s.ledger.length + 1)
    omega
  obtain ⟨-, hreq⟩ := alignedRequest_mono (Nat.le_refl size) (by omega)
  obtain ⟨-, hbound⟩ := alignedRequest_bounds (by omega) (by omega : ¬ alignedRequest size < size)
  obtain ⟨-, hzero | hbig | hwrap | hnone⟩ | ⟨h', _, o, _, _, _, hdone, -⟩ :=
    memMalloc_spec size hi.blocks (by omega : bs.length + 2 < fuel)
  · omega
  · omega
  · omega
  · exfalso
    have hsmall : ∀ b ∈ bs, b.used = false → b.size ≤ size + 23 := by
      intro b hb hfree
      have := hnone b hb hfree
      omega
    have htotal := (total_le_of_small 0 hi.blocks.separated hsmall).1
    rw [hi.blocks.total_eq] at htotal
    have hcount : s.ledger.length = (live 0 bs).length := by simpa using hi.ptrs.length_eq
    have hsum : ((live 0 bs).map Prod.snd).sum ≤ (s.ledger.map fun a => a.contents.length + 44).sum := by
      apply sum_of_keys hi.ptrs (live_nodup s.heap.ram (fun c hc => (hi.blocks.sizes c hc).1) 0)
      intro a ha
      obtain ⟨o, n, hm, he⟩ := hi.entries a ha
      have hsize := he.size_le
      have htight := he.tight
      have hmod := alignedRequest_mod a.contents.length
      have hbd := live_bounds hm
      have hfit := he.fits
      rw [hi.blocks.total_eq] at hbd
      obtain ⟨-, hmax⟩ := alignedRequest_bounds (by omega) (by omega : ¬ alignedRequest a.contents.length < _)
      refine ⟨(o, n), hm, he.ptr_eq, ?_⟩
      have hn4 : n % 4 = 0 := by
        obtain ⟨pre, post, rfl, -⟩ := exists_append_of_live hm
        exact hi.blocks.bounds.2.1
      dsimp only
      omega
    rw [← hcount] at htotal
    have hmul : (s.ledger.length + 1) * (size + 24) = (s.ledger.length + 1) * (size + 23) + (s.ledger.length + 1) :=
      Nat.mul_succ _ _
    omega
  · exact ⟨h', _, hdone, by omega⟩

/-- In every run a request is served when it fits into an equal share of what
the allocations leave, with at most 44 bytes lost for each of them. Nothing
that has been freed is lost. -/
theorem malloc_served {s : State} {cs : List Call} {size : UInt32} {fuel : Nat} (hr : Reach Start Step cs s)
    (hpos : 0 < size.toNat)
    (hroom : (s.ledger.map fun a => a.contents.length + 44).sum +
      (s.ledger.length + 1) * (size.toNat + 24) ≤ 65536) (hf : 2733 ≤ fuel) :
    ∃ h ptr, memMalloc fuel s.heap size.toNat = .done (h, ptr) ∧ ptr ≠ 0 := by
  obtain ⟨bs, hi⟩ := Inv.run hr
  exact hi.malloc_room hpos hroom hf

theorem malloc_served_third : ∃ s, Reach Start Step [.malloc 1000, .malloc 2000] s ∧
    ∃ h ptr, memMalloc 2733 s.heap (3000 : UInt32).toNat = .done (h, ptr) ∧ ptr ≠ 0 := by
  obtain ⟨s, hr, -, hlen⟩ := exists_two_mallocs
  have hcount : s.ledger.length = 2 := by simpa using congrArg List.length hlen
  have hsum : (s.ledger.map fun a => a.contents.length + 44).sum = 3088 := by
    have hmap : s.ledger.map (fun a => a.contents.length + 44) =
        (s.ledger.map fun a => a.contents.length).map fun n => n + 44 := by
      rw [List.map_map]
      rfl
    rw [hmap, hlen]
    rfl
  exact ⟨s, hr, malloc_served hr (by decide) (by rw [hcount, hsum]; decide) (Nat.le_refl _)⟩

/-- In every run each call ends. The only assertion that can fail is one of
`mem_trim`: it fails when a header for the rest of the last block of the heap
would be needed. -/
theorem heap_calls_end {s : State} {cs : List Call} (hr : Reach Start Step cs s) :
    (∀ size : UInt32, ∃ h ptr, ∀ fuel, 2733 ≤ fuel → memMalloc fuel s.heap size.toNat = .done (h, ptr)) ∧
    (∀ a ∈ s.ledger, ∃ h, memFree s.heap a.ptr = .done h) ∧
    ∀ a ∈ s.ledger, ∀ newSize ≤ a.contents.length,
      (s.heap.next (a.ptr - 12) = 65536 ∧
          a.ptr + alignedRequest newSize + 24 ≤ s.heap.ramEnd →
        memTrim s.heap a.ptr newSize = .assertion "invalid next ptr") ∧
      (¬ (s.heap.next (a.ptr - 12) = 65536 ∧
          a.ptr + alignedRequest newSize + 24 ≤ s.heap.ramEnd) →
        ∃ h, memTrim s.heap a.ptr newSize = .done (h, a.ptr)) := by
  obtain ⟨bs, hi⟩ := Inv.run hr
  have hlen := hi.blocks.length_le
  refine ⟨?_, ?_, ?_⟩
  · intro size
    obtain ⟨hdone, -⟩ | ⟨h', _, o, _, _, _, hdone, -⟩ :=
      memMalloc_spec size.toNat hi.blocks (by omega : bs.length + 2 < 2733)
    · exact ⟨s.heap, 0, fun fuel hf => memMalloc_mono hdone hf⟩
    · exact ⟨h', _, fun fuel hf => memMalloc_mono hdone hf⟩
  · intro a ha
    obtain ⟨pre, post, n, rfl, -, he⟩ := hi.at ha
    obtain ⟨h', -, hdone, -⟩ := memFree_spec hi.blocks
    rw [he.ptr_eq]
    exact ⟨h', hdone⟩
  · intro a ha newSize hle
    obtain ⟨pre, post, n, rfl, hm, he⟩ := hi.at ha
    have hbound := live_bounds hm
    rw [hi.blocks.total_eq] at hbound
    have hend := hi.blocks.ramEnd_eq
    have hnext := hi.blocks.toLaid.header.1
    obtain ⟨-, -, hall⟩ := hi.blocks.bounds
    have hsize := he.size_le
    have hfits := he.fits
    have hptr := he.ptr_eq
    have hhead : a.ptr - 12 = s.heap.ram + total Block.size pre := by omega
    obtain ⟨hmono, hnew⟩ := alignedRequest_mono hle (by omega)
    have hlast : post = [] ↔ total Block.size pre + n = 65536 := by
      dsimp only at hall
      cases post with
      | nil => simpa using hall
      | cons c post =>
        have hc := (hi.blocks.sizes c (by simp)).1
        rw [total_cons] at hall
        simp only [reduceCtorEq, false_iff]
        omega
    dsimp only at hnext
    rw [hhead, hnext, ← hlast]
    obtain ⟨hnil, hcut, hfail⟩ | ⟨hnot, h', _, _, hdone, -⟩ := memTrim_spec hi.blocks hnew (by omega)
    · rw [← hptr] at hfail
      refine ⟨fun _ => hfail, fun hno => absurd ⟨hnil, ?_⟩ hno⟩
      have := hlast.mp hnil
      omega
    · rw [← hptr] at hdone
      refine ⟨fun hyes => absurd ⟨hyes.1, ?_⟩ hnot, fun _ => ⟨h', hdone⟩⟩
      have := hlast.mp hyes.1
      omega

theorem heap_calls_end_whole : ∃ s a, Reach Start Step [.malloc 65524] s ∧ a ∈ s.ledger ∧
    memTrim s.heap a.ptr 100 = .assertion "invalid next ptr" := by
  have hcall : (match memMalloc 5 exampleHeap 65524 with
      | .done (h, ptr) => h.next (ptr - 12) == 65536 && ptr == 4108 && h.ramEnd == 69632
      | _ => false) = true := by decide +kernel
  cases hm : memMalloc 5 exampleHeap 65524 with
  | running => simp [hm] at hcall
  | assertion message => simp [hm] at hcall
  | done r =>
    obtain ⟨h, ptr⟩ := r
    simp only [hm, Bool.and_eq_true, beq_iff_eq] at hcall
    obtain ⟨⟨hnext, hptr⟩, hend⟩ := hcall
    have hr : Reach Start Step ([] ++ [.malloc 65524]) ⟨h, _⟩ := (Reach.init start_exampleHeap).step (.malloc hm)
    rw [if_neg (by omega)] at hr
    have hlen : 100 ≤ (slice h.memory ptr (65524 : UInt32).toNat).length := by
      rw [length_slice]
      decide
    have hspec := (heap_calls_end hr).2.2 _ List.mem_cons_self 100 hlen
    have hreq : alignedRequest 100 = 100 := by decide
    exact ⟨_, _, hr, List.mem_cons_self, hspec.1 ⟨hnext, by rw [hreq]; dsimp only; omega⟩⟩

end FlashApp.LwipMem
