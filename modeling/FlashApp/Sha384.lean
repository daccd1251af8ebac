import FlashApp.Bytes
import FlashApp.Loops

namespace FlashApp.Sha384

open Bytes While

inductive DinWrite where
  | uc (ucData : UInt8)
  | ul (ulData : Nat)
  deriving DecidableEq

/-- A DWORD counts as its four bytes in memory order. -/
def DinWrite.bytes : DinWrite → List UInt8
  | .uc b => [b]
  | .ul n => toLe32 n

def dinBytes (ws : List DinWrite) : List UInt8 := ws.flatMap DinWrite.bytes

/-- The pointer `tPtr` and the register writes so far. -/
structure Update where
  ul : Nat
  din : List DinWrite

def updateUc (m : Memory) (s : Update) : Update :=
  ⟨add32 s.ul 1, s.din ++ [.uc (m s.ul)]⟩

def updateUl (m : Memory) (s : Update) : Update :=
  ⟨add32 s.ul 4, s.din ++ [.ul (word m s.ul)]⟩

/-- The three loops of `sha384_update`. The first one looks at the alignment
of the pointer only, the other two compare it with the end of the chunk. No
loop visits an address twice, so as many rounds as addresses are enough. -/
def sha384Update (m : Memory) (pvData sizChunk : Nat) : Option (List DinWrite) := do
  let ulEnd := add32 pvData sizChunk
  let s ← whileDo (fun s => s.ul &&& 3 != 0) (updateUc m) (2 ^ 32) ⟨pvData, []⟩
  let s ← whileDo (fun s => add32 s.ul 4 ≤ ulEnd) (updateUl m) (2 ^ 32) s
  let s ← whileDo (fun s => s.ul < ulEnd) (updateUc m) (2 ^ 32) s
  return s.din

def reverse32 (ulValue : Nat) : Nat :=
  ((ulValue &&& 0x000000ff) <<< 24) ||| ((ulValue &&& 0x0000ff00) <<< 8) |||
    ((ulValue &&& 0x00ff0000) >>> 8) ||| ((ulValue &&& 0xff000000) >>> 24)

def sha384FinalizeByte (ulDataSizeByte : Nat) : List DinWrite :=
  let ulPadByte := ulDataSizeByte &&& 0x7f
  let ulPadByte := if ulPadByte < 112 then 119 - ulPadByte else 247 - ulPadByte
  let ullBits := ulDataSizeByte * 8
  .uc 0x80 :: List.replicate ulPadByte (.uc 0x00) ++
    [.ul (reverse32 ((ullBits >>> 32) &&& 0xffffffff)), .ul (reverse32 (ullBits &&& 0xffffffff))]

/-- The SHA unit: the digest it holds after the bytes written since its reset. -/
structure ShaUnit where
  digest : List UInt8 → List UInt8
  length_digest : ∀ din, (digest din).length = 48

/-- The distance of an address to the next multiple of four. -/
def gap (a : Nat) : Nat := (4 - a % 4) % 4

theorem gap_lt (a : Nat) : gap a < 4 := Nat.mod_lt _ (by decide)

theorem gap_add {a k : Nat} (hk : k ≤ gap a) : gap (a + k) = gap a - k := by
  simp only [gap] at hk ⊢
  omega

theorem gap_eq_zero_iff {a : Nat} : gap a = 0 ↔ a % 4 = 0 := by
  simp only [gap]
  omega

def Written (m : Memory) (a k : Nat) (s : Update) : Prop :=
  s.ul = a + k ∧ dinBytes s.din = slice m a k

theorem written_uc {m : Memory} {a k : Nat} {s : Update} (h : Written m a k s)
    (hk : a + k + 1 < 2 ^ 32) : Written m a (k + 1) (updateUc m s) := by
  obtain ⟨hu, hd⟩ := h
  refine ⟨by rw [updateUc, hu, add32_of_lt (by omega)]; rfl, ?_⟩
  rw [slice_add, ← hd]
  simp [updateUc, dinBytes, DinWrite.bytes, slice, hu]

theorem written_ul {m : Memory} {a k : Nat} {s : Update} (h : Written m a k s)
    (hk : a + k + 4 < 2 ^ 32) : Written m a (k + 4) (updateUl m s) := by
  obtain ⟨hu, hd⟩ := h
  refine ⟨by rw [updateUl, hu, add32_of_lt (by omega)]; rfl, ?_⟩
  rw [slice_add, ← hd, ← toLe32_word m (by omega), ← hu]
  simp [updateUl, dinBytes, DinWrite.bytes]

theorem and_three (a : Nat) : a &&& 3 = a % 4 := Nat.and_two_pow_sub_one_eq_mod a 2

theorem align_loop (m : Memory) {a : Nat} (ha : a + 4 < 2 ^ 32) :
    ∃ s, whileDo (fun s => s.ul &&& 3 != 0) (updateUc m) (2 ^ 32) ⟨a, []⟩ = some s ∧
      Written m a (gap a) s := by
  obtain ⟨s, hs, ⟨k, hk, hw⟩, hc⟩ := whileDo_total (c := fun s : Update => s.ul &&& 3 != 0)
    (b := updateUc m) (fun s => ∃ k, k ≤ gap a ∧ Written m a k s) (fun s => gap s.ul)
    (by
      rintro s ⟨k, hk, hw⟩ hc
      have hg := gap_lt a
      simp only [and_three, bne_iff_ne, ne_eq, ← gap_eq_zero_iff, hw.1, gap_add hk] at hc
      have hlt : k < gap a := by omega
      have hw' := written_uc hw (by omega)
      refine ⟨⟨k + 1, hlt, hw'⟩, ?_⟩
      rw [hw'.1, hw.1, gap_add hk, gap_add hlt]
      omega)
    (n := 2 ^ 32) (s := ⟨a, []⟩) ⟨0, Nat.zero_le _, by simp [Written, dinBytes, slice]⟩
    ((gap_lt a).trans (by decide))
  refine ⟨s, hs, ?_⟩
  simp only [and_three, bne_eq_false_iff_eq, ← gap_eq_zero_iff, hw.1, gap_add hk] at hc
  have he : k = gap a := by omega
  rwa [← he]

theorem dword_loop {m : Memory} {a len : Nat} (ha : a + max len (gap a) + 4 < 2 ^ 32)
    {s : Update} (hs : Written m a (gap a) s) :
    ∃ t k, whileDo (fun s => decide (add32 s.ul 4 ≤ a + len)) (updateUl m) (2 ^ 32) s = some t ∧
      gap a ≤ k ∧ k ≤ max len (gap a) ∧ Written m a k t := by
  obtain ⟨t, ht, ⟨k, hgk, hk, hw⟩, -⟩ := whileDo_total
    (c := fun s : Update => decide (add32 s.ul 4 ≤ a + len)) (b := updateUl m)
    (fun s => ∃ k, gap a ≤ k ∧ k ≤ max len (gap a) ∧ Written m a k s)
    (fun s => a + len - s.ul)
    (by
      rintro s ⟨k, hgk, hk, hw⟩ hc
      have hu := hw.1
      rw [hu, decide_eq_true_eq, add32_of_lt (by omega)] at hc
      have hw' := written_ul hw (by omega)
      refine ⟨⟨k + 4, by omega, by omega, hw'⟩, ?_⟩
      rw [hw'.1, hu]
      omega)
    (n := 2 ^ 32) (s := s) ⟨gap a, le_rfl, le_max_right _ _, hs⟩ (by omega)
  exact ⟨t, k, ht, hgk, hk, hw⟩

theorem byte_loop {m : Memory} {a len k : Nat} (ha : a + max len (gap a) + 4 < 2 ^ 32)
    (hgk : gap a ≤ k) (hk : k ≤ max len (gap a)) {s : Update} (hs : Written m a k s) :
    ∃ t, whileDo (fun s => decide (s.ul < a + len)) (updateUc m) (2 ^ 32) s = some t ∧
      Written m a (max len (gap a)) t := by
  obtain ⟨t, ht, ⟨j, hgj, hj, hw⟩, hc⟩ := whileDo_total
    (c := fun s : Update => decide (s.ul < a + len)) (b := updateUc m)
    (fun s => ∃ j, gap a ≤ j ∧ j ≤ max len (gap a) ∧ Written m a j s)
    (fun s => a + len - s.ul)
    (by
      rintro s ⟨j, hgj, hj, hw⟩ hc
      have hu := hw.1
      rw [hu, decide_eq_true_eq] at hc
      have hw' := written_uc hw (by omega)
      refine ⟨⟨j + 1, by omega, by omega, hw'⟩, ?_⟩
      rw [hw'.1, hu]
      omega)
    (n := 2 ^ 32) (s := s) ⟨k, hgk, hk, hs⟩ (by omega)
  refine ⟨t, ht, ?_⟩
  rw [hw.1, decide_eq_false_iff_not] at hc
  have he : j = max len (gap a) := by omega
  rwa [← he]

/-- What `sha384_update` writes: the chunk, and at least the bytes up to the
next aligned address even if the chunk is shorter. -/
theorem sha384Update_writes (m : Memory) {a len : Nat} (ha : a + max len (gap a) + 4 < 2 ^ 32) :
    ∃ ws, sha384Update m a len = some ws ∧ dinBytes ws = slice m a (max len (gap a)) := by
  obtain ⟨s, hs, hw⟩ := align_loop m (a := a) (by omega)
  obtain ⟨t, k, ht, hgk, hk, hw'⟩ := dword_loop ha hw
  obtain ⟨u, hu, hw''⟩ := byte_loop ha hgk hk hw'
  have he : add32 a len = a + len := add32_of_lt (by omega)
  refine ⟨u.din, ?_, hw''.2⟩
  simp only [sha384Update, he, hs, ht, hu, Option.bind_eq_bind, Option.bind_some, Option.pure_def]

theorem dinBytes_append (xs ys : List DinWrite) :
    dinBytes (xs ++ ys) = dinBytes xs ++ dinBytes ys := by
  simp [dinBytes]

/-- The first loop writes the bytes up to the next aligned address, and the
others only add to them. This also holds at the end of the address space,
where the pointer of the second loop wraps around. -/
theorem sha384Update_gap {m : Memory} {a len : Nat} (ha : a + 4 < 2 ^ 32) {ws : List DinWrite}
    (h : sha384Update m a len = some ws) : gap a ≤ (dinBytes ws).length := by
  obtain ⟨s, hs, hw⟩ := align_loop m ha
  simp only [sha384Update, hs, Option.bind_eq_bind, Option.bind_some, Option.bind_eq_some_iff,
    Option.pure_def, Option.some.injEq] at h
  obtain ⟨t, ht, u, hu, rfl⟩ := h
  have hlen : gap a ≤ (dinBytes s.din).length := by rw [hw.2, length_slice]
  have hgrow : ∀ (s : Update) (w : DinWrite), gap a ≤ (dinBytes s.din).length →
      gap a ≤ (dinBytes (s.din ++ [w])).length := by
    intro s w h
    rw [dinBytes_append, List.length_append]
    omega
  have ht' := whileDo_partial (fun s : Update => gap a ≤ (dinBytes s.din).length)
    (fun s h _ => hgrow s _ h) hlen ht
  exact whileDo_partial (fun s : Update => gap a ≤ (dinBytes s.din).length)
    (fun s h _ => hgrow s _ h) ht' hu

/-- A part of a download at its place in memory. -/
structure Chunk where
  mem : Memory
  addr : Nat
  len : Nat
  fits : addr + len + 4 < 2 ^ 32

def Chunk.bytes (c : Chunk) : List UInt8 := slice c.mem c.addr c.len

def body (cs : List Chunk) : List UInt8 := cs.flatMap Chunk.bytes

def fed : List Chunk → Option (List UInt8)
  | [] => some []
  | c :: cs => do
    let ws ← sha384Update c.mem c.addr c.len
    let rest ← fed cs
    return dinBytes ws ++ rest

theorem body_cons (c : Chunk) (cs : List Chunk) : body (c :: cs) = c.bytes ++ body cs := rfl

theorem update_of_gap_le (c : Chunk) (h : gap c.addr ≤ c.len) :
    ∃ ws, sha384Update c.mem c.addr c.len = some ws ∧ dinBytes ws = c.bytes := by
  have hm : max c.len (gap c.addr) = c.len := max_eq_left h
  have hf : c.addr + max c.len (gap c.addr) + 4 < 2 ^ 32 := by rw [hm]; exact c.fits
  have hw := sha384Update_writes c.mem hf
  rwa [hm] at hw

theorem len_le_update (c : Chunk) {ws : List DinWrite}
    (h : sha384Update c.mem c.addr c.len = some ws) : c.len ≤ (dinBytes ws).length := by
  rcases Nat.le_total (gap c.addr) c.len with hg | hg
  · obtain ⟨vs, hvs, hb⟩ := update_of_gap_le c hg
    obtain rfl : vs = ws := Option.some.inj (hvs.symm.trans h)
    simp [hb, Chunk.bytes]
  · exact hg.trans (sha384Update_gap (by have := c.fits; omega) h)

theorem length_body_le_fed {cs : List Chunk} {bs : List UInt8} (h : fed cs = some bs) :
    (body cs).length ≤ bs.length := by
  induction cs generalizing bs with
  | nil => simp [body]
  | cons c cs ih =>
    simp only [fed, Option.bind_eq_bind, Option.bind_eq_some_iff, Option.pure_def,
      Option.some.injEq] at h
    obtain ⟨ws, hws, rest, hrest, rfl⟩ := h
    have hc := len_le_update c hws
    have hcs := ih hrest
    simp only [body_cons, List.length_append, Chunk.bytes, length_slice]
    omega

theorem fed_cons_eq_body {c : Chunk} {cs : List Chunk} (h : fed (c :: cs) = some (body (c :: cs))) :
    gap c.addr ≤ c.len ∧ fed cs = some (body cs) := by
  simp only [fed, Option.bind_eq_bind, Option.bind_eq_some_iff, Option.pure_def,
    Option.some.injEq] at h
  obtain ⟨ws, hws, rest, hrest, he⟩ := h
  rw [body_cons] at he
  have hlen := congrArg List.length he
  have hc := len_le_update c hws
  have hcs := length_body_le_fed hrest
  simp only [List.length_append, Chunk.bytes, length_slice] at hlen
  have hg := sha384Update_gap (by have := c.fits; omega) hws
  refine ⟨by omega, ?_⟩
  rw [hrest, (List.append_inj he (by rw [Chunk.bytes, length_slice]; omega)).2]

/-- The SHA unit gets the body and nothing else exactly if no chunk ends
before the next aligned address. -/
theorem fed_eq_body_iff (cs : List Chunk) :
    fed cs = some (body cs) ↔ ∀ c ∈ cs, gap c.addr ≤ c.len := by
  induction cs with
  | nil => simp [fed, body]
  | cons c cs ih =>
    rw [List.forall_mem_cons, ← ih]
    constructor
    · exact fed_cons_eq_body
    · rintro ⟨hc, hcs⟩
      obtain ⟨ws, hws, hb⟩ := update_of_gap_le c hc
      simp [fed, hws, hcs, hb, body_cons]

/-- A single byte right behind an aligned address: the next two are hashed too. -/
theorem fed_ne_body_of_short_chunk : ¬ ∀ cs : List Chunk, fed cs = some (body cs) := by
  intro h
  have hg := fed_cons_eq_body (h [⟨fun a => UInt8.ofNat a, 0x04080001, 1, by decide⟩])
  exact absurd hg.1 (by decide)

end FlashApp.Sha384
