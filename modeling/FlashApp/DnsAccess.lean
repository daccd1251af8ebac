import FlashApp.DnsNames

namespace FlashApp.Dns

open Bytes Eth Fuel Access

/-- `unpack_entry_recursive` with the bytes that it reads. -/
def readEntryRecursive (m : Memory) (pucPacketStart pucQueryEnd : Nat) :
    Nat → Nat → List UInt8 → Reading (Option (Option Nat × List UInt8))
  | 0, _, _ => pure none
  | n + 1, pucQuery, aucBuffer => do
    let ucLength ← readByte m pucQuery
    let pucQuery := add32 pucQuery 1
    if ucLength = 0 then return some (insidePacket pucQueryEnd pucQuery, aucBuffer)
    else if ucLength < 0x40 then
      let aucLabel ← readBytes m pucQuery ucLength.toNat
      let aucBuffer := aucBuffer ++ aucLabel ++ [0x2e]
      let pucQuery := add32 pucQuery ucLength.toNat
      if pucQuery ≠ 0 ∧ pucQuery < pucQueryEnd then
        readEntryRecursive m pucPacketStart pucQueryEnd n pucQuery aucBuffer
      else return some (insidePacket pucQueryEnd pucQuery, aucBuffer)
    else if ucLength < 0xc0 then return some (none, aucBuffer)
    else
      let ucOffset ← readByte m pucQuery
      let pucPtrEntry := add32 pucPacketStart ucOffset.toNat
      let pucQuery := add32 pucQuery 1
      let r ← readEntryRecursive m pucPacketStart pucQueryEnd n pucPtrEntry aucBuffer
      return r.map fun q =>
        match q.1 with
        | none => (none, q.2)
        | some _ => (insidePacket pucQueryEnd pucQuery, q.2)

/-- The function returns, reads nothing outside the packet, and writes no more
than the 64 bytes of its buffer. -/
def StaysInside (m : Memory) (start stop p : Nat) : Prop :=
  (∃ r text, Returns (fun n => unpackEntryRecursive m start stop n p []) (r, text) ∧ text.length ≤ 64) ∧
    ∀ n, ∀ a ∈ (readEntryRecursive m start stop n p []).addresses, start ≤ a ∧ a < stop

/-- Everything that the entry at `p` is made of is in the packet, and it ends:
there is no derivation if a pointer leads back to itself. The labels fit in the
buffer behind the `used` bytes that are already there. -/
inductive EntryInside (m : Memory) (start stop : Nat) : Nat → Nat → Prop
  | root {used p : Nat} (hlo : start ≤ p) (hhi : p < stop) (hp : m p = 0) : EntryInside m start stop used p
  | invalid {used p : Nat} (hlo : start ≤ p) (hhi : p < stop) (hge : 0x40 ≤ m p) (hlt : m p < 0xc0) :
      EntryInside m start stop used p
  | last {used p : Nat} (hlo : start ≤ p) (hpos : m p ≠ 0) (hlt : m p < 0x40)
      (hend : p + 1 + (m p).toNat = stop) (hroom : used + (m p).toNat + 1 ≤ 64) : EntryInside m start stop used p
  | label {used p : Nat} (hlo : start ≤ p) (hpos : m p ≠ 0) (hlt : m p < 0x40)
      (hend : p + 1 + (m p).toNat < stop) (hroom : used + (m p).toNat + 1 ≤ 64)
      (h : EntryInside m start stop (used + (m p).toNat + 1) (p + 1 + (m p).toNat)) :
      EntryInside m start stop used p
  | pointer {used p : Nat} (hlo : start ≤ p) (hhi : p + 1 < stop) (hge : 0xc0 ≤ m p)
      (h : EntryInside m start stop used (start + (m (p + 1)).toNat)) : EntryInside m start stop used p

variable {m : Memory} {start stop n p used : Nat} {aucBuffer text : List UInt8} {r : Option Nat}

theorem val_readEntryRecursive (m : Memory) (start stop n p : Nat) (aucBuffer : List UInt8) :
    (readEntryRecursive m start stop n p aucBuffer).val = unpackEntryRecursive m start stop n p aucBuffer := by
  induction n generalizing p aucBuffer with
  | zero => rfl
  | succ n ih =>
    rw [readEntryRecursive, val_bind, val_readByte]
    simp only [unpackEntryRecursive]
    by_cases hz : m p = 0
    · rw [if_pos hz, if_pos hz]
      rfl
    by_cases hl : m p < 0x40
    · rw [if_neg hz, if_neg hz, if_pos hl, if_pos hl, val_bind, val_readBytes]
      by_cases hnext : add32 (add32 p 1) (m p).toNat ≠ 0 ∧ add32 (add32 p 1) (m p).toNat < stop
      · rw [if_pos hnext, if_pos hnext]
        exact ih _ _
      · rw [if_neg hnext, if_neg hnext]
        rfl
    by_cases hi : m p < 0xc0
    · rw [if_neg hz, if_neg hz, if_neg hl, if_neg hl, if_pos hi, if_pos hi]
      rfl
    · rw [if_neg hz, if_neg hz, if_neg hl, if_neg hl, if_neg hi, if_neg hi, val_bind, val_readByte, val_bind, ih]
      rfl

theorem addresses_root (hp : m p = 0) :
    (readEntryRecursive m start stop (n + 1) p aucBuffer).addresses = [p] := by
  rw [readEntryRecursive, addresses_bind, addresses_readByte, val_readByte, if_pos hp]
  rfl

theorem addresses_invalid (hge : 0x40 ≤ m p) (hlt : m p < 0xc0) :
    (readEntryRecursive m start stop (n + 1) p aucBuffer).addresses = [p] := by
  rw [readEntryRecursive, addresses_bind, addresses_readByte, val_readByte, if_neg (ne_zero_of_ge hge),
    if_neg (UInt8.not_lt.mpr hge), if_pos hlt]
  rfl

theorem addresses_label (hpos : m p ≠ 0) (hlt : m p < 0x40) (hp : p + 64 < 2 ^ 32) :
    (readEntryRecursive m start stop (n + 1) p aucBuffer).addresses =
      p :: (List.range' (p + 1) (m p).toNat ++
        if p + 1 + (m p).toNat < stop then
          (readEntryRecursive m start stop n (p + 1 + (m p).toNat)
            (aucBuffer ++ (slice m (p + 1) (m p).toNat ++ [0x2e]))).addresses
        else []) := by
  have hlen : (m p).toNat < 64 := UInt8.lt_iff_toNat_lt.mp hlt
  have hone : add32 p 1 = p + 1 := add32_of_lt (by omega)
  have hnext : add32 (p + 1) (m p).toNat = p + 1 + (m p).toNat := add32_of_lt (by omega)
  rw [readEntryRecursive, addresses_bind, addresses_readByte, val_readByte, if_neg hpos, if_pos hlt,
    addresses_bind, addresses_readBytes, val_readBytes]
  simp only [hone, hnext, List.append_assoc]
  by_cases h : p + 1 + (m p).toNat < stop
  · rw [if_pos h, if_pos ⟨by omega, h⟩]
    rfl
  · rw [if_neg h, if_neg (fun hc => h hc.2)]
    rfl

theorem addresses_pointer (hge : 0xc0 ≤ m p) (hp : p + 2 < 2 ^ 32) (hstart : start + 255 < 2 ^ 32) :
    (readEntryRecursive m start stop (n + 1) p aucBuffer).addresses =
      p :: (p + 1) :: (readEntryRecursive m start stop n (start + (m (p + 1)).toNat) aucBuffer).addresses := by
  have hz : m p ≠ 0 := ne_zero_of_ge (ge_of_pointer hge)
  have hlt : ¬ m p < 0x40 := UInt8.not_lt.mpr (ge_of_pointer hge)
  have hone : add32 p 1 = p + 1 := add32_of_lt (by omega)
  have htarget : add32 start (m (p + 1)).toNat = start + (m (p + 1)).toNat := by
    have h := (m (p + 1)).toNat_lt
    exact add32_of_lt (by omega)
  rw [readEntryRecursive, addresses_bind, addresses_readByte, val_readByte, if_neg hz, if_neg hlt,
    if_neg (UInt8.not_lt.mpr hge), addresses_bind, addresses_bind]
  simp only [addresses_readByte, val_readByte, hone, htarget, addresses_pure, List.append_nil]
  rfl

/-- Without fuel nothing is read. -/
theorem forall_addresses {P : Nat → Prop}
    (h : ∀ n, ∀ a ∈ (readEntryRecursive m start stop (n + 1) p aucBuffer).addresses, P a) (n : Nat) :
    ∀ a ∈ (readEntryRecursive m start stop n p aucBuffer).addresses, P a := by
  cases n with
  | zero => simp [readEntryRecursive]
  | succ n => exact h n

theorem length_unpack (h : unpackEntryRecursive m start stop n p aucBuffer = some (r, text)) :
    aucBuffer.length ≤ text.length := by
  induction n generalizing p aucBuffer r text with
  | zero => cases h
  | succ n ih =>
    simp only [unpackEntryRecursive] at h
    split_ifs at h
    · obtain ⟨-, rfl⟩ := Prod.mk.inj (Option.some.inj h)
      exact le_rfl
    · have hlen := ih h
      simp only [List.length_append] at hlen
      omega
    · obtain ⟨-, rfl⟩ := Prod.mk.inj (Option.some.inj h)
      simp only [List.length_append]
      omega
    · obtain ⟨-, rfl⟩ := Prod.mk.inj (Option.some.inj h)
      exact le_rfl
    · obtain ⟨⟨r', text'⟩, hr, heq⟩ := Option.map_eq_some_iff.mp h
      have hlen := ih hr
      cases r' with
      | none =>
        obtain ⟨-, rfl⟩ := Prod.mk.inj heq
        exact hlen
      | some q =>
        obtain ⟨-, rfl⟩ := Prod.mk.inj heq
        exact hlen

theorem EntryInside.stays (hmem : InMemory start stop) (h : EntryInside m start stop used p)
    (hlen : aucBuffer.length = used) (hused : used ≤ 64) :
    (∃ r text, Returns (fun n => unpackEntryRecursive m start stop n p aucBuffer) (r, text) ∧ text.length ≤ 64) ∧
      ∀ n, ∀ a ∈ (readEntryRecursive m start stop n p aucBuffer).addresses, start ≤ a ∧ a < stop := by
  obtain ⟨hle, hstop⟩ := hmem
  induction h generalizing aucBuffer with
  | root hlo hhi hp =>
    refine ⟨⟨_, aucBuffer, returns_of_succ fun n => unpack_root hp (by omega), by omega⟩,
      forall_addresses fun n => ?_⟩
    rw [addresses_root hp, List.forall_mem_singleton]
    exact ⟨hlo, hhi⟩
  | invalid hlo hhi hge hlt =>
    refine ⟨⟨_, aucBuffer, returns_of_succ fun n => unpack_invalid hge hlt, by omega⟩,
      forall_addresses fun n => ?_⟩
    rw [addresses_invalid hge hlt, List.forall_mem_singleton]
    exact ⟨hlo, hhi⟩
  | @last used p hlo hpos hlt hend hroom =>
    have hret : Returns (fun n => unpackEntryRecursive m start stop n p aucBuffer)
        (none, aucBuffer ++ (slice m (p + 1) (m p).toNat ++ [0x2e])) := by
      apply returns_of_succ
      intro n
      rw [unpack_label hpos hlt (by omega), if_neg (by omega)]
    refine ⟨⟨_, _, hret, ?_⟩, forall_addresses fun n => ?_⟩
    · simp only [List.length_append, length_slice, List.length_singleton]
      omega
    · rw [addresses_label hpos hlt (by omega), if_neg (by omega), List.append_nil, List.forall_mem_cons]
      refine ⟨by omega, fun a ha => ?_⟩
      rw [List.mem_range'_1] at ha
      omega
  | @label used p hlo hpos hlt hend hroom h ih =>
    have hnext : (aucBuffer ++ (slice m (p + 1) (m p).toNat ++ [0x2e])).length = used + (m p).toNat + 1 := by
      simp only [List.length_append, length_slice, List.length_singleton]
      omega
    obtain ⟨⟨r, text, hret, htext⟩, hreads⟩ := ih hnext hroom
    refine ⟨⟨r, text, ?_, htext⟩, forall_addresses fun n => ?_⟩
    · apply hret.succ
      intro n hn
      rw [unpack_label hpos hlt (by omega), if_pos hend, hn]
    · rw [addresses_label hpos hlt (by omega), if_pos hend, List.forall_mem_cons, List.forall_mem_append]
      refine ⟨by omega, fun a ha => ?_, hreads n⟩
      rw [List.mem_range'_1] at ha
      omega
  | @pointer used p hlo hhi hge h ih =>
    obtain ⟨⟨r, text, hret, htext⟩, hreads⟩ := ih hlen hused
    refine ⟨⟨if r ≠ none ∧ p + 2 < stop then some (p + 2) else none, text, ?_, htext⟩,
      forall_addresses fun n => ?_⟩
    · apply hret.succ
      intro n hn
      rw [unpack_pointer hge (by omega) (by omega), hn]
      rfl
    · rw [addresses_pointer hge (by omega) (by omega), List.forall_mem_cons, List.forall_mem_cons]
      exact ⟨by omega, by omega, hreads n⟩

/-- The induction is on the depth of the recursion that has returned. -/
theorem entryInside_of_stays (hmem : InMemory start stop) (hp : p + 64 < 2 ^ 32)
    (h : unpackEntryRecursive m start stop n p aucBuffer = some (r, text)) (htext : text.length ≤ 64)
    (hreads : ∀ a ∈ (readEntryRecursive m start stop n p aucBuffer).addresses, start ≤ a ∧ a < stop) :
    EntryInside m start stop aucBuffer.length p := by
  obtain ⟨hle, hstop⟩ := hmem
  induction n generalizing p aucBuffer r with
  | zero => cases h
  | succ n ih =>
    obtain hz | ⟨hpos, hlt⟩ | ⟨hge, hlt⟩ | hge := length_cases (m p)
    · rw [addresses_root hz, List.forall_mem_singleton] at hreads
      exact .root hreads.1 hreads.2 hz
    · rw [addresses_label hpos hlt hp, List.forall_mem_cons, List.forall_mem_append] at hreads
      obtain ⟨⟨hlo, -⟩, hlabel, hreads⟩ := hreads
      have hlast : p + 1 + (m p).toNat ≤ stop := by
        have hne : (m p).toNat ≠ 0 := fun hz => hpos (UInt8.toNat_inj.mp hz)
        have hbyte := hlabel (p + (m p).toNat) (List.mem_range'_1.mpr (by omega))
        omega
      have hgrown := length_unpack h
      rw [unpack_label hpos hlt hp] at h
      have hnext : (aucBuffer ++ (slice m (p + 1) (m p).toNat ++ [0x2e])).length =
          aucBuffer.length + (m p).toNat + 1 := by
        simp only [List.length_append, length_slice, List.length_singleton]
        omega
      split_ifs at h hreads with hend
      · have hroom := length_unpack h
        have hrest := ih (by omega) h hreads
        rw [hnext] at hroom hrest
        exact .label hlo hpos hlt hend (by omega) hrest
      · obtain ⟨-, rfl⟩ := Prod.mk.inj (Option.some.inj h)
        exact .last hlo hpos hlt (by omega) (by omega)
    · rw [addresses_invalid hge hlt, List.forall_mem_singleton] at hreads
      exact .invalid hreads.1 hreads.2 hge hlt
    · rw [addresses_pointer hge (by omega) (by omega), List.forall_mem_cons, List.forall_mem_cons] at hreads
      obtain ⟨⟨hlo, -⟩, ⟨-, hhi⟩, hreads⟩ := hreads
      rw [unpack_pointer hge (by omega) (by omega)] at h
      obtain ⟨⟨r', text'⟩, hr, heq⟩ := Option.map_eq_some_iff.mp h
      obtain ⟨-, rfl⟩ := Prod.mk.inj heq
      have hlow := (m (p + 1)).toNat_lt
      exact .pointer hlo hhi hge (ih (by omega) hr hreads)

theorem StaysInside.entryInside (hmem : InMemory start stop) (hp : p < stop) (h : StaysInside m start stop p) :
    EntryInside m start stop 0 p := by
  obtain ⟨⟨r, text, hret, htext⟩, hreads⟩ := h
  obtain ⟨n, hn⟩ := hret.exists
  have hstop := hmem.2
  exact entryInside_of_stays hmem (by omega) hn htext (hreads n)

/-- The function returns and keeps to the packet and to its buffer exactly if
the entry does: its labels and pointers are in the packet, they come to an end,
and the labels fit. -/
theorem unpack_staysInside_iff (hmem : InMemory start stop) (m : Memory) (hp : p < stop) :
    StaysInside m start stop p ↔ EntryInside m start stop 0 p := by
  constructor
  · exact StaysInside.entryInside hmem hp
  · intro h
    exact h.stays hmem rfl (Nat.zero_le 64)

theorem unpack_staysInside_iff_exampleMessage : StaysInside exampleMessage 0 320 5 := by
  have hroot : EntryInside exampleMessage 0 320 2 4 := .root (by decide) (by decide) rfl
  have hlabel : EntryInside exampleMessage 0 320 0 2 :=
    .label (by decide) (by decide) (by decide) (by decide) (by decide) hroot
  exact (unpack_staysInside_iff inMemory_exampleMessage exampleMessage (by decide)).mpr
    (.pointer (by decide) (by decide) (by decide) hlabel)

/-- The name of an answer is a pointer to itself. -/
def selfPointer : Memory := fun x => if x = 12 then 0xc0 else if x = 13 then 12 else 0

theorem unpack_selfPointer (n : Nat) : unpackEntryRecursive selfPointer 0 14 n 12 [] = none := by
  induction n with
  | zero => rfl
  | succ n ih =>
    have htarget : 0 + (selfPointer (12 + 1)).toNat = 12 := rfl
    rw [unpack_pointer (by decide) (by decide) (by decide), htarget, ih, Option.map_none]

theorem self_pointer_recurses :
    ¬ ∀ (m : Memory) (start stop p : Nat), InMemory start stop → start ≤ p → p < stop →
      StaysInside m start stop p := by
  intro hall
  obtain ⟨⟨r, text, hret, -⟩, -⟩ := hall selfPointer 0 14 12 ⟨by decide, by decide⟩ (by decide) (by decide)
  obtain ⟨n, hn⟩ := hret.exists
  simp only [unpack_selfPointer] at hn
  cases hn

end FlashApp.Dns
