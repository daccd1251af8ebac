import FlashApp.Udp
import Mathlib.Data.List.Induction

namespace FlashApp.Udp

open Bytes Eth Slots

inductive Op (H : Type) where
  | registerPort (tAssoc : Assoc H)
  | unregisterPort (ptAssoc : AssocPtr)
  deriving DecidableEq

variable {H : Type}

def Op.NonZero : Op H → Prop
  | .registerPort tAssoc => tAssoc.uiLocalPort ≠ 0
  | .unregisterPort _ => True

def step (t : Table H) : Op H → Table H
  | .registerPort tAssoc => (udpRegisterPort t tAssoc).1
  | .unregisterPort ptAssoc => udpUnregisterPort t ptAssoc

/-- The table after the calls since `udp_init`, which leaves everything but the
local ports as it finds it. -/
def table (t₀ : Table H) (ops : List (Op H)) : Table H := ops.foldl step (udpInit t₀)

/-- The association was registered, got entry `i` and was not given back
since then. -/
def Registered (t₀ : Table H) (ops : List (Op H)) (i : Fin 8) (tAssoc : Assoc H) : Prop :=
  ∃ pre post, ops = pre ++ .registerPort tAssoc :: post ∧
    (udpRegisterPort (table t₀ pre) tAssoc).2 = some i ∧ Op.unregisterPort (some i) ∉ post

theorem table_append (t₀ : Table H) (ops : List (Op H)) (op : Op H) :
    table t₀ (ops ++ [op]) = step (table t₀ ops) op := by
  simp [table]

theorem registered_append {t₀ : Table H} {ops : List (Op H)} {op : Op H} {i : Fin 8} {a : Assoc H} :
    Registered t₀ (ops ++ [op]) i a ↔
      (op = .registerPort a ∧ (udpRegisterPort (table t₀ ops) a).2 = some i) ∨
      (Registered t₀ ops i a ∧ op ≠ .unregisterPort (some i)) := by
  constructor
  · rintro ⟨pre, post, h, hi, hpost⟩
    obtain rfl | ⟨post, last, rfl⟩ := List.eq_nil_or_concat post
    · obtain ⟨rfl, h⟩ := List.append_inj' h rfl
      exact .inl ⟨by simpa using h, hi⟩
    · rw [List.concat_eq_append, ← List.cons_append, ← List.append_assoc] at h
      obtain ⟨rfl, h⟩ := List.append_inj' h rfl
      obtain rfl : op = last := by simpa using h
      refine .inr ⟨⟨pre, post, rfl, hi, ?_⟩, ?_⟩
      · intro hmem
        exact hpost (by simp [hmem])
      · rintro rfl
        exact hpost (by simp)
  · rintro (⟨rfl, hi⟩ | ⟨⟨pre, post, rfl, hi, hpost⟩, hne⟩)
    · exact ⟨ops, [], rfl, hi, by simp⟩
    · refine ⟨pre, post ++ [op], by simp, hi, ?_⟩
      rw [List.mem_append, List.mem_singleton]
      exact not_or.mpr ⟨hpost, fun h => hne h.symm⟩

theorem register_entry_iff {t : Table H} {b : Assoc H} (hb : b.uiLocalPort ≠ 0) (i : Fin 8) (a : Assoc H) :
    (b = a ∧ (udpRegisterPort t a).2 = some i ∨ t i = a ∧ a.uiLocalPort ≠ 0) ↔
      (udpRegisterPort t b).1 i = a ∧ a.uiLocalPort ≠ 0 := by
  obtain ⟨j, hj, hreg⟩ | ⟨-, hreg⟩ := udpRegisterPort_cases t b
  · by_cases hij : i = j
    · subst hij
      simp only [hreg, Function.update_self]
      constructor
      · rintro (⟨rfl, -⟩ | ⟨rfl, ha⟩)
        · exact ⟨rfl, hb⟩
        · exact absurd hj ha
      · rintro ⟨rfl, -⟩
        exact .inl ⟨rfl, by rw [hreg]⟩
    · simp only [hreg, Function.update_of_ne hij]
      constructor
      · rintro (⟨rfl, hi⟩ | h)
        · rw [hreg] at hi
          exact absurd (Option.some.inj hi).symm hij
        · exact h
      · exact .inr
  · rw [hreg]
    constructor
    · rintro (⟨rfl, hi⟩ | h)
      · rw [hreg] at hi
        cases hi
      · exact h
    · exact .inr

theorem unregister_entry_iff {t : Table H} (p : AssocPtr) (i : Fin 8) (a : Assoc H) :
    ((t i = a ∧ a.uiLocalPort ≠ 0) ∧ p ≠ some i) ↔ udpUnregisterPort t p i = a ∧ a.uiLocalPort ≠ 0 := by
  cases p with
  | none => simp [udpUnregisterPort]
  | some j =>
    by_cases hij : j = i
    · subst hij
      simp only [udpUnregisterPort, Function.update_self, ne_eq, not_true_eq_false, and_false, false_iff]
      rintro ⟨rfl, h⟩
      exact h rfl
    · simp only [udpUnregisterPort, Function.update_of_ne (Ne.symm hij), ne_eq, Option.some.injEq, hij,
        not_false_eq_true, and_true]

theorem registered_iff {t₀ : Table H} {ops : List (Op H)} (hops : ∀ op ∈ ops, op.NonZero)
    (i : Fin 8) (a : Assoc H) :
    Registered t₀ ops i a ↔ table t₀ ops i = a ∧ a.uiLocalPort ≠ 0 := by
  induction ops using List.reverseRecOn generalizing i a with
  | nil =>
    constructor
    · rintro ⟨pre, post, h, -⟩
      simp at h
    · rintro ⟨rfl, h⟩
      exact absurd rfl h
  | append_singleton ops op ih =>
    have hop : op.NonZero := hops op (by simp)
    have ih' := ih fun op' hop' => hops op' (by simp [hop'])
    rw [registered_append, table_append, ih']
    cases op with
    | registerPort b => simpa [step] using register_entry_iff hop i a
    | unregisterPort p => simpa [step] using unregister_entry_iff p i a

/-- A packet that gets through to a handler gets to the one of an association
that is registered for its destination port. -/
def OnlyRegistered (t₀ : Table H) (ops : List (Op H)) (ptPkt : Frame) (sizPacket : Nat) : Prop :=
  ∀ c, (udpProcessPacket (table t₀ ops) ptPkt sizPacket).2 = some c →
    ∃ tAssoc, Registered t₀ ops c.ptAssocHit tAssoc ∧
      tAssoc.uiLocalPort = get16 ptPkt UdpHdr.usDstPort ∧
      c.pfnRecHandler = tAssoc.pfnRecHandler ∧ c.pvUser = tAssoc.pvUser

/-- The port list keeps to the registered associations, except that a packet
to port 0 finds the first free entry. -/
theorem udp_handler_registered_iff {H : Type} (t₀ : Table H) (ops : List (Op H))
    (hops : ∀ op ∈ ops, op.NonZero) (ptPkt : Frame) (sizPacket : Nat) :
    OnlyRegistered t₀ ops ptPkt sizPacket ↔
      get16 ptPkt UdpHdr.usDstPort ≠ 0 ∨ ¬ Accepted ptPkt sizPacket ∨
        ∀ i, ∃ tAssoc, Registered t₀ ops i tAssoc := by
  have hreg : ∀ i a, Registered t₀ ops i a ↔ table t₀ ops i = a ∧ a.uiLocalPort ≠ 0 := registered_iff hops
  constructor
  · intro h
    by_contra hc
    simp only [not_or, not_not, not_forall, not_exists] at hc
    obtain ⟨hport, hacc, i, hi⟩ := hc
    -- the entry that is not registered is free, so the search stops there or before
    have hfree : (table t₀ ops i).uiLocalPort = 0 := by
      by_contra hne
      exact hi _ ((hreg i _).mpr ⟨rfl, hne⟩)
    obtain ⟨j, hj⟩ := exists_find
      (p := fun i => (table t₀ ops i).uiLocalPort == get16 ptPkt UdpHdr.usDstPort) (i := i)
      (by simp [hfree, hport])
    obtain ⟨a, ha, hap, -⟩ := h (handlerCall (table t₀ ops) ptPkt j) (by
      rw [udpProcessPacket_eq, if_pos hacc, hj]
      rfl)
    exact ((hreg _ a).mp ha).2 (hap.trans hport)
  · intro hc c hcall
    rw [udpProcessPacket_eq] at hcall
    split_ifs at hcall with hacc
    obtain ⟨j, hj, rfl⟩ := Option.map_eq_some_iff.mp hcall
    have hport : (table t₀ ops j).uiLocalPort = get16 ptPkt UdpHdr.usDstPort := by
      simpa using find_some hj
    have hne : (table t₀ ops j).uiLocalPort ≠ 0 := by
      obtain hd | hna | hall := hc
      · rwa [hport]
      · exact absurd hacc hna
      · obtain ⟨a, ha⟩ := hall j
        obtain ⟨ha', hne⟩ := (hreg j a).mp ha
        rwa [ha']
    exact ⟨_, (hreg j _).mpr ⟨rfl, hne⟩, hport, rfl, rfl⟩

def portZeroPacket : Frame := fun o =>
  ([0x02, 0x00, 0x00, 0x00, 0x00, 0x0a, 0x02, 0x00, 0x00, 0x00, 0x00, 0x01, 0x08, 0x00,
    0x45, 0x00, 0x00, 0x1d, 0x00, 0x01, 0x40, 0x00, 0x40, 0x11, 0xb9, 0x73,
    192, 168, 0, 1, 192, 168, 0, 10, 0x04, 0xd2, 0x00, 0x00, 0x00, 0x09, 0x38, 0xae,
    0x41] : List UInt8).getD o 0

/-- The entry of a lookup that is over still has its handler, and the packet
gets there. -/
theorem port_zero_reaches_free_entry :
    ¬ ∀ (t₀ : Table Nat) (ops : List (Op Nat)), (∀ op ∈ ops, op.NonZero) →
      ∀ ptPkt sizPacket, OnlyRegistered t₀ ops ptPkt sizPacket := by
  intro h
  let t₀ : Table Nat := fun _ => ⟨0, 0, 0, 0, 0⟩
  let ops : List (Op Nat) := [.registerPort ⟨mus2nus 53, ipAdr 192 168 0 1, mus2nus 53, 0x08001234, 0⟩,
    .unregisterPort (some 0)]
  have hops : ∀ op ∈ ops, op.NonZero := by
    simp only [ops, List.forall_mem_cons, Op.NonZero]
    exact ⟨by decide, trivial, by simp⟩
  obtain ⟨a, ha, hport, -⟩ := h t₀ ops hops portZeroPacket 43
    (handlerCall (table t₀ ops) portZeroPacket 0) (by
      rw [udpProcessPacket_eq, if_pos (by decide +kernel)]
      rfl)
  have hne := ((registered_iff hops _ a).mp ha).2
  exact hne hport

def dnsPacket : Frame :=
  put16 (put16 portZeroPacket UdpHdr.usDstPort (mus2nus 53)) UdpHdr.usChecksum (mus2nus 0x3879)

theorem udp_handler_registered_iff_port_53 :
    Accepted dnsPacket 43 ∧
    OnlyRegistered (H := Nat) (fun _ => ⟨0, 0, 0, 0, 0⟩)
      [.registerPort ⟨mus2nus 53, ipAdr 192 168 0 1, mus2nus 53, 0x08001234, 0⟩] dnsPacket 43 := by
  refine ⟨by decide +kernel, (udp_handler_registered_iff _ _ ?_ _ _).mpr (.inl (by decide))⟩
  intro op hop
  obtain rfl := List.mem_singleton.mp hop
  exact (by decide : mus2nus 53 ≠ 0)

end FlashApp.Udp
