import FlashApp.Interaction
import FlashApp.UdpTable

namespace FlashApp.UdpClient

open Eth Interaction Udp

/-- The receive handlers of the clients in the stack. -/
inductive Handler where
  | dhcpRecHandler
  | dnsRecHandler
  | tftpRecHandler
  deriving DecidableEq

/-- What a client calls. A frame is sent on the association its pointer leads
to; there is none for a pointer outside the port list. -/
inductive Call where
  | ethGetEmptyPacket
  | udpSendPacket (aucUdpData : List UInt8) (tAssoc : Option (Assoc Handler))
  | systimeGetMs
  | systimeHandleIsElapsed (ulStart ulDuration : Nat)
  deriving DecidableEq

/-- An empty frame can be missing, and time goes by as it likes. -/
def Call.Ret : Call → Type
  | .ethGetEmptyPacket => Bool
  | .udpSendPacket _ _ => Unit
  | .systimeGetMs => Nat
  | .systimeHandleIsElapsed _ _ => Bool

abbrev ClientProg := Prog Call Call.Ret

abbrev ClientEvent := Event Call Call.Ret

def ethGetEmptyPacket : ClientProg Bool := perform Call.ethGetEmptyPacket

def sendOn (aucUdpData : List UInt8) (tAssoc : Option (Assoc Handler)) : ClientProg Unit :=
  perform (Call.udpSendPacket aucUdpData tAssoc)

def systimeGetMs : ClientProg Nat := perform Call.systimeGetMs

def systimeHandleIsElapsed (ulStart ulDuration : Nat) : ClientProg Bool :=
  perform (Call.systimeHandleIsElapsed ulStart ulDuration)

/-- The common body of the functions that send a packet: they return 0, or -1
if there is no empty frame. -/
def sendPacket (t : Table Handler) (ptAssoc : AssocPtr) (aucUdpData : List UInt8) : ClientProg Int := do
  if ← ethGetEmptyPacket then
    sendOn aucUdpData (ptAssoc.map t)
    return 0
  else
    return -1

/-- The common body of the `cleanup` functions. -/
def cleanup (t : Table Handler) : AssocPtr → Table Handler × AssocPtr
  | some i => (udpUnregisterPort t (some i), none)
  | none => (t, none)

/-- The entries of the port list with the handler `h` are the one that the
pointer leads to. -/
def Owns (h : Handler) (t : Table Handler) (ptAssoc : AssocPtr) : Prop :=
  ∀ i, ((t i).uiLocalPort ≠ 0 ∧ (t i).pfnRecHandler = h) ↔ ptAssoc = some i

/-- A call on the port list by a client that has another handler and gives
back its own entries only. -/
def Foreign (h : Handler) (t : Table Handler) : Op Handler → Prop
  | .registerPort tAssoc => tAssoc.uiLocalPort ≠ 0 ∧ tAssoc.pfnRecHandler ≠ h
  | .unregisterPort (some i) => (t i).pfnRecHandler ≠ h
  | .unregisterPort none => True

/-- The association of a packet is registered, with the handler `h`. -/
def Valid (h : Handler) (tAssoc : Option (Assoc Handler)) : Prop :=
  ∃ a, tAssoc = some a ∧ a.uiLocalPort ≠ 0 ∧ a.pfnRecHandler = h

def sent : ClientEvent → Option (List UInt8 × Option (Assoc Handler))
  | ⟨.udpSendPacket aucUdpData tAssoc, _⟩ => some (aucUdpData, tAssoc)
  | _ => none

def sends (tr : List ClientEvent) : List (List UInt8 × Option (Assoc Handler)) := tr.filterMap sent

def SendsValid (h : Handler) (tr : List ClientEvent) : Prop := ∀ x ∈ sends tr, Valid h x.2

/-- The client has an entry exactly if `o` holds, and no other one. -/
structure Holding (h : Handler) (t : Table Handler) (ptAssoc : AssocPtr) (o : Prop) : Prop where
  owns : Owns h t ptAssoc
  isOpen : ptAssoc ≠ none ↔ o

variable {h : Handler} {t : Table Handler} {p : AssocPtr} {o o' : Prop} {tr : List ClientEvent}

@[simp] theorem sends_nil : sends [] = [] := rfl

@[simp] theorem sends_append (s t : List ClientEvent) : sends (s ++ t) = sends s ++ sends t :=
  List.filterMap_append

@[simp] theorem sends_ethGetEmptyPacket (b : Bool) (tr : List ClientEvent) :
    sends (⟨.ethGetEmptyPacket, b⟩ :: tr) = sends tr := rfl

@[simp] theorem sends_systimeGetMs (n : Nat) (tr : List ClientEvent) :
    sends (⟨.systimeGetMs, n⟩ :: tr) = sends tr := rfl

@[simp] theorem sends_systimeHandleIsElapsed (i j : Nat) (b : Bool) (tr : List ClientEvent) :
    sends (⟨.systimeHandleIsElapsed i j, b⟩ :: tr) = sends tr := rfl

@[simp] theorem sends_udpSendPacket (d : List UInt8) (a : Option (Assoc Handler))
    (tr : List ClientEvent) : sends (⟨.udpSendPacket d a, ()⟩ :: tr) = (d, a) :: sends tr := rfl

theorem runs_sendPacket {aucUdpData : List UInt8} {r : Int} :
    Runs (sendPacket t p aucUdpData) tr r ↔
      (tr = [⟨.ethGetEmptyPacket, true⟩, ⟨.udpSendPacket aucUdpData (p.map t), ()⟩] ∧ r = 0) ∨
      (tr = [⟨.ethGetEmptyPacket, false⟩] ∧ r = -1) := by
  constructor
  · rintro ⟨b, tr', rfl, hr⟩
    cases b with
    | true =>
      obtain ⟨u, tr'', rfl, rfl, rfl⟩ := hr
      exact .inl ⟨rfl, rfl⟩
    | false =>
      obtain ⟨rfl, rfl⟩ := hr
      exact .inr ⟨rfl, rfl⟩
  · rintro (⟨rfl, rfl⟩ | ⟨rfl, rfl⟩)
    · exact ⟨true, _, rfl, (), [], rfl, rfl, rfl⟩
    · exact ⟨false, [], rfl, rfl, rfl⟩

theorem runs_systimeGetMs {n : Nat} :
    Runs systimeGetMs tr n ↔ tr = [⟨.systimeGetMs, n⟩] := runs_perform

theorem runs_systimeHandleIsElapsed {i j : Nat} {b : Bool} :
    Runs (systimeHandleIsElapsed i j) tr b ↔ tr = [⟨.systimeHandleIsElapsed i j, b⟩] := runs_perform

theorem Owns.valid (ho : Owns h t p) (hp : p ≠ none) : Valid h (p.map t) := by
  obtain ⟨i, rfl⟩ := Option.ne_none_iff_exists'.mp hp
  exact ⟨t i, rfl, (ho i).mpr rfl⟩

theorem owns_init (t : Table Handler) : Owns h (udpInit t) none := by
  intro i
  simp [udpInit]

theorem owns_register (ho : Owns h t none) {a : Assoc Handler} (hp : a.uiLocalPort ≠ 0)
    (ha : a.pfnRecHandler = h) : Owns h (udpRegisterPort t a).1 (udpRegisterPort t a).2 := by
  obtain ⟨j, -, hreg⟩ | ⟨-, hreg⟩ := udpRegisterPort_cases t a
  · rw [hreg]
    intro i
    by_cases hij : i = j
    · subst hij
      simp [hp, ha]
    · have hi := ho i
      simp only [Function.update_of_ne hij, hi, Option.some.injEq, Ne.symm hij, reduceCtorEq]
  · rwa [hreg]

theorem owns_unregister (ho : Owns h t p) : Owns h (udpUnregisterPort t p) none := by
  cases p with
  | none => exact ho
  | some j =>
    intro i
    by_cases hij : i = j
    · subst hij
      simp [udpUnregisterPort]
    · have hi := ho i
      simp only [udpUnregisterPort, Function.update_of_ne hij, hi, Option.some.injEq, Ne.symm hij,
        reduceCtorEq]

theorem cleanup_eq (t : Table Handler) (p : AssocPtr) : cleanup t p = (udpUnregisterPort t p, none) := by
  cases p <;> rfl

/-- The other clients leave the entry alone. -/
theorem owns_foreign (ho : Owns h t p) {op : Op Handler} (hop : Foreign h t op) :
    Owns h (step t op) p := by
  cases op with
  | registerPort a =>
    obtain ⟨hp, ha⟩ := hop
    obtain ⟨j, hj, hreg⟩ | ⟨-, hreg⟩ := udpRegisterPort_cases t a
    · intro i
      simp only [step, hreg]
      by_cases hij : i = j
      · subst hij
        have hi := ho i
        rw [Function.update_self, ← hi]
        simp [hj, ha]
      · rw [Function.update_of_ne hij]
        exact ho i
    · simpa only [step, hreg] using ho
  | unregisterPort q =>
    cases q with
    | none => exact ho
    | some j =>
      intro i
      simp only [step, udpUnregisterPort]
      by_cases hij : i = j
      · subst hij
        have hne : (t i).pfnRecHandler ≠ h := hop
        have hi := ho i
        rw [Function.update_self, ← hi]
        simp [hne]
      · rw [Function.update_of_ne hij]
        exact ho i

theorem SendsValid.nil : SendsValid h [] := by
  simp [SendsValid]

theorem Holding.congr (hh : Holding h t p o) (ho : o' ↔ o) : Holding h t p o' :=
  ⟨hh.owns, hh.isOpen.trans ho.symm⟩

theorem Holding.close (hh : Holding h t p o) (ho : ¬ o') :
    Holding h (cleanup t p).1 (cleanup t p).2 o' := by
  rw [cleanup_eq]
  exact ⟨owns_unregister hh.owns, by simpa using ho⟩

theorem Holding.valid (hh : Holding h t p o) (ho : o) : Valid h (p.map t) :=
  hh.owns.valid (hh.isOpen.mpr ho)

theorem Holding.exists_valid_iff (hh : Holding h t p o) : (∃ i, p = some i ∧ Valid h (some (t i))) ↔ o := by
  rw [← hh.isOpen]
  constructor
  · rintro ⟨i, rfl, -⟩
    simp
  · intro hne
    obtain ⟨i, rfl⟩ := Option.ne_none_iff_exists'.mp hne
    exact ⟨i, rfl, _, rfl, (hh.owns i).mpr rfl⟩

theorem Holding.ptAssoc_eq_none (hh : Holding h t p o) (ho : ¬ o) : p = none := by
  by_contra hne
  exact ho (hh.isOpen.mp hne)

theorem Holding.foreign (hh : Holding h t p o) {op : Op Handler} (hop : Foreign h t op) :
    Holding h (step t op) p o := ⟨owns_foreign hh.owns hop, hh.isOpen⟩

theorem Holding.register (hh : Holding h t p o) (ho : ¬ o) {a : Assoc Handler}
    (hp : a.uiLocalPort ≠ 0) (ha : a.pfnRecHandler = h) :
    Owns h (udpRegisterPort t a).1 (udpRegisterPort t a).2 := by
  have howns := hh.owns
  rw [hh.ptAssoc_eq_none ho] at howns
  exact owns_register howns hp ha

theorem Holding.sendsValid (hh : Holding h t p o) (ho : o) {d : List UInt8} {r : Int}
    (hr : Runs (sendPacket t p d) tr r) : SendsValid h tr := by
  have hv := hh.valid ho
  obtain ⟨rfl, -⟩ | ⟨rfl, -⟩ := runs_sendPacket.mp hr
  · simpa [SendsValid] using hv
  · simp [SendsValid]

/-- An environment in which empty frames are there or not, and the time is over
or not. -/
def frames (bFrame bElapsed : Bool) : Oracle Call Call.Ret := fun _ c =>
  match c with
  | .ethGetEmptyPacket => bFrame
  | .udpSendPacket _ _ => ()
  | .systimeGetMs => (0 : Nat)
  | .systimeHandleIsElapsed _ _ => bElapsed

theorem frames_packet (bFrame : Bool) {bElapsed : Bool} {α : Type} {p : ClientProg α} :
    (⟨.ethGetEmptyPacket, !bFrame⟩ : ClientEvent) ∉ (exec (frames bFrame bElapsed) p []).1 := by
  intro hmem
  obtain ⟨h', he⟩ := exec_answers (frames bFrame bElapsed) p [] _ hmem
  cases bFrame <;> cases he

end FlashApp.UdpClient
