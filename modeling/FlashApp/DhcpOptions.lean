import FlashApp.Dhcp
import FlashApp.Loops

namespace FlashApp.Dhcp

open Bytes Eth Access Scan

/-- The loop over the options with the bytes that it reads. -/
def readOptionLoop (m : Memory) (uiOption : UInt8) (pucEnd : Nat) : Nat → Nat → Reading (Option (Option Nat))
  | 0, _ => pure none
  | n + 1, pucCnt =>
    if add32 pucCnt 2 ≤ pucEnd then do
      let ucCode ← readByte m pucCnt
      let ucLength ← readByte m (add32 pucCnt 1)
      if ucCode = uiOption ∧ add32 pucCnt (2 + ucLength.toNat) ≤ pucEnd then return some (some pucCnt)
      else readOptionLoop m uiOption pucEnd n (add32 pucCnt (2 + ucLength.toNat))
    else return some none

/-- `dhcp_getOption` with the bytes that it reads. The function `memcmp` is
allowed to read all of what it compares. -/
def readOption (m : Memory) (ptPacket sizPacket : Nat) (uiOption : UInt8) : Reading (Option (Option Nat)) :=
  let pucCnt := add32 ptPacket sizeofDhcpPacket
  let pucEnd := add32 pucCnt sizPacket
  if add32 pucCnt 4 ≤ pucEnd then do
    let aucMagic ← readBytes m pucCnt 4
    if aucMagic = aucDhcpMagic then readOptionLoop m uiOption pucEnd (2 ^ 32) (add32 pucCnt 4)
    else return some none
  else return some none

def itemEnd (m : Memory) (p : Nat) : Nat := p + 2 + (m (p + 1)).toNat

def isLive (pucEnd p : Nat) : Bool := p + 2 ≤ pucEnd

def isHit (m : Memory) (uiOption : UInt8) (pucEnd p : Nat) : Bool := m p = uiOption ∧ itemEnd m p ≤ pucEnd

/-- No pointer of `dhcp_getOption` wraps around. -/
def InMemory (ptPacket sizPacket : Nat) : Prop := ptPacket + sizPacket + 493 < 2 ^ 32

variable {m : Memory} {uiOption : UInt8} {ptPacket sizPacket pucEnd stop n p q : Nat}

theorem val_readOptionLoop (m : Memory) (uiOption : UInt8) (pucEnd n p : Nat) :
    (readOptionLoop m uiOption pucEnd n p).val = dhcpOptionLoop m uiOption pucEnd n p := by
  induction n generalizing p with
  | zero => rfl
  | succ n ih =>
    rw [readOptionLoop, dhcpOptionLoop]
    split_ifs with hlive
    · rw [val_bind, val_bind, val_readByte, val_readByte]
      by_cases hhit : m p = uiOption ∧ add32 p (2 + (m (add32 p 1)).toNat) ≤ pucEnd
      · rw [if_pos hhit]
        simp only [hhit, and_self, ↓reduceIte]
        rfl
      · rw [if_neg hhit]
        simp only [hhit, ↓reduceIte]
        exact ih _
    · rfl

theorem val_readOption (m : Memory) (ptPacket sizPacket : Nat) (uiOption : UInt8) :
    (readOption m ptPacket sizPacket uiOption).val = dhcpGetOption m ptPacket sizPacket uiOption := by
  simp only [readOption, dhcpGetOption]
  by_cases hsiz : add32 (add32 ptPacket sizeofDhcpPacket) 4 ≤ add32 (add32 ptPacket sizeofDhcpPacket) sizPacket
  · rw [if_pos hsiz, if_pos hsiz, val_bind, val_readBytes]
    by_cases hmagic : slice m (add32 ptPacket sizeofDhcpPacket) 4 = aucDhcpMagic
    · rw [if_pos hmagic, if_pos hmagic]
      exact val_readOptionLoop _ _ _ _ _
    · rw [if_neg hmagic, if_neg hmagic]
      rfl
  · rw [if_neg hsiz, if_neg hsiz]
    rfl

theorem lt_itemEnd (m : Memory) (p : Nat) : p < itemEnd m p := by
  unfold itemEnd
  omega

theorem itemEnd_le (m : Memory) (p : Nat) : itemEnd m p ≤ p + 257 := by
  have h := (m (p + 1)).toNat_lt
  unfold itemEnd
  omega

theorem add32_itemEnd (m : Memory) (hend : pucEnd + 257 < 2 ^ 32) (hp : p + 2 ≤ pucEnd) :
    add32 p (2 + (m (add32 p 1)).toNat) = itemEnd m p := by
  have h := (m (p + 1)).toNat_lt
  rw [add32_of_lt (a := p) (b := 1) (by omega), add32_of_lt (by omega), itemEnd]
  omega

theorem dhcpOptionLoop_eq_scan (hend : pucEnd + 257 < 2 ^ 32) (n : Nat) (hp : p ≤ pucEnd + 255) :
    dhcpOptionLoop m uiOption pucEnd n p =
      scan (isLive pucEnd) (isHit m uiOption pucEnd) (itemEnd m) n p := by
  induction n generalizing p with
  | zero => rfl
  | succ n ih =>
    have hlive : add32 p 2 = p + 2 := add32_of_lt (by omega)
    simp only [dhcpOptionLoop, scan, isLive, isHit, hlive, decide_eq_true_eq]
    by_cases h : p + 2 ≤ pucEnd
    · have hle := itemEnd_le m p
      rw [if_pos h, if_pos h, add32_itemEnd m hend h, ih (by omega)]
    · rw [if_neg h, if_neg h]

theorem dhcpGetOption_eq (h : InMemory ptPacket sizPacket) :
    dhcpGetOption m ptPacket sizPacket uiOption =
      if 4 ≤ sizPacket ∧ slice m (ptPacket + 236) 4 = aucDhcpMagic then
        scan (isLive (ptPacket + 236 + sizPacket)) (isHit m uiOption (ptPacket + 236 + sizPacket)) (itemEnd m)
          (2 ^ 32) (ptPacket + 240)
      else some none := by
  unfold InMemory at h
  have hcnt : add32 ptPacket sizeofDhcpPacket = ptPacket + 236 := add32_of_lt (by unfold sizeofDhcpPacket; omega)
  have hend : add32 (ptPacket + 236) sizPacket = ptPacket + 236 + sizPacket := add32_of_lt (by omega)
  have hopts : add32 (ptPacket + 236) 4 = ptPacket + 240 := add32_of_lt (by omega)
  simp only [dhcpGetOption, hcnt, hend, hopts]
  by_cases hsiz : 4 ≤ sizPacket
  · rw [if_pos (show ptPacket + 240 ≤ ptPacket + 236 + sizPacket by omega),
      dhcpOptionLoop_eq_scan (by omega) _ (by omega)]
    simp only [hsiz, true_and]
  · rw [if_neg (show ¬ ptPacket + 240 ≤ ptPacket + 236 + sizPacket by omega), if_neg (fun h => hsiz h.1)]

theorem exists_scanOptions (m : Memory) (uiOption : UInt8) (pucEnd p : Nat) (hn : pucEnd < n) :
    ∃ r, scan (isLive pucEnd) (isHit m uiOption pucEnd) (itemEnd m) n p = some r := by
  apply exists_scan (fun _ => True) (fun p => pucEnd - p) _ trivial (by omega)
  intro p _ hlive
  have hlt := lt_itemEnd m p
  have hle : p + 2 ≤ pucEnd := of_decide_eq_true hlive
  exact ⟨trivial, by omega⟩

/-- Every step of the loop goes forward, so it ends. -/
theorem exists_dhcpGetOption (h : InMemory ptPacket sizPacket) (m : Memory) (uiOption : UInt8) :
    ∃ r, dhcpGetOption m ptPacket sizPacket uiOption = some r := by
  rw [dhcpGetOption_eq h]
  unfold InMemory at h
  split_ifs
  · exact exists_scanOptions m uiOption _ _ (by omega)
  · exact ⟨none, rfl⟩

/-- No byte behind the payload is read, and an option that is returned is in
the payload. -/
structure StaysInside (m : Memory) (ptPacket sizPacket : Nat) (uiOption : UInt8) : Prop where
  reads : ∀ a ∈ (readOption m ptPacket sizPacket uiOption).addresses, a < ptPacket + sizPacket
  option : ∀ p, dhcpGetOption m ptPacket sizPacket uiOption = some (some p) →
    ptPacket + sizeofDhcpPacket ≤ p ∧ itemEnd m p ≤ ptPacket + sizPacket

/-- From `p` on the loop finds the option in the payload, or the length of an
option leads it so far behind the payload that it ends at once. The end
pointer of the loop is 236 bytes behind the payload. -/
inductive EndsInside (m : Memory) (uiOption : UInt8) (stop : Nat) : Nat → Prop
  | found {p : Nat} (hcode : m p = uiOption) (hend : itemEnd m p ≤ stop) : EndsInside m uiOption stop p
  | behind {p : Nat} (hp : p + 2 ≤ stop) (hend : stop + 234 < itemEnd m p)
      (hmiss : m p = uiOption → stop + 236 < itemEnd m p) : EndsInside m uiOption stop p
  | next {p : Nat} (hp : p + 2 ≤ stop) (hcode : m p ≠ uiOption)
      (h : EndsInside m uiOption stop (itemEnd m p)) : EndsInside m uiOption stop p

theorem EndsInside.header (h : EndsInside m uiOption stop p) : p + 2 ≤ stop := by
  cases h with
  | found hcode hend =>
    unfold itemEnd at hend
    omega
  | behind hp _ _ => exact hp
  | next hp _ _ => exact hp

theorem readOptionLoop_live (m : Memory) (uiOption : UInt8) (n : Nat) (hend : pucEnd + 257 < 2 ^ 32)
    (hp : p + 2 ≤ pucEnd) :
    (readOptionLoop m uiOption pucEnd (n + 1) p).addresses = p :: (p + 1) ::
        (if isHit m uiOption pucEnd p then pure (some (some p))
          else readOptionLoop m uiOption pucEnd n (itemEnd m p)).addresses ∧
      (readOptionLoop m uiOption pucEnd (n + 1) p).val =
        (if isHit m uiOption pucEnd p then pure (some (some p))
          else readOptionLoop m uiOption pucEnd n (itemEnd m p)).val := by
  have hlive : add32 p 2 ≤ pucEnd := by rwa [add32_of_lt (by omega)]
  have hone : add32 p 1 = p + 1 := add32_of_lt (by omega)
  have hnext := add32_itemEnd m hend hp
  rw [hone] at hnext
  rw [readOptionLoop, if_pos hlive]
  simp only [addresses_bind, val_bind, addresses_readByte, val_readByte, hone, hnext, isHit,
    decide_eq_true_eq, List.cons_append, List.nil_append, and_self]

theorem readOptionLoop_dead (m : Memory) (uiOption : UInt8) (n : Nat) (hend : pucEnd + 257 < 2 ^ 32)
    (hp : pucEnd < p + 2) (hle : p ≤ pucEnd + 255) :
    (readOptionLoop m uiOption pucEnd n p).addresses = [] ∧
      ∀ q, (readOptionLoop m uiOption pucEnd n p).val ≠ some (some q) := by
  have hdead : ¬ add32 p 2 ≤ pucEnd := by
    rw [add32_of_lt (by omega)]
    omega
  cases n with
  | zero => exact ⟨rfl, fun q h => nomatch h⟩
  | succ n =>
    rw [readOptionLoop, if_neg hdead]
    exact ⟨rfl, fun q h => nomatch h⟩

/-- What is read is in the payload, and so is an option that is found from `p`
on. -/
def KeepsInside (m : Memory) (stop p : Nat) (x : Reading (Option (Option Nat))) : Prop :=
  (∀ a ∈ x.addresses, a < stop) ∧ ∀ q, x.val = some (some q) → p ≤ q ∧ itemEnd m q ≤ stop

theorem keepsInside_round (hstop : stop + 493 < 2 ^ 32) (hp : p + 2 ≤ stop)
    (h : ∀ n, KeepsInside m stop p (if isHit m uiOption (stop + 236) p then pure (some (some p))
      else readOptionLoop m uiOption (stop + 236) n (itemEnd m p))) (n : Nat) :
    KeepsInside m stop p (readOptionLoop m uiOption (stop + 236) n p) := by
  cases n with
  | zero => exact ⟨by simp [readOptionLoop], by simp [readOptionLoop]⟩
  | succ n =>
    obtain ⟨haddr, hval⟩ := readOptionLoop_live m uiOption n (show stop + 236 + 257 < 2 ^ 32 by omega)
      (show p + 2 ≤ stop + 236 by omega)
    obtain ⟨hreads, hopt⟩ := h n
    refine ⟨?_, fun q hq => hopt q (by rwa [← hval])⟩
    rw [haddr, List.forall_mem_cons, List.forall_mem_cons]
    exact ⟨by omega, by omega, hreads⟩

theorem EndsInside.stays (h : EndsInside m uiOption stop p) (hstop : stop + 493 < 2 ^ 32) (n : Nat) :
    KeepsInside m stop p (readOptionLoop m uiOption (stop + 236) n p) := by
  induction h generalizing n with
  | @found p hcode hle =>
    have hhit : isHit m uiOption (stop + 236) p = true := decide_eq_true ⟨hcode, by omega⟩
    refine keepsInside_round hstop (EndsInside.found hcode hle).header (fun n => ?_) n
    rw [if_pos hhit]
    refine ⟨by simp, ?_⟩
    rintro q ⟨⟩
    exact ⟨le_rfl, hle⟩
  | @behind p hp hle hmiss =>
    have hhit : ¬ isHit m uiOption (stop + 236) p = true := by
      rw [isHit, decide_eq_true_eq]
      rintro ⟨hcode, hle'⟩
      have := hmiss hcode
      omega
    have hnext := itemEnd_le m p
    refine keepsInside_round hstop hp (fun n => ?_) n
    obtain ⟨hnil, hnone⟩ := readOptionLoop_dead m uiOption n (show stop + 236 + 257 < 2 ^ 32 by omega)
      (show stop + 236 < itemEnd m p + 2 by omega) (by omega)
    rw [if_neg hhit]
    refine ⟨?_, fun q hq => absurd hq (hnone q)⟩
    rw [hnil]
    exact List.forall_mem_nil _
  | @next p hp hcode h ih =>
    have hhit : ¬ isHit m uiOption (stop + 236) p = true := by
      rw [isHit, decide_eq_true_eq]
      exact fun hc => hcode hc.1
    have hlt := lt_itemEnd m p
    refine keepsInside_round hstop hp (fun n => ?_) n
    obtain ⟨hreads, hopt⟩ := ih n
    rw [if_neg hhit]
    refine ⟨hreads, fun q hq => ?_⟩
    obtain ⟨hle, hq⟩ := hopt q hq
    exact ⟨by omega, hq⟩

/-- If the loop keeps to the payload, it ends there. The induction is on the
rounds that are left. -/
theorem endsInside_of_stays (hstop : stop + 493 < 2 ^ 32) (hn : stop + 236 < p + n) (hp : p + 2 ≤ stop + 236)
    (hreads : ∀ a ∈ (readOptionLoop m uiOption (stop + 236) n p).addresses, a < stop)
    (hopt : ∀ q, (readOptionLoop m uiOption (stop + 236) n p).val = some (some q) → itemEnd m q ≤ stop) :
    EndsInside m uiOption stop p := by
  have hend : stop + 236 + 257 < 2 ^ 32 := by omega
  induction n generalizing p with
  | zero => omega
  | succ n ih =>
    obtain ⟨haddr, hval⟩ := readOptionLoop_live m uiOption n hend hp
    rw [haddr, List.forall_mem_cons, List.forall_mem_cons] at hreads
    rw [hval] at hopt
    obtain ⟨-, hhead, hreads⟩ := hreads
    have hlt : p + 2 ≤ itemEnd m p := Nat.le_add_right _ _
    cases hhit : isHit m uiOption (stop + 236) p with
    | true =>
      obtain ⟨hcode, -⟩ := of_decide_eq_true hhit
      rw [hhit] at hopt
      exact .found hcode (hopt p rfl)
    | false =>
      have hmiss : ¬ (m p = uiOption ∧ itemEnd m p ≤ stop + 236) := of_decide_eq_false hhit
      simp only [hhit, Bool.false_eq_true, ↓reduceIte] at hreads hopt
      by_cases hnext : itemEnd m p + 2 ≤ stop + 236
      · exact .next (by omega) (fun hc => hmiss ⟨hc, by omega⟩) (ih (by omega) hnext hreads hopt)
      · refine .behind (by omega) (by omega) (fun hc => ?_)
        by_contra hle
        exact hmiss ⟨hc, by omega⟩

theorem readOption_eq (m : Memory) (uiOption : UInt8) (h : InMemory ptPacket sizPacket) :
    readOption m ptPacket sizPacket uiOption =
      if 4 ≤ sizPacket then do
        let aucMagic ← readBytes m (ptPacket + 236) 4
        if aucMagic = aucDhcpMagic then
          readOptionLoop m uiOption (ptPacket + sizPacket + 236) (2 ^ 32) (ptPacket + 240)
        else return some none
      else return some none := by
  unfold InMemory at h
  have hcnt : add32 ptPacket sizeofDhcpPacket = ptPacket + 236 := add32_of_lt (by unfold sizeofDhcpPacket; omega)
  have hend : add32 (ptPacket + 236) sizPacket = ptPacket + sizPacket + 236 := by
    rw [add32_of_lt (by omega)]
    omega
  have hopts : add32 (ptPacket + 236) 4 = ptPacket + 240 := add32_of_lt (by omega)
  have hsiz : ptPacket + 240 ≤ ptPacket + sizPacket + 236 ↔ 4 ≤ sizPacket := by omega
  simp only [readOption, hcnt, hend, hopts, hsiz]

theorem StaysInside.endsInside (h : InMemory ptPacket sizPacket) (hsiz : 4 ≤ sizPacket)
    (hstays : StaysInside m ptPacket sizPacket uiOption) :
    240 ≤ sizPacket ∧ (slice m (ptPacket + 236) 4 = aucDhcpMagic →
      EndsInside m uiOption (ptPacket + sizPacket) (ptPacket + 240)) := by
  obtain ⟨hreads, hopt⟩ := hstays
  have hstop : ptPacket + sizPacket + 493 < 2 ^ 32 := h
  have hread := readOption_eq m uiOption h
  rw [if_pos hsiz] at hread
  rw [hread, addresses_bind, List.forall_mem_append] at hreads
  rw [← val_readOption, hread, val_bind, val_readBytes] at hopt
  obtain ⟨hmagic, hreads⟩ := hreads
  have hlast := hmagic (ptPacket + 239) (by simp)
  refine ⟨by omega, fun hcookie => ?_⟩
  rw [val_readBytes, if_pos hcookie] at hreads
  rw [if_pos hcookie] at hopt
  exact endsInside_of_stays hstop (by omega) (by omega) hreads (fun q hq => (hopt q hq).2)

theorem staysInside_of_endsInside (h : InMemory ptPacket sizPacket) (hmin : 240 ≤ sizPacket)
    (hends : slice m (ptPacket + 236) 4 = aucDhcpMagic →
      EndsInside m uiOption (ptPacket + sizPacket) (ptPacket + 240)) :
    StaysInside m ptPacket sizPacket uiOption := by
  have hread := readOption_eq m uiOption h
  rw [if_pos (by omega)] at hread
  have hmagic : ∀ a ∈ (readBytes m (ptPacket + 236) 4).addresses, a < ptPacket + sizPacket := by
    intro a ha
    rw [addresses_readBytes, List.mem_range'_1] at ha
    omega
  by_cases hcookie : slice m (ptPacket + 236) 4 = aucDhcpMagic
  · obtain ⟨hreads, hopt⟩ := (hends hcookie).stays h (2 ^ 32)
    refine ⟨?_, fun p hp => ?_⟩
    · rw [hread, addresses_bind, List.forall_mem_append, val_readBytes, if_pos hcookie]
      exact ⟨hmagic, hreads⟩
    · rw [← val_readOption, hread, val_bind, val_readBytes, if_pos hcookie] at hp
      obtain ⟨hle, hp⟩ := hopt p hp
      exact ⟨by unfold sizeofDhcpPacket; omega, hp⟩
  · refine ⟨?_, fun p hp => ?_⟩
    · rw [hread, addresses_bind, List.forall_mem_append, val_readBytes, if_neg hcookie]
      exact ⟨hmagic, by simp⟩
    · rw [← val_readOption, hread, val_bind, val_readBytes, if_neg hcookie] at hp
      cases hp

theorem staysInside_of_short (h : InMemory ptPacket sizPacket) (hsiz : sizPacket < 4) :
    StaysInside m ptPacket sizPacket uiOption := by
  have hread := readOption_eq m uiOption h
  rw [if_neg (by omega)] at hread
  refine ⟨?_, fun p hp => ?_⟩
  · rw [hread]
    simp
  · rw [← val_readOption, hread] at hp
    cases hp

/-- What `dhcp_getOption` reads and returns is inside the payload exactly if
the payload is too short for it to do anything, or has the fixed part and
either no cookie or options that end the loop in time. -/
theorem staysInside_iff (h : InMemory ptPacket sizPacket) (m : Memory) (uiOption : UInt8) :
    StaysInside m ptPacket sizPacket uiOption ↔
      sizPacket < 4 ∨ 240 ≤ sizPacket ∧ (slice m (ptPacket + 236) 4 = aucDhcpMagic →
        EndsInside m uiOption (ptPacket + sizPacket) (ptPacket + 240)) := by
  constructor
  · intro hstays
    by_cases hsiz : 4 ≤ sizPacket
    · exact .inr (hstays.endsInside h hsiz)
    · exact .inl (by omega)
  · rintro (hsiz | ⟨hmin, hends⟩)
    · exact staysInside_of_short h hsiz
    · exact staysInside_of_endsInside h hmin hends

/-- A packet at address 1000 with one option, a DHCP acknowledge. -/
def exampleAck : Memory := fun x => ([0x63, 0x82, 0x53, 0x63, 53, 1, 5, 255] : List UInt8).getD (x - 1236) 0

theorem inMemory_exampleAck : InMemory 1000 244 := by
  unfold InMemory
  decide

theorem staysInside_iff_exampleAck : StaysInside exampleAck 1000 244 dhcpOptDhcpMessageType :=
  (staysInside_iff inMemory_exampleAck exampleAck dhcpOptDhcpMessageType).mpr
    (.inr ⟨by decide, fun _ => .found rfl (by decide)⟩)

/-- If the option is not there, the loop takes the end of the options for one
more option, whose length is behind the payload. -/
theorem missing_option_reads_behind :
    ¬ ∀ (m : Memory) (ptPacket sizPacket : Nat) (uiOption : UInt8), InMemory ptPacket sizPacket →
      StaysInside m ptPacket sizPacket uiOption := by
  intro hall
  have hstays := hall exampleAck 1000 244 dhcpOptSubnetMask inMemory_exampleAck
  have hends := (hstays.endsInside inMemory_exampleAck (by decide)).2 rfl
  have hcode : exampleAck 1240 ≠ dhcpOptSubnetMask := by decide
  cases hends with
  | found h _ => exact hcode h
  | behind _ h _ => exact absurd h (by decide)
  | next _ _ h => exact absurd h.header (by decide)

end FlashApp.Dhcp
