import FlashApp.DhcpOptions

namespace FlashApp.Dhcp

open Bytes Eth Access

def dhcpOptPad : UInt8 := 0

structure DhcpOption where
  code : UInt8
  value : List UInt8
  code_ne_pad : code ≠ dhcpOptPad
  code_ne_end : code ≠ dhcpOptEnd
  length_value : value.length < 2 ^ 8

inductive Item where
  | pad
  | option (o : DhcpOption)

def Item.encode : Item → List UInt8
  | .pad => [dhcpOptPad]
  | .option o => o.code :: UInt8.ofNat o.value.length :: o.value

def Item.hasCode (uiOption : UInt8) : Item → Bool
  | .pad => false
  | .option o => o.code = uiOption

def encodeItems (items : List Item) : List UInt8 := items.flatMap Item.encode

/-- The options of a packet: the cookie, the items, the end, and anything
behind it. -/
def optionsField (items : List Item) (fill : List UInt8) : List UInt8 :=
  aucDhcpMagic ++ (encodeItems items ++ dhcpOptEnd :: fill)

/-- Where the first option with a code is in the encoded items. -/
def firstOption (uiOption : UInt8) : List Item → Option Nat
  | [] => none
  | i :: items =>
    if i.hasCode uiOption then some 0 else (firstOption uiOption items).map (i.encode.length + ·)

/-- Where the codes and lengths of the options are, with the items from `p` on. -/
def optionBytes : Nat → List Item → List Nat
  | _, [] => []
  | p, .pad :: items => optionBytes (p + 1) items
  | p, .option o :: items => p :: (p + 1) :: optionBytes (p + (Item.option o).encode.length) items

/-- There is an option with the code, and no pad in front of the first one. -/
def unpadded (uiOption : UInt8) : List Item → Bool
  | [] => false
  | .pad :: _ => false
  | .option o :: items => o.code = uiOption || unpadded uiOption items

variable {m : Memory} {uiOption : UInt8} {ptPacket pucEnd p : Nat} {items : List Item} {fill : List UInt8}

theorem encodeItems_cons (i : Item) (items : List Item) : encodeItems (i :: items) = i.encode ++ encodeItems items :=
  List.flatMap_cons

theorem itemEnd_of_holds {o : DhcpOption} {bs : List UInt8} (h : Holds m p ((Item.option o).encode ++ bs)) :
    m p = o.code ∧ itemEnd m p = p + (Item.option o).encode.length := by
  have hcode := (holds_append.mp h).1
  rw [Item.encode, holds_cons, holds_cons] at hcode
  obtain ⟨hcode, hlen, -⟩ := hcode
  refine ⟨hcode, ?_⟩
  rw [itemEnd, hlen, UInt8.toNat_ofNat', Nat.mod_eq_of_lt o.length_value]
  simp only [Item.encode, List.length_cons]
  omega

theorem length_encode_pos (i : Item) : 0 < i.encode.length := by
  cases i <;> simp [Item.encode]

theorem length_le_encodeItems (items : List Item) : items.length ≤ (encodeItems items).length := by
  induction items with
  | nil => exact le_rfl
  | cons i items ih =>
    have hpos := length_encode_pos i
    rw [encodeItems_cons, List.length_append, List.length_cons]
    omega

theorem le_of_mem_optionBytes {a : Nat} (h : a ∈ optionBytes p items) : p ≤ a := by
  induction items generalizing p with
  | nil => simp [optionBytes] at h
  | cons i items ih =>
    cases i with
    | pad =>
      have hle := ih h
      omega
    | option o =>
      simp only [optionBytes, List.mem_cons] at h
      obtain rfl | rfl | h := h
      · exact le_rfl
      · exact Nat.le_succ p
      · have hle := ih h
        omega

/-- The loop does not go back. -/
theorem le_of_mem_readOptionLoop {n a : Nat} (hend : pucEnd + 257 < 2 ^ 32) (hp : p ≤ pucEnd + 255)
    (ha : a ∈ (readOptionLoop m uiOption pucEnd n p).addresses) : p ≤ a := by
  induction n generalizing p with
  | zero => simp [readOptionLoop] at ha
  | succ n ih =>
    by_cases hlive : p + 2 ≤ pucEnd
    · have hlt := lt_itemEnd m p
      have hle := itemEnd_le m p
      rw [(readOptionLoop_live m uiOption n hend hlive).1, List.mem_cons, List.mem_cons] at ha
      obtain rfl | rfl | ha := ha
      · exact le_rfl
      · exact Nat.le_succ p
      · split_ifs at ha
        · simp at ha
        · have hnext := ih (by omega) ha
          omega
    · rw [(readOptionLoop_dead m uiOption (n + 1) hend (by omega) hp).1] at ha
      simp at ha

theorem mem_of_val_readOptionLoop {n q : Nat} (hend : pucEnd + 257 < 2 ^ 32) (hp : p ≤ pucEnd + 255)
    (h : (readOptionLoop m uiOption pucEnd n p).val = some (some q)) :
    q ∈ (readOptionLoop m uiOption pucEnd n p).addresses := by
  induction n generalizing p with
  | zero => cases h
  | succ n ih =>
    by_cases hlive : p + 2 ≤ pucEnd
    · have hle := itemEnd_le m p
      obtain ⟨haddr, hval⟩ := readOptionLoop_live m uiOption n hend hlive
      rw [hval] at h
      rw [haddr, List.mem_cons, List.mem_cons]
      split_ifs at h ⊢
      · obtain rfl := Option.some.inj (Option.some.inj h)
        exact .inl rfl
      · exact .inr (.inr (ih (by omega) h))
    · exact absurd h ((readOptionLoop_dead m uiOption (n + 1) hend (by omega) hp).2 q)

/-- What the loop has to do with the items from `p` on. -/
def LoopFindsFirst (m : Memory) (uiOption : UInt8) (pucEnd n p : Nat) (items : List Item) : Prop :=
  (readOptionLoop m uiOption pucEnd n p).val = some ((firstOption uiOption items).map (p + ·)) ∧
    ∀ a ∈ (readOptionLoop m uiOption pucEnd n p).addresses, a ∈ optionBytes p items

theorem not_loopFindsFirst {n : Nat} (hend : pucEnd + 257 < 2 ^ 32) (hlive : p + 2 ≤ pucEnd)
    (hout : p ∉ optionBytes p items) : ¬ LoopFindsFirst m uiOption pucEnd (n + 1) p items := by
  rintro ⟨-, hreads⟩
  refine hout (hreads p ?_)
  rw [(readOptionLoop_live m uiOption n hend hlive).1]
  exact List.mem_cons_self

/-- The induction is on the items that are left. -/
theorem loopFindsFirst_iff {n : Nat} (hm : Holds m p (encodeItems items ++ dhcpOptEnd :: fill))
    (hlive : p + (encodeItems items).length + 2 ≤ pucEnd) (hend : pucEnd + 257 < 2 ^ 32)
    (hn : items.length < n) :
    LoopFindsFirst m uiOption pucEnd n p items ↔ unpadded uiOption items = true := by
  induction items generalizing p n with
  | nil =>
    obtain ⟨n, rfl⟩ : ∃ k, n = k + 1 := ⟨n - 1, by omega⟩
    have hout : ¬ LoopFindsFirst m uiOption pucEnd (n + 1) p [] :=
      not_loopFindsFirst hend (show p + 2 ≤ pucEnd from hlive) (by simp [optionBytes])
    simpa [unpadded] using hout
  | cons i items ih =>
    rw [List.length_cons] at hn
    obtain ⟨n, rfl⟩ : ∃ k, n = k + 1 := ⟨n - 1, by omega⟩
    rw [encodeItems_cons, List.length_append] at hlive
    have hpos := length_encode_pos i
    cases i with
    | pad =>
      have hout : p ∉ optionBytes p (.pad :: items) := by
        intro hmem
        have hle := le_of_mem_optionBytes (show p ∈ optionBytes (p + 1) items from hmem)
        omega
      have hmiss : ¬ LoopFindsFirst m uiOption pucEnd (n + 1) p (.pad :: items) :=
        not_loopFindsFirst hend (by omega) hout
      simpa [unpadded] using hmiss
    | option o =>
      rw [encodeItems_cons, List.append_assoc] at hm
      obtain ⟨hcode, hitem⟩ := itemEnd_of_holds hm
      obtain ⟨haddr, hval⟩ := readOptionLoop_live m uiOption n hend (show p + 2 ≤ pucEnd by omega)
      have hnext : p + 2 ≤ itemEnd m p := Nat.le_add_right _ _
      rw [LoopFindsFirst, haddr, hval]
      by_cases ho : o.code = uiOption
      · have hhit : isHit m uiOption pucEnd p = true := decide_eq_true ⟨hcode.trans ho, by omega⟩
        simp [hhit, firstOption, Item.hasCode, unpadded, optionBytes, ho]
      · have hmiss : ¬ isHit m uiOption pucEnd p = true := by
          rw [isHit, decide_eq_true_eq, hcode]
          exact fun h => ho h.1
        have hfirst : (firstOption uiOption (.option o :: items)).map (p + ·) =
            (firstOption uiOption items).map (itemEnd m p + ·) := by
          simp [firstOption, Item.hasCode, ho, hitem, Function.comp_def, Nat.add_assoc]
        have hreads : ∀ a ∈ (readOptionLoop m uiOption pucEnd n (itemEnd m p)).addresses,
            a ∈ optionBytes p (.option o :: items) ↔ a ∈ optionBytes (itemEnd m p) items := by
          intro a ha
          have hle := le_of_mem_readOptionLoop hend (by omega) ha
          have hne : a ≠ p ∧ a ≠ p + 1 := by omega
          simp only [optionBytes, List.mem_cons, hne.1, hne.2, false_or, hitem]
        have hrest := (holds_append.mp hm).2
        rw [← hitem] at hrest
        have hiff := ih (n := n) hrest (by omega) (by omega)
        have hsame : unpadded uiOption (.option o :: items) = unpadded uiOption items := by simp [unpadded, ho]
        have hhead : p ∈ optionBytes p (.option o :: items) ∧ p + 1 ∈ optionBytes p (.option o :: items) := by
          simp [optionBytes]
        rw [if_neg hmiss, hfirst, hsame, ← hiff, LoopFindsFirst, List.forall_mem_cons, List.forall_mem_cons]
        constructor
        · rintro ⟨hval, -, -, hall⟩
          exact ⟨hval, fun a ha => (hreads a ha).mp (hall a ha)⟩
        · rintro ⟨hval, hall⟩
          exact ⟨hval, hhead.1, hhead.2, fun a ha => (hreads a ha).mpr (hall a ha)⟩

/-- The first option with the code is returned, and behind the cookie nothing
is read but codes and lengths of options: no value, no pad, and nothing from
the end on is taken for an option. -/
structure FindsFirst (m : Memory) (ptPacket sizPacket : Nat) (uiOption : UInt8) (items : List Item) : Prop where
  first : dhcpGetOption m ptPacket sizPacket uiOption =
    some ((firstOption uiOption items).map (ptPacket + 240 + ·))
  reads : ∀ a ∈ (readOption m ptPacket sizPacket uiOption).addresses, ptPacket + 240 ≤ a →
    a ∈ optionBytes (ptPacket + 240) items

/-- On well-formed options `dhcp_getOption` is its loop from the first item on. -/
theorem readOption_of_holds {sizPacket : Nat} (uiOption : UInt8)
    (hm : Holds m (ptPacket + 236) (optionsField items fill))
    (hsiz : sizPacket = 236 + (optionsField items fill).length) (h : InMemory ptPacket sizPacket) :
    (readOption m ptPacket sizPacket uiOption).val =
        (readOptionLoop m uiOption (ptPacket + sizPacket + 236) (2 ^ 32) (ptPacket + 240)).val ∧
      (readOption m ptPacket sizPacket uiOption).addresses = List.range' (ptPacket + 236) 4 ++
        (readOptionLoop m uiOption (ptPacket + sizPacket + 236) (2 ^ 32) (ptPacket + 240)).addresses := by
  have hcookie : slice m (ptPacket + 236) 4 = aucDhcpMagic := (holds_append.mp hm).1
  have hread := readOption_eq m uiOption h
  rw [if_pos (by omega)] at hread
  rw [hread, val_bind, addresses_bind, val_readBytes, if_pos hcookie, addresses_readBytes]
  exact ⟨rfl, rfl⟩

/-- The loop has no case for a pad and none for the end. It finds the first
option with the code if no pad is in front of it. If the option is not there,
it takes the end for an option, or a pad in front of the end. -/
theorem dhcpGetOption_iff {sizPacket : Nat} (hm : Holds m (ptPacket + 236) (optionsField items fill))
    (hsiz : sizPacket = 236 + (optionsField items fill).length) (h : InMemory ptPacket sizPacket)
    (uiOption : UInt8) :
    FindsFirst m ptPacket sizPacket uiOption items ↔ unpadded uiOption items = true := by
  obtain ⟨hval, haddr⟩ := readOption_of_holds uiOption hm hsiz h
  have hmem : ptPacket + sizPacket + 493 < 2 ^ 32 := h
  have hitems : Holds m (ptPacket + 240) (encodeItems items ++ dhcpOptEnd :: fill) := (holds_append.mp hm).2
  have hlen : (optionsField items fill).length = 4 + ((encodeItems items).length + (fill.length + 1)) := by
    rw [optionsField, List.length_append, List.length_append, List.length_cons]
    rfl
  have hcount := length_le_encodeItems items
  have hloop : LoopFindsFirst m uiOption (ptPacket + sizPacket + 236) (2 ^ 32) (ptPacket + 240) items ↔
      unpadded uiOption items = true := loopFindsFirst_iff hitems (by omega) (by omega) (by omega)
  rw [← hloop]
  constructor
  · rintro ⟨hfirst, hreads⟩
    rw [← val_readOption, hval] at hfirst
    refine ⟨hfirst, fun a ha => hreads a ?_ (le_of_mem_readOptionLoop (by omega) (by omega) ha)⟩
    rw [haddr]
    exact List.mem_append_right _ ha
  · rintro ⟨hfirst, hreads⟩
    refine ⟨by rw [← val_readOption, hval, hfirst], fun a ha hle => hreads a ?_⟩
    rw [haddr, List.mem_append, List.mem_range'_1] at ha
    exact ha.resolve_left (by omega)

def exampleNetmask : DhcpOption := ⟨1, [255, 255, 255, 0], by decide, by decide, by decide⟩

def exampleMessageType : DhcpOption := ⟨53, [5], by decide, by decide, by decide⟩

/-- A packet at address 1000 with the given options. -/
def examplePacket (items : List Item) : Memory := fun x => (optionsField items []).getD (x - 1236) 0

theorem dhcpGetOption_iff_examplePacket :
    FindsFirst (examplePacket [.option exampleNetmask, .option exampleMessageType]) 1000 250 53
      [.option exampleNetmask, .option exampleMessageType] := by
  have hm : Holds (examplePacket [.option exampleNetmask, .option exampleMessageType]) 1236
    (optionsField [.option exampleNetmask, .option exampleMessageType] []) := rfl
  exact (dhcpGetOption_iff hm rfl (by unfold InMemory; decide) 53).mpr rfl

/-- A pad in front of an option is taken for an option that covers it. -/
theorem pad_hides_option :
    ¬ ∀ (m : Memory) (ptPacket sizPacket : Nat) (items : List Item) (fill : List UInt8) (uiOption : UInt8),
      uiOption ≠ dhcpOptPad → uiOption ≠ dhcpOptEnd → Holds m (ptPacket + 236) (optionsField items fill) →
        sizPacket = 236 + (optionsField items fill).length → InMemory ptPacket sizPacket →
          dhcpGetOption m ptPacket sizPacket uiOption =
            some ((firstOption uiOption items).map (ptPacket + 240 + ·)) := by
  intro hall
  have hm : Holds (examplePacket [.pad, .option exampleMessageType]) 1236
    (optionsField [.pad, .option exampleMessageType] []) := rfl
  have hmem : InMemory 1000 245 := by
    unfold InMemory
    decide
  have hlen : 245 = 236 + (optionsField [.pad, .option exampleMessageType] []).length := rfl
  have hget := hall _ 1000 245 _ [] 53 (by decide) (by decide) hm hlen hmem
  have hnext : itemEnd (examplePacket [.pad, .option exampleMessageType]) 1240 = 1295 := rfl
  have hmiss : isHit (examplePacket [.pad, .option exampleMessageType]) 53 1481 1240 = false := by decide
  have hround := (readOptionLoop_live (examplePacket [.pad, .option exampleMessageType]) 53 (2 ^ 32 - 1)
    (show 1481 + 257 < 2 ^ 32 by decide) (show 1240 + 2 ≤ 1481 by decide)).2
  rw [Nat.sub_add_cancel (by decide), hmiss, hnext] at hround
  rw [← val_readOption, (readOption_of_holds 53 hm hlen hmem).1, hround] at hget
  have hmem := mem_of_val_readOptionLoop (by decide) (by decide) hget
  exact absurd (le_of_mem_readOptionLoop (by decide) (by decide) hmem) (by decide)

end FlashApp.Dhcp
