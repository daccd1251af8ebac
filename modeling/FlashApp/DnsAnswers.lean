import FlashApp.DnsEncode
import FlashApp.UdpChecksum

namespace FlashApp.Dns

open Bytes Eth Fuel Udp

/-- A resource record with an uncompressed owner name. -/
structure Record where
  labels : List (List UInt8)
  rrType : Nat
  rrClass : Nat
  ttl : List UInt8
  data : List UInt8
  isLabel : ∀ label ∈ labels, IsLabel label
  rrType_lt : rrType < 2 ^ 16
  rrClass_lt : rrClass < 2 ^ 16
  length_ttl : ttl.length = 4
  length_data : data.length < 2 ^ 16

def Record.fields (r : Record) : List UInt8 :=
  toBe16 r.rrType ++ (toBe16 r.rrClass ++ (r.ttl ++ (toBe16 r.data.length ++ r.data)))

def Record.encode (r : Record) : List UInt8 := wireName r.labels ++ r.fields

def encodeRecords (records : List Record) : List UInt8 := records.flatMap Record.encode

def Record.ip (r : Record) : Nat :=
  ipAdr (r.data.getD 0 0).toNat (r.data.getD 1 0).toNat (r.data.getD 2 0).toNat (r.data.getD 3 0).toNat

def Record.HasName (pcHostName : CString) (r : Record) : Prop :=
  dottedName r.labels = pcHostName.chars ++ [0x2e]

instance (pcHostName : CString) (r : Record) : Decidable (r.HasName pcHostName) :=
  inferInstanceAs (Decidable (_ = _))

def Record.IsAddress (r : Record) : Prop :=
  r.rrType = dnsQueryTypeA ∧ r.rrClass = dnsQueryClassIn ∧ r.data.length = 4

instance (r : Record) : Decidable r.IsAddress := inferInstanceAs (Decidable (_ ∧ _ ∧ _))

def Record.Fits (pcHostName : CString) (r : Record) : Prop := r.HasName pcHostName ∧ r.IsAddress ∧ r.ip ≠ 0

instance (pcHostName : CString) (r : Record) : Decidable (r.Fits pcHostName) :=
  inferInstanceAs (Decidable (_ ∧ _ ∧ _))

variable {m : Memory} {pcHostName : CString} {r : Record} {rest : List UInt8} {start stop n p ip : Nat}

theorem length_fields (r : Record) : r.fields.length = 10 + r.data.length := by
  simp only [Record.fields, List.length_append, length_toBe16, r.length_ttl]
  omega

theorem length_encode (r : Record) : r.encode.length = (wireName r.labels).length + (10 + r.data.length) := by
  rw [Record.encode, List.length_append, length_fields]

theorem mus2nus_inj {a b : Nat} (ha : a < 2 ^ 16) (hb : b < 2 ^ 16) : mus2nus a = mus2nus b ↔ a = b := by
  constructor
  · intro h
    rw [← mus2nus_mus2nus ha, h, mus2nus_mus2nus hb]
  · exact congrArg mus2nus

theorem get16_of_holds_be (h : Holds m p (toBe16 n)) : get16 m p = mus2nus n := by
  rw [← toLe16_mus2nus] at h
  rw [get16_of_holds h, Nat.mod_eq_of_lt (mus2nus_lt n)]

theorem fields_of_holds (h : Holds m p (r.fields ++ rest)) :
    get16 m (p + usType) = mus2nus r.rrType ∧ get16 m (p + usClass) = mus2nus r.rrClass ∧
      mus2nus (get16 m (p + usAddressLength)) = r.data.length ∧ Holds m (p + sizeofDnsAnswer) r.data := by
  obtain ⟨h, -⟩ := holds_append.mp h
  simp only [Record.fields, holds_append, length_toBe16, r.length_ttl, Nat.add_assoc, Nat.reduceAdd] at h
  obtain ⟨htype, hclass, -, hlen, hdata⟩ := h
  refine ⟨get16_of_holds_be htype, get16_of_holds_be hclass, ?_, hdata⟩
  rw [usAddressLength, get16_of_holds_be hlen, mus2nus_mus2nus r.length_data]

theorem ip_of_holds (hlen : r.data.length = 4) (h : Holds m p r.data) :
    ipAdr (m p).toNat (m (p + 1)).toNat (m (p + 2)).toNat (m (p + 3)).toNat = r.ip := by
  have hdata : [m p, m (p + 1), m (p + 2), m (p + 3)] = r.data := by
    rw [← h, hlen]
    rfl
  rw [Record.ip, ← hdata]
  rfl

theorem matchedAnswer_eq (h : Holds m p (r.fields ++ rest)) (hmem : InMemory start stop)
    (hend : p + r.fields.length ≤ stop) :
    matchedAnswer m p 0 = (some (p + r.fields.length), if r.IsAddress then r.ip else 0) := by
  obtain ⟨htype, hclass, hlen, hdata⟩ := fields_of_holds h
  have hstop := hmem.2
  rw [length_fields] at hend ⊢
  have hnext : add32 p (sizeofDnsAnswer + r.data.length) = p + (10 + r.data.length) :=
    add32_of_lt (show p + (10 + r.data.length) < 2 ^ 32 by omega)
  have hiff : (mus2nus r.rrType = mus2nus dnsQueryTypeA ∧ mus2nus r.rrClass = mus2nus dnsQueryClassIn ∧
      r.data.length = 4) ↔ r.IsAddress := by
    rw [mus2nus_inj r.rrType_lt (by decide), mus2nus_inj r.rrClass_lt (by decide)]
    rfl
  simp only [matchedAnswer, htype, hclass, hlen, hnext, hiff]
  by_cases haddr : r.IsAddress
  · rw [if_pos haddr, if_pos haddr, ip_of_holds haddr.2.2 hdata]
  · rw [if_neg haddr, if_neg haddr]

theorem unpack_record (h : Holds m p (r.encode ++ rest)) (hmem : InMemory start stop)
    (hend : p + r.encode.length ≤ stop) :
    Returns (fun n => unpackEntryRecursive m start stop n p [])
      (some (p + (wireName r.labels).length), dottedName r.labels) := by
  rw [Record.encode, List.append_assoc] at h
  rw [length_encode] at hend
  have hexp := expands_wireName lowOffset start r.isLabel (holds_append.mp h).1
    (show p + (wireName r.labels).length < stop by omega)
  have hret := unpack_of_expands hmem hexp []
  rwa [List.nil_append] at hret

theorem dottedName_ne_nil {labels : List (List UInt8)} (h : labels ≠ []) : dottedName labels ≠ [] := by
  rw [dottedName_eq h]
  simp

theorem parseAnswer_of_hasName (h : Holds m p (r.encode ++ rest)) (hmem : InMemory start stop)
    (hend : p + r.encode.length ≤ stop) (hname : r.HasName pcHostName) :
    Returns (fun n => parseAnswer n pcHostName m start stop p 0)
      (some (p + r.encode.length), if r.IsAddress then r.ip else 0) := by
  have hunpack := unpack_record h hmem hend
  rw [Record.HasName] at hname
  rw [hname] at hunpack
  have hparse := parseAnswer_of_requested pcHostName 0 hunpack
  rw [Record.encode, List.append_assoc] at h
  have hfields := (holds_append.mp h).2
  rw [Record.encode, List.length_append, ← Nat.add_assoc] at hend ⊢
  rwa [matchedAnswer_eq hfields hmem hend] at hparse

/-- The comparison with the memory of the host name finds no other name, as
long as the names have no zero in them. -/
theorem hasName_of_compare (hzero : 0 ∉ pcHostName.chars) (hplain : 0 ∉ dottedName r.labels)
    (hne : r.labels ≠ [])
    (h : (dottedName r.labels).take ((dottedName r.labels).length - 1) ++ [0] =
      slice pcHostName.bytes 0 (dottedName r.labels).length) : r.HasName pcHostName := by
  rw [Record.HasName]
  rw [dottedName_eq hne] at hplain h ⊢
  rw [List.mem_append, not_or] at hplain
  rw [List.length_append, List.length_singleton, Nat.add_sub_cancel, List.take_left] at h
  have hown : Holds pcHostName.bytes 0 ([0x2e].intercalate r.labels ++ [0]) := by
    rw [Holds, List.length_append, List.length_singleton]
    exact h.symm
  have hhost : Holds pcHostName.bytes 0 (pcHostName.chars ++ [0]) := by
    rw [Holds, List.length_append, List.length_singleton]
    exact slice_bytes pcHostName
  rw [eq_of_holds_terminated hplain.1 hzero hown hhost]

theorem parseAnswer_of_otherName (h : Holds m p (r.encode ++ rest)) (hmem : InMemory start stop)
    (hend : p + r.encode.length ≤ stop) (hzero : 0 ∉ pcHostName.chars) (hplain : 0 ∉ dottedName r.labels)
    (hne : r.labels ≠ []) (hname : ¬ r.HasName pcHostName) :
    Returns (fun n => parseAnswer n pcHostName m start stop p 0) (some (p + (wireName r.labels).length), 0) := by
  have hparse := parseAnswer_of_unpack pcHostName 0 (unpack_record h hmem hend) (dottedName_ne_nil hne)
  rwa [if_neg (fun hcmp => hname (hasName_of_compare hzero hplain hne hcmp))] at hparse

theorem parseAnswer_of_noName {q : Option Nat} {text : List UInt8}
    (h : Returns (fun n => unpackEntryRecursive m start stop n p []) (q, text)) (hq : q = none ∨ text = []) :
    Returns (fun n => parseAnswer n pcHostName m start stop p 0) (none, 0) := by
  obtain ⟨N, h⟩ := h
  refine ⟨N, fun n hn => ?_⟩
  simp only [parseAnswer, h n hn, Option.map_some]
  obtain rfl | rfl := hq
  · rfl
  · cases q with
    | none => rfl
    | some q => rfl

theorem parseAnswers_done {q : Option Nat}
    (h : Returns (fun n => parseAnswer n pcHostName m start stop p 0) (q, ip)) (hdone : q = none ∨ ip ≠ 0) :
    Returns (fun n => parseAnswers pcHostName m start stop n p) ip := by
  apply h.succ
  intro n hn
  rw [parseAnswers, hn]
  obtain rfl | hip := hdone
  · rfl
  · cases ip with
    | zero => exact absurd rfl hip
    | succ ip =>
      cases q with
      | none => rfl
      | some q => rfl

theorem parseAnswers_next {q : Nat}
    (h : Returns (fun n => parseAnswer n pcHostName m start stop p 0) (some q, 0)) :
    Returns (fun n => parseAnswers pcHostName m start stop n p) ip ↔
      Returns (fun n => parseAnswers pcHostName m start stop n q) ip := by
  obtain ⟨N, h⟩ := h
  apply returns_succ_iff (N := N)
  intro n hn
  have hstep : parseAnswer n pcHostName m start stop p 0 = some (some q, 0) := h n hn
  rw [parseAnswers, hstep]
  rfl

/-- A name of more characters does not fit in the buffer. -/
def Record.NameFits (r : Record) : Prop := (dottedName r.labels).length ≤ 64

instance (r : Record) : Decidable r.NameFits := inferInstanceAs (Decidable (_ ≤ _))

/-- Behind another name the loop goes on with the type of the record, where it
finds no name. -/
def Record.Stops (r : Record) : Prop :=
  r.labels = [] ∨
    0 ∉ dottedName r.labels ∧ (r.rrType < 0x100 ∨ 0x4000 ≤ r.rrType ∧ r.rrType < 0xc000)

instance (r : Record) : Decidable r.Stops := inferInstanceAs (Decidable (_ ∨ _ ∧ _))

theorem unpack_type (h : Holds m p (r.fields ++ rest)) (hmem : InMemory start stop)
    (hend : p + r.fields.length ≤ stop)
    (htype : r.rrType < 0x100 ∨ 0x4000 ≤ r.rrType ∧ r.rrType < 0xc000) :
    ∃ q, Returns (fun n => unpackEntryRecursive m start stop n p []) (q, []) := by
  have hbyte : m p = UInt8.ofNat (r.rrType / 2 ^ 8) := by
    rw [Record.fields, List.append_assoc] at h
    exact (holds_cons.mp (holds_append.mp h).1).1
  obtain ⟨-, hstop⟩ := hmem
  rw [length_fields] at hend
  obtain hlow | ⟨hlo, hhi⟩ := htype
  · have hdiv : r.rrType / 2 ^ 8 = 0 := Nat.div_eq_of_lt hlow
    have hz : m p = 0 := by
      rw [hbyte, hdiv]
      rfl
    exact ⟨_, returns_of_succ fun n => unpack_root hz (by omega)⟩
  · have hdiv : r.rrType / 2 ^ 8 < 2 ^ 8 := by omega
    have hnat : (m p).toNat = r.rrType / 2 ^ 8 := by
      rw [hbyte, UInt8.toNat_ofNat', Nat.mod_eq_of_lt hdiv]
    have hge : 0x40 ≤ m p := by
      rw [UInt8.le_iff_toNat_le, hnat]
      exact (Nat.le_div_iff_mul_le (by decide)).mpr hlo
    have hlt : m p < 0xc0 := by
      rw [UInt8.lt_iff_toNat_lt, hnat]
      exact (Nat.div_lt_iff_lt_mul (by decide)).mpr hhi
    exact ⟨none, returns_of_succ fun n => unpack_invalid hge hlt⟩

theorem answers_of_fits (h : Holds m p (r.encode ++ rest)) (hmem : InMemory start stop)
    (hend : p + r.encode.length ≤ stop) (hfits : r.Fits pcHostName) :
    Returns (fun n => parseAnswers pcHostName m start stop n p) r.ip := by
  obtain ⟨hname, haddr, hip⟩ := hfits
  have hparse := parseAnswer_of_hasName h hmem hend hname
  rw [if_pos haddr] at hparse
  exact parseAnswers_done hparse (.inr hip)

theorem answers_skip (h : Holds m p (r.encode ++ rest)) (hmem : InMemory start stop)
    (hend : p + r.encode.length ≤ stop) (hname : r.HasName pcHostName) (hfits : ¬ r.Fits pcHostName) :
    Returns (fun n => parseAnswers pcHostName m start stop n p) ip ↔
      Returns (fun n => parseAnswers pcHostName m start stop n (p + r.encode.length)) ip := by
  apply parseAnswers_next
  have hparse := parseAnswer_of_hasName h hmem hend hname
  have hip : (if r.IsAddress then r.ip else 0) = 0 := by
    split_ifs with haddr
    · by_contra hip
      exact hfits ⟨hname, haddr, hip⟩
    · rfl
  rwa [hip] at hparse

theorem answers_stop (h : Holds m p (r.encode ++ rest)) (hmem : InMemory start stop)
    (hend : p + r.encode.length ≤ stop) (hzero : 0 ∉ pcHostName.chars) (hname : ¬ r.HasName pcHostName)
    (hstops : r.Stops) : Returns (fun n => parseAnswers pcHostName m start stop n p) 0 := by
  by_cases hnil : r.labels = []
  · have hroot := unpack_record h hmem hend
    rw [hnil] at hroot
    exact parseAnswers_done (parseAnswer_of_noName hroot (.inr rfl)) (.inl rfl)
  obtain hnil' | ⟨hplain, htype⟩ := hstops
  · exact absurd hnil' hnil
  rw [parseAnswers_next (parseAnswer_of_otherName h hmem hend hzero hplain hnil hname)]
  rw [Record.encode, List.append_assoc] at h
  rw [Record.encode, List.length_append, ← Nat.add_assoc] at hend
  obtain ⟨q, hq⟩ := unpack_type (holds_append.mp h).2 hmem hend htype
  exact parseAnswers_done (parseAnswer_of_noName hq (.inr rfl)) (.inl rfl)

theorem unpack_succ {aucBuffer : List UInt8} {q : Option Nat × List UInt8}
    (h : unpackEntryRecursive m start stop n p aucBuffer = some q) :
    unpackEntryRecursive m start stop (n + 1) p aucBuffer = some q := by
  induction n generalizing p aucBuffer q with
  | zero => cases h
  | succ n ih =>
    rw [unpackEntryRecursive] at h ⊢
    simp only at h ⊢
    by_cases hz : m p = 0
    · rw [if_pos hz] at h ⊢
      exact h
    rw [if_neg hz] at h ⊢
    by_cases hl : m p < 0x40
    · rw [if_pos hl] at h ⊢
      by_cases hnext : add32 (add32 p 1) (m p).toNat ≠ 0 ∧ add32 (add32 p 1) (m p).toNat < stop
      · rw [if_pos hnext] at h ⊢
        exact ih h
      · rw [if_neg hnext] at h ⊢
        exact h
    rw [if_neg hl] at h ⊢
    by_cases hi : m p < 0xc0
    · rw [if_pos hi] at h ⊢
      exact h
    · rw [if_neg hi] at h ⊢
      obtain ⟨r, hr, hmap⟩ := Option.map_eq_some_iff.mp h
      rw [ih hr, Option.map_some, hmap]

theorem stable_unpack (m : Memory) (start stop p : Nat) (aucBuffer : List UInt8) :
    Stable (fun n => unpackEntryRecursive m start stop n p aucBuffer) := fun _ _ h => unpack_succ h

/-- The bytes behind the packet, read as a name, come to an end and fit in the
buffer. -/
def Ends (m : Memory) (start stop : Nat) : Prop :=
  ∃ q text, Returns (fun n => unpackEntryRecursive m start stop n stop []) (q, text) ∧ text.length ≤ 64

/-- They come to an end but do not fit. -/
def Overruns (m : Memory) (start stop : Nat) : Prop :=
  ∃ q text, Returns (fun n => unpackEntryRecursive m start stop n stop []) (q, text) ∧ 64 < text.length

theorem answers_of_ends (hmem : InMemory start stop) (h : Ends m start stop) :
    Returns (fun n => parseAnswers pcHostName m start stop n stop) 0 := by
  obtain ⟨q, text, hret, -⟩ := h
  have hnone : q = none := by
    cases q with
    | none => rfl
    | some q =>
      obtain ⟨n, hn⟩ := hret.exists
      have hstop := hmem.2
      obtain ⟨text', -, hexp⟩ := expands_of_unpack hmem (by omega) hn
      have hlo := hexp.lt
      have hhi := hexp.lt_bound
      omega
  exact parseAnswers_done (parseAnswer_of_noName hret (.inl hnone)) (.inl rfl)

theorem ends_of_answers (h : Returns (fun n => parseAnswers pcHostName m start stop n stop) ip)
    (hroom : ¬ Overruns m start stop) : Ends m start stop := by
  obtain ⟨n, hn⟩ := h.exists
  cases n with
  | zero => cases hn
  | succ n =>
    cases hunpack : unpackEntryRecursive m start stop n stop [] with
    | none =>
      rw [parseAnswers, parseAnswer, hunpack] at hn
      cases hn
    | some r =>
      obtain ⟨q, text⟩ := r
      have hret := (stable_unpack m start stop stop []).returns hunpack
      refine ⟨q, text, hret, Nat.not_lt.mp fun hlong => ?_⟩
      exact hroom ⟨q, text, hret, hlong⟩

/-- The address of the first record that is an answer to the request. -/
def addressOf (pcHostName : CString) (records : List Record) : Option Nat :=
  (records.find? fun r => r.Fits pcHostName).map Record.ip

/-- How the records have to be for the loop to find the answer: the ones in
front of it have the requested name. If there is no answer, the loop may also
end at the first record of another name. -/
def Readable (pcHostName : CString) (ends : Prop) : List Record → Prop
  | [] => ends
  | r :: records =>
    r.NameFits ∧
      (r.HasName pcHostName ∧ (r.Fits pcHostName ∨ Readable pcHostName ends records) ∨
        ¬ r.HasName pcHostName ∧ r.Stops ∧ ∀ r' ∈ records, ¬ r'.Fits pcHostName)

/-- The loop gets to a name that is too long, or to a record of another name
that has a zero in its name or whose type is read as a label or a pointer. -/
def Strays (pcHostName : CString) (overruns : Prop) : List Record → Prop
  | [] => overruns
  | r :: records =>
    ¬ r.NameFits ∨ r.HasName pcHostName ∧ ¬ r.Fits pcHostName ∧ Strays pcHostName overruns records ∨
      ¬ r.HasName pcHostName ∧ ¬ r.Stops

variable {records : List Record}

theorem addressOf_of_fits (h : r.Fits pcHostName) : addressOf pcHostName (r :: records) = some r.ip := by
  rw [addressOf, List.find?_cons_of_pos (by simpa using h), Option.map_some]

theorem addressOf_of_not_fits (h : ¬ r.Fits pcHostName) :
    addressOf pcHostName (r :: records) = addressOf pcHostName records := by
  rw [addressOf, List.find?_cons_of_neg (by simpa using h), addressOf]

theorem addressOf_eq_none : addressOf pcHostName records = none ↔ ∀ r ∈ records, ¬ r.Fits pcHostName := by
  rw [addressOf, Option.map_eq_none_iff, List.find?_eq_none]
  simp only [decide_eq_true_eq]

theorem addressOf_ne_zero (h : addressOf pcHostName records = some ip) : ip ≠ 0 := by
  obtain ⟨r, hr, rfl⟩ := Option.map_eq_some_iff.mp h
  have hfits := List.find?_some hr
  rw [decide_eq_true_eq] at hfits
  exact hfits.2.2

theorem addressOf_getD_zero :
    (addressOf pcHostName records).getD 0 = 0 ↔ ∀ r ∈ records, ¬ r.Fits pcHostName := by
  rw [← addressOf_eq_none]
  cases h : addressOf pcHostName records with
  | none => simp
  | some ip =>
    have hip := addressOf_ne_zero h
    simpa using hip

/-- The induction is on the records that are left at the position `p`. -/
theorem answers_of_readable (hmem : InMemory start stop) (hzero : 0 ∉ pcHostName.chars)
    (hm : Holds m p (encodeRecords records)) (hend : p + (encodeRecords records).length = stop)
    (h : Readable pcHostName (Ends m start stop) records) :
    Returns (fun n => parseAnswers pcHostName m start stop n p) ((addressOf pcHostName records).getD 0) := by
  induction records generalizing p with
  | nil =>
    obtain rfl : p = stop := hend
    exact answers_of_ends hmem h
  | cons r records ih =>
    rw [encodeRecords, List.flatMap_cons] at hm hend
    rw [List.length_append, ← Nat.add_assoc] at hend
    obtain ⟨-, ⟨hname, h⟩ | ⟨hname, hstops, hnone⟩⟩ := h
    · by_cases hfits : r.Fits pcHostName
      · rw [addressOf_of_fits hfits]
        exact answers_of_fits hm hmem (by omega) hfits
      · have hrest := ih (holds_append.mp hm).2 hend (h.resolve_left hfits)
        rw [addressOf_of_not_fits hfits]
        exact (answers_skip hm hmem (by omega) hname hfits).mpr hrest
    · have hfits : ¬ r.Fits pcHostName := fun hfits => hname hfits.1
      rw [addressOf_of_not_fits hfits, addressOf_getD_zero.mpr hnone]
      exact answers_stop hm hmem (by omega) hzero hname hstops

theorem readable_of_answers (hmem : InMemory start stop) (hzero : 0 ∉ pcHostName.chars)
    (hm : Holds m p (encodeRecords records)) (hend : p + (encodeRecords records).length = stop)
    (hstray : ¬ Strays pcHostName (Overruns m start stop) records)
    (h : Returns (fun n => parseAnswers pcHostName m start stop n p) ((addressOf pcHostName records).getD 0)) :
    Readable pcHostName (Ends m start stop) records := by
  induction records generalizing p with
  | nil =>
    obtain rfl : p = stop := hend
    exact ends_of_answers h hstray
  | cons r records ih =>
    rw [encodeRecords, List.flatMap_cons] at hm hend
    rw [List.length_append, ← Nat.add_assoc] at hend
    simp only [Strays, not_or, not_and, not_not] at hstray
    obtain ⟨hroom, hskip, hstops⟩ := hstray
    refine ⟨hroom, ?_⟩
    by_cases hname : r.HasName pcHostName
    · refine .inl ⟨hname, ?_⟩
      by_cases hfits : r.Fits pcHostName
      · exact .inl hfits
      · rw [addressOf_of_not_fits hfits, answers_skip hm hmem (by omega) hname hfits] at h
        exact .inr (ih (holds_append.mp hm).2 hend (hskip hname hfits) h)
    · have hfits : ¬ r.Fits pcHostName := fun hfits => hname hfits.1
      have hzero := h.unique (answers_stop hm hmem (by omega) hzero hname (hstops hname))
      rw [addressOf_of_not_fits hfits, addressOf_getD_zero] at hzero
      exact .inr ⟨hname, hstops hname, hzero⟩

end FlashApp.Dns
