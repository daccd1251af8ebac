import FlashApp.DnsAnswers
import FlashApp.DnsRuns

namespace FlashApp.Dns

open Bytes Eth Fuel Udp

/-- A response with one question. The records of its three sections are one
list. -/
structure Response where
  usTransactionId : Nat
  uiFlags : Nat
  usAnswerRRs : Nat
  usAuthorityRRs : Nat
  usAdditionalRRs : Nat
  question : List (List UInt8)
  questionFields : List UInt8
  records : List Record
  isLabel : ∀ label ∈ question, IsLabel label
  length_questionFields : questionFields.length = 4
  uiFlags_lt : uiFlags < 2 ^ 16
  isResponse : uiFlags &&& mskDnsOptionResponse ≠ 0
  usAnswerRRs_lt : usAnswerRRs < 2 ^ 16
  usAuthorityRRs_lt : usAuthorityRRs < 2 ^ 16
  usAdditionalRRs_lt : usAdditionalRRs < 2 ^ 16
  length_records : usAnswerRRs + usAuthorityRRs + usAdditionalRRs = records.length

def Response.body (R : Response) : List UInt8 :=
  wireName R.question ++ (R.questionFields ++ encodeRecords R.records)

def Response.encode (R : Response) : List UInt8 :=
  toBe16 R.usTransactionId ++ (toBe16 R.uiFlags ++ (toBe16 1 ++ (toBe16 R.usAnswerRRs ++
    (toBe16 R.usAuthorityRRs ++ (toBe16 R.usAdditionalRRs ++ R.body)))))

def Response.IsOk (R : Response) : Prop :=
  R.uiFlags &&& mskDnsOptionOpcode = 0 ∧ R.uiFlags &&& mskDnsOptionTruncated = 0 ∧
    R.uiFlags &&& mskDnsOptionReplyCode = dnsReplycodeOk

/-- The state behind the loop over the answers. -/
def Client.resolved (s : Client) (ulHostIp : Nat) : Client :=
  { s with ulHostIp, tState := if ulHostIp = 0 then .notFound else .ok }

/-- The handler returns with the address of the first record that is an answer
to the request, or without one if there is none. -/
def Answered (s : Client) (m : Memory) (pvData sizDnsLength : Nat) (records : List Record) : Prop :=
  ∃ s', Returns (fun n => dnsRecHandler n s m pvData sizDnsLength) s' ∧
    match addressOf s.hostName records with
    | some ulHostIp => s'.tState = .ok ∧ s'.ulHostIp = ulHostIp
    | none => s'.tState = .notFound

/-- The client waits for the response, and its packet is in memory. -/
structure Receives (s : Client) (m : Memory) (pvData : Nat) (R : Response) : Prop where
  tState_eq : s.tState = .request
  usTransactionId_eq : R.usTransactionId = s.usDnsTransactionIdCnt
  noZero : 0 ∉ s.hostName.chars
  holds : Holds m (pvData + uUdpData) R.encode
  inMemory : InMemory (pvData + uUdpData) (pvData + uUdpData + R.encode.length)

def Response.Readable (R : Response) (s : Client) (m : Memory) (pvData : Nat) : Prop :=
  R.IsOk ∧ (R.records ≠ [] →
    Dns.Readable s.hostName (Ends m (pvData + uUdpData) (pvData + uUdpData + R.encode.length)) R.records)

/-- The loop over the answers is reached, and leaves the records. -/
def Response.Strays (R : Response) (s : Client) (m : Memory) (pvData : Nat) : Prop :=
  R.IsOk ∧ R.records ≠ [] ∧
    Dns.Strays s.hostName (Overruns m (pvData + uUdpData) (pvData + uUdpData + R.encode.length)) R.records

variable {R : Response} {s : Client} {m : Memory} {labels : List (List UInt8)} {stop p pvData ip : Nat}

theorem length_response (R : Response) : R.encode.length = 12 + R.body.length := by
  simp only [Response.encode, List.length_append, length_toBe16]
  omega

theorem length_body (R : Response) :
    R.body.length = (wireName R.question).length + 4 + (encodeRecords R.records).length := by
  simp only [Response.body, List.length_append, R.length_questionFields]
  omega

theorem header_of_holds (h : Holds m p R.encode) :
    get16 m (p + usTransactionId) = mus2nus R.usTransactionId ∧ mus2nus (get16 m (p + usFlags)) = R.uiFlags ∧
      get16 m (p + usQuestions) = mus2nus 1 ∧ get16 m (p + usAnswerRRs) = mus2nus R.usAnswerRRs ∧
      get16 m (p + usAuthorityRRs) = mus2nus R.usAuthorityRRs ∧
      get16 m (p + usAdditionalRRs) = mus2nus R.usAdditionalRRs ∧ Holds m (p + sizeofDnsPacket) R.body := by
  simp only [Response.encode, holds_append, length_toBe16, Nat.add_assoc, Nat.reduceAdd] at h
  obtain ⟨hid, hflags, hquestions, hanswer, hauthority, hadditional, hbody⟩ := h
  refine ⟨get16_of_holds_be hid, ?_, get16_of_holds_be hquestions, get16_of_holds_be hanswer,
    get16_of_holds_be hauthority, get16_of_holds_be hadditional, hbody⟩
  rw [usFlags, get16_of_holds_be hflags, mus2nus_mus2nus R.uiFlags_lt]

theorem mus2nus_eq_zero {a : Nat} (ha : a < 2 ^ 16) : mus2nus a = 0 ↔ a = 0 :=
  mus2nus_inj (b := 0) ha (by decide)

theorem counts_eq_zero (R : Response) :
    mus2nus R.usAnswerRRs ||| mus2nus R.usAuthorityRRs ||| mus2nus R.usAdditionalRRs = 0 ↔ R.records = [] := by
  have hlen := R.length_records
  rw [Nat.or_eq_zero_iff, Nat.or_eq_zero_iff, mus2nus_eq_zero R.usAnswerRRs_lt,
    mus2nus_eq_zero R.usAuthorityRRs_lt, mus2nus_eq_zero R.usAdditionalRRs_lt, ← List.length_eq_zero_iff]
  omega

theorem dnsRecHandler_response (hr : Receives s m pvData R) (hok : R.IsOk) (n : Nat) :
    dnsRecHandler n s m pvData R.encode.length =
      if R.records = [] then some { s with tState := .notFound }
      else dnsProcessAnswers n s m (pvData + uUdpData) R.encode.length := by
  obtain ⟨hopcode, htruncated, hreply⟩ := hok
  obtain ⟨hreq, hid, -, hm, -⟩ := hr
  obtain ⟨hm, hflags, hquestions, hanswer, hauthority, hadditional, -⟩ := header_of_holds hm
  have hsiz : ¬ R.encode.length < sizeofDnsPacket := by
    rw [length_response, sizeofDnsPacket]
    omega
  simp only [dnsRecHandler, dnsProcessPacket, hsiz, hreq, hm, hid, hflags, hquestions, hanswer, hauthority,
    hadditional, R.isResponse, hopcode, htruncated, hreply, counts_eq_zero, ne_eq, not_true_eq_false,
    ↓reduceIte]

/-- Any other response is turned away: it is ignored, or ends the request with
an error. -/
theorem not_answered_of_not_isOk (hr : Receives s m pvData R) (hok : ¬ R.IsOk) :
    ¬ Answered s m pvData R.encode.length R.records := by
  obtain ⟨hreq, hid, -, hm, -⟩ := hr
  obtain ⟨hm, hflags, -⟩ := header_of_holds hm
  have hsiz : ¬ R.encode.length < sizeofDnsPacket := by
    rw [length_response, sizeofDnsPacket]
    omega
  have hturned : ∃ s', s'.tState ≠ .ok ∧ s'.tState ≠ .notFound ∧
      ∀ n, dnsRecHandler n s m pvData R.encode.length = some s' := by
    simp only [dnsRecHandler, dnsProcessPacket, hsiz, hreq, hm, hid, hflags, R.isResponse, ne_eq, not_true_eq_false,
      ↓reduceIte]
    by_cases hopcode : R.uiFlags &&& mskDnsOptionOpcode = 0
    · by_cases htruncated : R.uiFlags &&& mskDnsOptionTruncated = 0
      · have hreply : ¬ R.uiFlags &&& mskDnsOptionReplyCode = dnsReplycodeOk :=
          fun hreply => hok ⟨hopcode, htruncated, hreply⟩
        exact ⟨{ s with tState := .error }, by simp, by simp, fun n => by simp [hopcode, htruncated, hreply]⟩
      · exact ⟨s, by simp [hreq], by simp [hreq], fun n => by simp [hopcode, htruncated]⟩
    · exact ⟨s, by simp [hreq], by simp [hreq], fun n => by simp [hopcode]⟩
  obtain ⟨s', hne, hne', hs'⟩ := hturned
  rintro ⟨s'', hret, hans⟩
  obtain rfl := hret.unique (returns_of_succ fun n => hs' (n + 1))
  cases haddr : addressOf s.hostName R.records with
  | none =>
    rw [haddr] at hans
    exact hne' hans
  | some ulHostIp =>
    rw [haddr] at hans
    exact hne hans.1

theorem skipChunks_wireName (hlabels : ∀ label ∈ labels, IsLabel label) (hm : Holds m p (wireName labels))
    (hend : p + (wireName labels).length < stop) (hstop : stop < 2 ^ 32) :
    Returns (fun n => skipChunks m stop n p) (p + (wireName labels).length) := by
  induction labels generalizing p with
  | nil =>
    have hp : m p = 0 := (holds_cons.mp hm).1
    have hone : add32 p 1 = p + 1 := add32_of_lt (by omega)
    apply returns_of_succ
    intro n
    simp only [skipChunks, hp, hone, UInt8.toNat_zero, ne_eq, not_true_eq_false, and_false, ↓reduceIte]
    rw [add32_zero (by omega)]
    rfl
  | cons label labels ih =>
    rw [List.forall_mem_cons] at hlabels
    obtain ⟨hlabel, hlabels⟩ := hlabels
    obtain ⟨hlen, -, hrest⟩ := holds_wireName_cons hlabel hm
    rw [length_wireName_cons, ← Nat.add_assoc, ← Nat.add_assoc] at hend ⊢
    have hone : add32 p 1 = p + 1 := add32_of_lt (by omega)
    have hnext : add32 (p + 1) label.length = p + 1 + label.length := add32_of_lt (by omega)
    have hmore : p + 1 + label.length < stop ∧ m p ≠ 0 := by
      refine ⟨by omega, fun hz => ?_⟩
      rw [hz] at hlen
      exact absurd hlen (by simpa using hlabel.1.ne)
    apply (ih hlabels hrest hend).succ
    intro n hn
    simp only [skipChunks, hlen, hone, hnext]
    rw [if_pos hmore]
    exact hn

theorem length_encodeRecords_pos {records : List Record} (hne : records ≠ []) :
    0 < (encodeRecords records).length := by
  obtain ⟨r, records, rfl⟩ := List.exists_cons_of_ne_nil hne
  rw [encodeRecords, List.flatMap_cons, List.length_append, length_encode]
  omega

theorem skipQuery_response (hm : Holds m p R.body) (hend : p + R.body.length = stop) (hstop : stop < 2 ^ 32)
    (hne : R.records ≠ []) :
    Returns (fun n => skipQuery n m p stop) (some (p + ((wireName R.question).length + 4))) := by
  have hpos := length_encodeRecords_pos hne
  rw [length_body] at hend
  obtain ⟨N, hskip⟩ := skipChunks_wireName R.isLabel (holds_append.mp hm).1
    (show p + (wireName R.question).length < stop by omega) hstop
  refine ⟨N, fun n hn => ?_⟩
  have hfour : add32 (p + (wireName R.question).length) 4 = p + ((wireName R.question).length + 4) := by
    rw [← Nat.add_assoc]
    exact add32_of_lt (by omega)
  simp only [skipQuery, hskip n hn, Option.map_some, hfour]
  rw [if_neg (by omega)]

theorem resolved_injective (s : Client) : Function.Injective s.resolved :=
  fun _ _ h => congrArg Client.ulHostIp h

theorem dnsProcessAnswers_response {s' : Client} {start siz : Nat} (hsiz : siz = R.encode.length)
    (hmem : InMemory start (start + siz)) (hm : Holds m (start + sizeofDnsPacket) R.body)
    (hne : R.records ≠ []) :
    Returns (fun n => dnsProcessAnswers n s m start siz) s' ↔
      ∃ ip, Returns (fun n => parseAnswers s.hostName m start (start + siz) n
        (start + sizeofDnsPacket + ((wireName R.question).length + 4))) ip ∧ s.resolved ip = s' := by
  obtain ⟨-, hstop⟩ := hmem
  have hstop' : add32 start siz = start + siz := add32_of_lt (by omega)
  have hend : start + sizeofDnsPacket + R.body.length = start + siz := by
    rw [hsiz, length_response, sizeofDnsPacket]
    omega
  obtain ⟨N, hskip⟩ := skipQuery_response hm hend (by omega) hne
  rw [← returns_map (resolved_injective s)]
  apply returns_congr (N := N)
  intro n hn
  have hquery := hskip n hn
  simp only at hquery
  simp only [dnsProcessAnswers, hstop', hquery]
  rfl

/-- The state is the right one exactly if the loop has found the address. -/
theorem resolved_iff (s : Client) (ip : Nat) (records : List Record) :
    (match addressOf s.hostName records with
      | some ulHostIp => (s.resolved ip).tState = .ok ∧ (s.resolved ip).ulHostIp = ulHostIp
      | none => (s.resolved ip).tState = .notFound) ↔ ip = (addressOf s.hostName records).getD 0 := by
  cases h : addressOf s.hostName records with
  | none =>
    by_cases hip : ip = 0
    · simp [Client.resolved, hip]
    · simp [Client.resolved, hip]
  | some ulHostIp =>
    have hne := addressOf_ne_zero h
    by_cases hip : ip = 0
    · simp [Client.resolved, hip, hne.symm]
    · simp [Client.resolved, hip]

theorem answered_iff_answers (hr : Receives s m pvData R) (hok : R.IsOk) (hne : R.records ≠ []) :
    Answered s m pvData R.encode.length R.records ↔
      Returns (fun n => parseAnswers s.hostName m (pvData + uUdpData) (pvData + uUdpData + R.encode.length) n
        (pvData + uUdpData + sizeofDnsPacket + ((wireName R.question).length + 4)))
        ((addressOf s.hostName R.records).getD 0) := by
  obtain ⟨-, -, -, -, -, -, hbody⟩ := header_of_holds hr.holds
  simp only [Answered, dnsRecHandler_response hr hok, if_neg hne,
    dnsProcessAnswers_response rfl hr.inMemory hbody hne]
  constructor
  · rintro ⟨s', ⟨ip, hret, rfl⟩, hs'⟩
    rwa [← (resolved_iff s ip R.records).mp hs']
  · intro hret
    exact ⟨_, ⟨_, hret, rfl⟩, (resolved_iff s _ R.records).mpr rfl⟩

theorem answered_nil (hr : Receives s m pvData R) (hok : R.IsOk) (hnil : R.records = []) :
    Answered s m pvData R.encode.length R.records := by
  refine ⟨{ s with tState := .notFound }, returns_of_succ fun n => ?_, ?_⟩
  · rw [dnsRecHandler_response hr hok, if_pos hnil]
  · rw [hnil]
    rfl

theorem holds_records {start : Nat} (hm : Holds m start R.encode) :
    Holds m (start + sizeofDnsPacket + ((wireName R.question).length + 4)) (encodeRecords R.records) ∧
      start + sizeofDnsPacket + ((wireName R.question).length + 4) + (encodeRecords R.records).length =
        start + R.encode.length := by
  obtain ⟨-, -, -, -, -, -, hbody⟩ := header_of_holds hm
  rw [Response.body, holds_append, holds_append, R.length_questionFields,
    Nat.add_assoc (start + sizeofDnsPacket)] at hbody
  refine ⟨hbody.2.2, ?_⟩
  rw [length_response, length_body, sizeofDnsPacket]
  omega

/-- The handler finds the first answer if the response has no error and its
records are readable. The converse holds as long as the loop does not stray
into the fields of a record. -/
theorem answered_iff_readable (hr : Receives s m pvData R) :
    (R.Readable s m pvData → Answered s m pvData R.encode.length R.records) ∧
      (¬ R.Strays s m pvData → Answered s m pvData R.encode.length R.records → R.Readable s m pvData) := by
  obtain ⟨hrecords, hend⟩ := holds_records hr.holds
  constructor
  · rintro ⟨hok, hread⟩
    by_cases hnil : R.records = []
    · exact answered_nil hr hok hnil
    · rw [answered_iff_answers hr hok hnil]
      exact answers_of_readable hr.inMemory hr.noZero hrecords hend (hread hnil)
  · intro hstray hans
    by_cases hok : R.IsOk
    · refine ⟨hok, fun hne => ?_⟩
      rw [answered_iff_answers hr hok hne] at hans
      exact readable_of_answers hr.inMemory hr.noZero hrecords hend (fun h => hstray ⟨hok, hne, h⟩) hans
    · exact absurd hans (not_answered_of_not_isOk hr hok)

def exampleWaiting : Client :=
  { exampleStatics with tState := .request, usDnsTransactionIdCnt := 0x1234, pcHostName := some exampleName }

def exampleRecord (label : List UInt8) (hlabel : IsLabel label) (rrType : Fin 256) (data : List UInt8)
    (hdata : data.length < 2 ^ 16) : Record where
  labels := [label]
  rrType := rrType
  rrClass := 1
  ttl := [0, 0, 0, 60]
  data := data
  isLabel := List.forall_mem_singleton.mpr hlabel
  rrType_lt := Nat.lt_of_lt_of_le rrType.isLt (by decide)
  rrClass_lt := by decide
  length_ttl := rfl
  length_data := hdata

def tftpAddress : Record := exampleRecord [0x74, 0x66, 0x74, 0x70] ⟨by decide, by decide⟩ 1 [192, 168, 0, 1] (by decide)

def tftpText : Record := exampleRecord [0x74, 0x66, 0x74, 0x70] ⟨by decide, by decide⟩ 16 [1, 0x61] (by decide)

def nsAddress : Record := exampleRecord [0x6e, 0x73] ⟨by decide, by decide⟩ 1 [192, 168, 0, 9] (by decide)

def exampleResponse (r r' : Record) : Response where
  usTransactionId := 0x1234
  uiFlags := 0x8180
  usAnswerRRs := 2
  usAuthorityRRs := 0
  usAdditionalRRs := 0
  question := [[0x74, 0x66, 0x74, 0x70]]
  questionFields := [0, 1, 0, 1]
  records := [r, r']
  isLabel := List.forall_mem_singleton.mpr ⟨by decide, by decide⟩
  length_questionFields := rfl
  uiFlags_lt := by decide
  isResponse := by decide
  usAnswerRRs_lt := by decide
  usAuthorityRRs_lt := by decide
  usAdditionalRRs_lt := by decide
  length_records := rfl

theorem isOk_exampleResponse (r r' : Record) : (exampleResponse r r').IsOk := by
  have hflags : (exampleResponse r r').uiFlags = 0x8180 := rfl
  rw [Response.IsOk, hflags]
  decide

def Response.packet (R : Response) : Memory := store (fun _ => 0) uUdpData R.encode

theorem receives_exampleResponse {r r' : Record} (hlen : (exampleResponse r r').encode.length < 2 ^ 16) :
    Receives exampleWaiting (exampleResponse r r').packet 0 (exampleResponse r r') where
  tState_eq := rfl
  usTransactionId_eq := rfl
  noZero := by decide
  holds := holds_store _ _ _
  inMemory := ⟨by omega, by rw [uUdpData]; omega⟩

theorem answered_iff_readable_exampleResponse :
    Answered exampleWaiting (exampleResponse tftpText tftpAddress).packet 0
      (exampleResponse tftpText tftpAddress).encode.length [tftpText, tftpAddress] := by
  apply (answered_iff_readable (receives_exampleResponse (by decide))).1
  refine ⟨isOk_exampleResponse _ _, fun _ => ?_⟩
  have hfits : tftpAddress.Fits exampleName := by decide
  exact ⟨by decide, .inl ⟨by decide, .inr ⟨by decide, .inl ⟨hfits.1, .inl hfits⟩⟩⟩⟩

/-- The address of the name server in front of the answer hides it. -/
theorem other_name_hides_answer :
    ¬ ∀ (R : Response) (s : Client) (m : Memory) (pvData : Nat), Receives s m pvData R →
      Answered s m pvData R.encode.length R.records := by
  intro hall
  have hr : Receives exampleWaiting (exampleResponse nsAddress tftpAddress).packet 0
      (exampleResponse nsAddress tftpAddress) := receives_exampleResponse (by decide)
  have hans := (answered_iff_answers hr (isOk_exampleResponse _ _) (List.cons_ne_nil _ _)).mp (hall _ _ _ _ hr)
  obtain ⟨hrecords, hend⟩ := holds_records hr.holds
  change Holds _ _ (nsAddress.encode ++ encodeRecords [tftpAddress]) at hrecords
  have hstop := answers_stop hrecords hr.inMemory (by rw [← hend]; decide) hr.noZero (by decide) (by decide)
  exact absurd (hans.unique hstop) (by decide)

end FlashApp.Dns
