import FlashApp.DnsNames

namespace FlashApp.Dns

open Bytes Eth Fuel

/-- The loop of `convert_hostname_to_dns` over the characters in front of the
terminating zero. The length of a chunk is set through the saved pointer when
its end is reached. -/
def convertChunks : List UInt8 → Memory → Nat → Nat → Memory × Nat
  | [], m, pucQuery, pucChunkLength =>
    let m := store m pucChunkLength [UInt8.ofNat (pucQuery - pucChunkLength - 1)]
    (store m pucQuery [0], pucQuery + 1)
  | ucByte :: pcName, m, pucQuery, pucChunkLength =>
    if ucByte = 0x2e then
      convertChunks pcName (store m pucChunkLength [UInt8.ofNat (pucQuery - pucChunkLength - 1)])
        (pucQuery + 1) pucQuery
    else convertChunks pcName (store m pucQuery [ucByte]) (pucQuery + 1) pucChunkLength

def convertHostname (m : Memory) (pucQuery : Nat) (pcName : List UInt8) : Memory × Nat :=
  convertChunks pcName m (pucQuery + 1) pucQuery

/-- A host name that can be sent and compared. -/
structure HostName where
  labels : List (List UInt8)
  labels_ne_nil : labels ≠ []
  isLabel : ∀ label ∈ labels, IsLabel label
  noDot : ∀ label ∈ labels, 0x2e ∉ label
  noZero : ∀ label ∈ labels, 0 ∉ label
  length_le : ([0x2e].intercalate labels).length ≤ 63

/-- The name with dots between its labels. -/
def HostName.chars (name : HostName) : List UInt8 := [0x2e].intercalate name.labels

/-- What `parse_answer` does with an answer behind the requested name. -/
def matchedAnswer (m : Memory) (pucQuery ulResultIp : Nat) : Option Nat × Nat :=
  let uiLength := mus2nus (get16 m (pucQuery + usAddressLength))
  let pucAddress := pucQuery + sizeofDnsAnswer
  (some (add32 pucQuery (sizeofDnsAnswer + uiLength)),
    if get16 m (pucQuery + usType) = mus2nus dnsQueryTypeA ∧
        get16 m (pucQuery + usClass) = mus2nus dnsQueryClassIn ∧ uiLength = 4 then
      ipAdr (m pucAddress).toNat (m (pucAddress + 1)).toNat (m (pucAddress + 2)).toNat
        (m (pucAddress + 3)).toNat
    else ulResultIp)

variable {m : Memory} {label chunk text : List UInt8} {labels : List (List UInt8)} {start stop p q : Nat}

theorem convertHostnameToDns_label (hdot : 0x2e ∉ label) (pcName chunk : List UInt8) :
    convertHostnameToDns (label ++ pcName) chunk = convertHostnameToDns pcName (chunk ++ label) := by
  induction label generalizing chunk with
  | nil => simp
  | cons b label ih =>
    rw [List.mem_cons, not_or] at hdot
    rw [List.cons_append, convertHostnameToDns, if_neg (Ne.symm hdot.1), ih hdot.2, List.append_assoc,
      List.singleton_append]

theorem convertHostnameToDns_eq (hne : labels ≠ []) (hdot : ∀ label ∈ labels, 0x2e ∉ label) :
    convertHostnameToDns ([0x2e].intercalate labels) [] = wireName labels := by
  induction labels with
  | nil => exact absurd rfl hne
  | cons label labels ih =>
    rw [List.forall_mem_cons] at hdot
    cases labels with
    | nil =>
      have h := convertHostnameToDns_label hdot.1 [] []
      rw [List.append_nil] at h
      simpa [wireName, convertHostnameToDns] using h
    | cons label' labels =>
      rw [List.intercalate_cons_cons, List.append_assoc, convertHostnameToDns_label hdot.1, List.nil_append,
        List.singleton_append, convertHostnameToDns, if_pos rfl, ih (by simp) hdot.2, wireName_cons label,
        List.cons_append]

theorem dottedName_eq (hne : labels ≠ []) : dottedName labels = [0x2e].intercalate labels ++ [0x2e] := by
  induction labels with
  | nil => exact absurd rfl hne
  | cons label labels ih =>
    cases labels with
    | nil => simp [dottedName]
    | cons label' labels =>
      rw [dottedName_cons, ih (by simp), List.intercalate_cons_cons]
      simp

theorem length_wireName (labels : List (List UInt8)) :
    (wireName labels).length = (dottedName labels).length + 1 := by
  induction labels with
  | nil => rfl
  | cons label labels ih =>
    rw [wireName_cons, dottedName_cons]
    simp only [List.length_cons, List.length_append, ih, List.length_nil]
    omega

theorem store_of_holds (hm : Holds m p chunk) : store m p chunk = m := by
  funext x
  by_cases hx : p ≤ x ∧ x < p + chunk.length
  · have hget := getElem?_slice m p chunk.length (x - p) (by omega)
    rw [hm] at hget
    rw [store, if_pos hx.1, hget, Option.getD_some]
    congr 1
    omega
  · exact store_out m (by omega)

/-- The bytes of the chunk are already there when its length is set. -/
theorem store_chunk (b : UInt8) (hm : Holds m (p + 1) chunk) (bs : List UInt8) :
    store (store m p [b]) (p + 1 + chunk.length) bs = store m p (b :: (chunk ++ bs)) := by
  have hchunk : store m p [b] = store m p (b :: chunk) := by
    funext x
    rw [store_cons, store_nil, store_cons, store_of_holds hm]
  have hlen : p + 1 + chunk.length = p + (b :: chunk).length := by
    rw [List.length_cons]
    omega
  rw [hchunk, hlen, store_append, List.cons_append]

theorem store_covered (b : UInt8) {bs : List UInt8} (hlo : p ≤ q) (hhi : q < p + bs.length) :
    store (store m q [b]) p bs = store m p bs := by
  funext x
  by_cases hx : p ≤ x ∧ x < p + bs.length
  · have hget : bs[x - p]? = some bs[x - p] := List.getElem?_eq_getElem (by omega)
    simp only [store, hx.1, ↓reduceIte, hget, Option.getD_some]
  · have hq : x < q ∨ q + [b].length ≤ x := by
      rw [List.length_singleton]
      omega
    have hp : x < p ∨ p + bs.length ≤ x := by omega
    rw [store_out _ hp, store_out m hp, store_out m hq]

theorem lt_length_convert (pcName chunk : List UInt8) :
    chunk.length + 1 < (convertHostnameToDns pcName chunk).length := by
  induction pcName generalizing chunk with
  | nil => simp [convertHostnameToDns]
  | cons b pcName ih =>
    rw [convertHostnameToDns]
    split_ifs
    · have h := ih []
      simp only [List.length_cons, List.length_append, List.length_nil] at h ⊢
      omega
    · have h := ih (chunk ++ [b])
      simp only [List.length_append, List.length_singleton] at h
      omega

/-- The loop writes the name from the reserved length on. The invariant is that
the characters of the open chunk are right behind it. -/
theorem convertChunks_eq (pcName : List UInt8) (hm : Holds m (p + 1) chunk) :
    convertChunks pcName m (p + 1 + chunk.length) p =
      (store m p (convertHostnameToDns pcName chunk), p + (convertHostnameToDns pcName chunk).length) := by
  have hsub : p + 1 + chunk.length - p - 1 = chunk.length := by omega
  induction pcName generalizing m p chunk with
  | nil =>
    simp only [convertChunks, convertHostnameToDns, hsub, store_chunk _ hm, List.cons_append,
      List.length_cons, List.length_append, List.length_nil]
    rw [show p + 1 + chunk.length + 1 = p + (chunk.length + (0 + 1) + 1) by omega]
  | cons b pcName ih =>
    rw [convertChunks, convertHostnameToDns]
    split_ifs with hdot
    · have hempty : Holds (store m p [UInt8.ofNat (p + 1 + chunk.length - p - 1)]) (p + 1 + chunk.length + 1) [] :=
        rfl
      have hnext := ih hempty (by simp)
      rw [List.length_nil, Nat.add_zero] at hnext
      rw [hnext, hsub, store_chunk _ hm]
      simp only [List.cons_append, List.length_cons, List.length_append]
      rw [show p + 1 + chunk.length + (convertHostnameToDns pcName []).length =
        p + (chunk.length + (convertHostnameToDns pcName []).length + 1) by omega]
    · have hchunk : Holds (store m (p + 1 + chunk.length) [b]) (p + 1) (chunk ++ [b]) := by
        rw [holds_append]
        refine ⟨?_, holds_store _ _ _⟩
        unfold Holds
        rw [slice_store_out m (.inl le_rfl)]
        exact hm
      have hlen := lt_length_convert pcName (chunk ++ [b])
      have hnext := ih hchunk (by omega)
      rw [List.length_append, List.length_singleton] at hnext hlen
      rw [← Nat.add_assoc] at hnext
      rw [hnext, store_covered b (by omega) (by omega)]

theorem convertHostname_eq (m : Memory) (pucQuery : Nat) (name : HostName) :
    convertHostname m pucQuery name.chars =
      (store m pucQuery (wireName name.labels), pucQuery + (wireName name.labels).length) := by
  have hempty : Holds m (pucQuery + 1) [] := rfl
  have h := convertChunks_eq name.chars hempty
  rwa [List.length_nil, Nat.add_zero, HostName.chars,
    convertHostnameToDns_eq name.labels_ne_nil name.noDot] at h

theorem HostName.dottedName_eq (name : HostName) : dottedName name.labels = name.chars ++ [0x2e] :=
  Dns.dottedName_eq name.labels_ne_nil

theorem HostName.length_wireName (name : HostName) : (wireName name.labels).length = name.chars.length + 2 := by
  rw [Dns.length_wireName, name.dottedName_eq, List.length_append]
  rfl

theorem slice_bytes (pcHostName : CString) :
    slice pcHostName.bytes 0 (pcHostName.chars.length + 1) = pcHostName.chars ++ [0] := by
  apply List.ext_getElem?
  intro i
  by_cases hi : i < pcHostName.chars.length + 1
  · rw [getElem?_slice _ _ _ _ hi, CString.bytes, Nat.zero_add, List.getElem?_eq_getElem (by simpa using hi)]
    rfl
  · rw [List.getElem?_eq_none (by simpa using hi), List.getElem?_eq_none (by simpa using hi)]

theorem parseAnswer_of_unpack (pcHostName : CString) (ulResultIp : Nat)
    (h : Returns (fun n => unpackEntryRecursive m start stop n p []) (some q, text)) (hne : text ≠ []) :
    Returns (fun n => parseAnswer n pcHostName m start stop p ulResultIp)
      (if text.take (text.length - 1) ++ [0] = slice pcHostName.bytes 0 text.length then
        matchedAnswer m q ulResultIp else (some q, ulResultIp)) := by
  obtain ⟨N, h⟩ := h
  refine ⟨N, fun n hn => ?_⟩
  have hlen : text.length ≠ 0 := fun h => hne (List.length_eq_zero_iff.mp h)
  simp only [parseAnswer, h n hn, Option.map_some, hlen, ↓reduceIte]
  rfl

theorem parseAnswer_of_requested (pcHostName : CString) (ulResultIp : Nat)
    (h : Returns (fun n => unpackEntryRecursive m start stop n p []) (some q, pcHostName.chars ++ [0x2e])) :
    Returns (fun n => parseAnswer n pcHostName m start stop p ulResultIp) (matchedAnswer m q ulResultIp) := by
  have hparse := parseAnswer_of_unpack pcHostName ulResultIp h (by simp)
  rwa [List.length_append, List.length_singleton, Nat.add_sub_cancel, List.take_left, slice_bytes,
    if_pos rfl] at hparse

/-- A name is sent with two bytes more than it has characters. Unpacked, it is
the name with one dot more, and `parse_answer` takes it for the requested
name. -/
theorem hostname_round_trip (name : HostName) (m : Memory) (pucQuery : Nat) :
    (convertHostname m pucQuery name.chars).2 = pucQuery + (name.chars.length + 2) ∧
      slice (convertHostname m pucQuery name.chars).1 pucQuery (name.chars.length + 2) = wireName name.labels ∧
      (∀ x, x < pucQuery ∨ pucQuery + (name.chars.length + 2) ≤ x →
        (convertHostname m pucQuery name.chars).1 x = m x) ∧
      ∀ (m' : Memory) (start stop p : Nat), InMemory start stop →
        slice m' p (name.chars.length + 2) =
          slice (convertHostname m pucQuery name.chars).1 pucQuery (name.chars.length + 2) →
        p + (name.chars.length + 2) < stop →
          Returns (fun n => unpackEntryRecursive m' start stop n p [])
            (some (p + (name.chars.length + 2)), name.chars ++ [0x2e]) ∧
          ∀ behind ulResultIp,
            Returns (fun n => parseAnswer n ⟨name.chars, behind⟩ m' start stop p ulResultIp)
              (matchedAnswer m' (p + (name.chars.length + 2)) ulResultIp) := by
  have hwire : slice (store m pucQuery (wireName name.labels)) pucQuery (name.chars.length + 2) =
      wireName name.labels := by
    have h := holds_store m pucQuery (wireName name.labels)
    rwa [Holds, name.length_wireName] at h
  rw [convertHostname_eq, name.length_wireName]
  refine ⟨rfl, hwire, ?_, ?_⟩
  · intro x hx
    apply store_out
    rwa [name.length_wireName]
  · intro m' start stop p hmem hm' hstop
    rw [hwire] at hm'
    have hholds : Holds m' p (wireName name.labels) := by rwa [Holds, name.length_wireName]
    have hexp := expands_wireName lowOffset start name.isLabel hholds (by rwa [name.length_wireName])
    rw [name.dottedName_eq, name.length_wireName] at hexp
    have hunpack := unpack_of_expands hmem hexp []
    rw [List.nil_append] at hunpack
    refine ⟨hunpack, fun behind ulResultIp => ?_⟩
    exact parseAnswer_of_requested ⟨name.chars, behind⟩ ulResultIp hunpack

def exampleHost : HostName where
  labels := [[0x74, 0x66, 0x74, 0x70], [0x6c, 0x6f, 0x63, 0x61, 0x6c]]
  labels_ne_nil := List.cons_ne_nil _ _
  isLabel := List.forall_mem_cons.mpr ⟨⟨by decide, by decide⟩, List.forall_mem_singleton.mpr ⟨by decide, by decide⟩⟩
  noDot := List.forall_mem_cons.mpr ⟨by decide, List.forall_mem_singleton.mpr (by decide)⟩
  noZero := List.forall_mem_cons.mpr ⟨by decide, List.forall_mem_singleton.mpr (by decide)⟩
  length_le := by decide

theorem hostname_round_trip_exampleHost :
    Returns (fun n => unpackEntryRecursive (convertHostname (fun _ => 0) 12 exampleHost.chars).1 0 30 n 12 [])
      (some 24, exampleHost.chars ++ [0x2e]) := by
  obtain ⟨-, -, -, hdecode⟩ := hostname_round_trip exampleHost (fun _ => 0) 12
  exact (hdecode _ 0 30 12 ⟨by decide, by decide⟩ rfl (by decide)).1

end FlashApp.Dns
