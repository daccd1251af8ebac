import FlashApp.Sha384
import FlashApp.Lwip

namespace FlashApp.HttpDownload

open Bytes Sha384 Lwip

/-- The state of a download that the callbacks work on. No result callback
was set before, so the saved one is not kept here. -/
structure HttpDownloadState where
  pucStart : Nat
  pucCnt : Nat
  pucEnd : Nat
  tHash : List UInt8
  fIsFinished : Nat
  tHttpcResult : HttpcResult
  ulServerResponse : Nat
  tResult : ErrT

/-- A download and what its callbacks act on: the memory, the bytes written to
the SHA unit since its reset, the bytes announced with `altcp_recved` and the
number of pbuf chains freed. -/
structure Download where
  http : HttpDownloadState
  mem : Memory
  din : List UInt8
  recved : Nat
  freed : Nat

/-- `memcpy` of areas that do not overlap. -/
def memcpy (m : Memory) (dst src n : Nat) : Memory := store m dst (slice m src n)

structure CopyState where
  pucRec : Nat
  sizBufLeft : Nat
  mem : Memory
  din : List UInt8

/-- The loop over the elements of a chain. Each one goes to the hash first;
one that does not fit into the buffer ends the loop with an error. -/
def copyChain : List Pbuf → CopyState → Option (ErrT × CopyState)
  | [], s => some (.ok, s)
  | b :: bs, s => do
    let ws ← sha384Update s.mem b.payload b.len
    let s := { s with din := s.din ++ dinBytes ws }
    if s.pucRec ≠ 0 then
      if s.sizBufLeft > b.len then
        copyChain bs { s with
          mem := memcpy s.mem s.pucRec b.payload b.len
          pucRec := add32 s.pucRec b.len
          sizBufLeft := s.sizBufLeft - b.len }
      else
        some (.mem, s)
    else
      copyChain bs s

def Download.copyState (d : Download) : CopyState where
  pucRec := d.http.pucCnt
  sizBufLeft := sub32 d.http.pucEnd d.http.pucCnt
  mem := d.mem
  din := d.din

def Download.finishChain (d : Download) (p : PbufChain) (s : CopyState) : Download where
  http := { d.http with pucCnt := s.pucRec }
  mem := s.mem
  din := s.din
  recved := d.recved + p.totLen
  freed := d.freed + 1

/-- The received chain is consumed in any case, also when the result is an
error. A call with an error or without a chain does nothing. -/
def httpDownloadDataCallback (d : Download) (p : Option PbufChain) (err : ErrT) :
    Option (ErrT × Download) :=
  match p with
  | none => some (.ok, d)
  | some p =>
    if err = .ok then do
      let (tResult, s) ← copyChain p.elements d.copyState
      return (tResult, d.finishChain p s)
    else
      some (.ok, d)

/-- The hash is finished only if the download was successful. -/
def httpDownloadResultCallback (sha : ShaUnit) (d : Download) (httpcResult : HttpcResult)
    (rxContentLen srvRes : Nat) (err : ErrT) : Download :=
  let d :=
    if httpcResult = .ok ∧ srvRes = 200 ∧ err = .ok then
      let din := d.din ++ dinBytes (sha384FinalizeByte rxContentLen)
      { d with din := din, http := { d.http with tHash := sha.digest din } }
    else
      d
  { d with http := { d.http with
    fIsFinished := 1, tHttpcResult := httpcResult, ulServerResponse := srvRes, tResult := err } }

/-- The buffer of a download, as `httpDownload` sets it up: it does not wrap
around the end of the address space and is filled from its start. -/
structure HttpDownloadState.Valid (h : HttpDownloadState) : Prop where
  start_le : h.pucStart ≤ h.pucCnt
  cnt_le : h.pucCnt ≤ h.pucEnd
  end_lt : h.pucEnd < 2 ^ 32

theorem update_total (m : Memory) (b : Pbuf) : ∃ ws, sha384Update m b.payload b.len = some ws := by
  have hgap := gap_lt b.payload
  have hfits := b.fits
  have hend : b.payload + max b.len (gap b.payload) + 4 < 2 ^ 32 := by omega
  obtain ⟨ws, hws, -⟩ := sha384Update_writes m hend
  exact ⟨ws, hws⟩

theorem copyChain_null (bs : List Pbuf) {s : CopyState} (hs : s.pucRec = 0) :
    ∃ s', copyChain bs s = some (.ok, s') ∧ s'.pucRec = 0 := by
  induction bs generalizing s with
  | nil => exact ⟨s, rfl, hs⟩
  | cons b bs ih =>
    obtain ⟨ws, hws⟩ := update_total s.mem b
    obtain ⟨s', hs', hrec⟩ := ih (s := { s with din := s.din ++ dinBytes ws }) hs
    refine ⟨s', ?_, hrec⟩
    rw [hs] at hs'
    simp [copyChain, hws, hs, hs']

theorem copyChain_buffer (bs : List Pbuf) {s : CopyState} (hs : s.pucRec ≠ 0)
    (hend : s.pucRec + s.sizBufLeft < 2 ^ 32) :
    ∃ e s', copyChain bs s = some (e, s') ∧ (e = .ok ∨ e = .mem) ∧
      (e = .ok ↔ bs = [] ∨ size bs < s.sizBufLeft) ∧
      s.pucRec ≤ s'.pucRec ∧ s'.pucRec ≤ s.pucRec + s.sizBufLeft := by
  induction bs generalizing s with
  | nil => exact ⟨.ok, s, rfl, .inl rfl, by simp, le_rfl, by omega⟩
  | cons b bs ih =>
    obtain ⟨ws, hws⟩ := update_total s.mem b
    by_cases hfit : s.sizBufLeft > b.len
    · have hrec : add32 s.pucRec b.len = s.pucRec + b.len := add32_of_lt (by omega)
      obtain ⟨e, s', hs', he, hok, hlo, hhi⟩ := ih (s := { s with
        din := s.din ++ dinBytes ws
        mem := memcpy s.mem s.pucRec b.payload b.len
        pucRec := add32 s.pucRec b.len
        sizBufLeft := s.sizBufLeft - b.len }) (by simp only [hrec]; omega) (by simp only [hrec]; omega)
      simp only [hrec] at hok hlo hhi
      refine ⟨e, s', by simp [copyChain, hws, hs, hfit, hs'], he, ?_, by omega, by omega⟩
      rw [hok, size_cons]
      cases bs with
      | nil => simpa using hfit
      | cons b' bs => simp only [reduceCtorEq, false_or]; omega
    · refine ⟨.mem, { s with din := s.din ++ dinBytes ws }, by simp [copyChain, hws, hs, hfit],
        .inr rfl, ?_, le_rfl, by simp⟩
      simp only [reduceCtorEq, size_cons, false_or, false_iff]
      omega

/-- The rule for a receive callback: a chain is either taken over, or refused
with nothing changed, so that it can be delivered again. -/
structure TakesOver (d : Download) (tResult : ErrT) (d' : Download) : Prop where
  ok_iff : tResult = .ok ↔ d'.freed = d.freed + 1
  not_freed : tResult ≠ .ok → d'.freed = d.freed
  unchanged : tResult ≠ .ok →
    d'.http.pucCnt = d.http.pucCnt ∧ d'.din = d.din ∧ d'.recved = d.recved
  not_abrt : tResult ≠ .abrt

theorem dataCallback_cases {d : Download} (hd : d.http.Valid) (p : PbufChain) :
    ∃ e d', httpDownloadDataCallback d (some p) .ok = some (e, d') ∧ d'.http.Valid ∧
      d'.freed = d.freed + 1 ∧ e ≠ .abrt ∧
      (e = .ok ↔ d.http.pucCnt = 0 ∨ size p.elements < d.http.pucEnd - d.http.pucCnt) := by
  obtain ⟨hstart, hcnt, hend⟩ := hd
  have hleft : d.copyState.sizBufLeft = d.http.pucEnd - d.http.pucCnt := sub32_of_le hcnt hend
  by_cases hnull : d.http.pucCnt = 0
  · obtain ⟨s, hs, hrec⟩ := copyChain_null p.elements (s := d.copyState) hnull
    refine ⟨.ok, d.finishChain p s, ?_, ⟨?_, ?_, hend⟩, rfl, by decide, by simp [hnull]⟩
    · simp [httpDownloadDataCallback, hs]
    · simp only [Download.finishChain, hrec]
      omega
    · simp [Download.finishChain, hrec]
  · obtain ⟨e, s, hs, he, hok, hlo, hhi⟩ := copyChain_buffer p.elements (s := d.copyState) hnull
      (by rw [hleft]; simp only [Download.copyState]; omega)
    rw [hleft] at hok hhi
    simp only [Download.copyState] at hlo hhi
    refine ⟨e, d.finishChain p s, ?_, ⟨?_, ?_, hend⟩, rfl, ?_, ?_⟩
    · simp [httpDownloadDataCallback, hs]
    · simp only [Download.finishChain]
      omega
    · simp only [Download.finishChain]
      omega
    · rintro rfl
      simp at he
    · rw [hok]
      simp [hnull, PbufChain.elements]

/-- The callback keeps to the rule exactly if it is called without an error
and there is no buffer or the chain leaves room in it. -/
theorem takesOver_iff {d : Download} (hd : d.http.Valid) (p : PbufChain) (err : ErrT) :
    ∃ tResult d', httpDownloadDataCallback d (some p) err = some (tResult, d') ∧ d'.http.Valid ∧
      (TakesOver d tResult d' ↔
        err = .ok ∧ (d.http.pucCnt = 0 ∨ size p.elements < d.http.pucEnd - d.http.pucCnt)) := by
  by_cases herr : err = .ok
  · subst err
    obtain ⟨e, d', hrun, hd', hfreed, habrt, hok⟩ := dataCallback_cases hd p
    refine ⟨e, d', hrun, hd', ?_⟩
    rw [← hok]
    constructor
    · intro ht
      exact ⟨rfl, ht.ok_iff.mpr hfreed⟩
    · rintro ⟨-, rfl⟩
      exact ⟨by simp [hfreed], by simp, by simp, habrt⟩
  · refine ⟨.ok, d, by simp [httpDownloadDataCallback, herr], hd, ?_⟩
    constructor
    · intro ht
      have hfreed := ht.ok_iff.mp rfl
      omega
    · exact fun h => absurd h.1 herr

def exampleDownload : Download where
  http := ⟨0x40000000, 0x40000000, 0x40000008, List.replicate 48 0, 0, .ok, 0, .ok⟩
  mem := fun _ => 0
  din := []
  recved := 0
  freed := 0

theorem exampleDownload_valid : exampleDownload.http.Valid := ⟨by decide, by decide, by decide⟩

def oneElement (len : Nat) (h : len < 2 ^ 16) : PbufChain :=
  ⟨⟨0x04080000, len, h, by omega⟩, []⟩

theorem takesOver_iff_exampleDownload :
    ∃ tResult d', httpDownloadDataCallback exampleDownload (some (oneElement 4 (by decide))) .ok =
      some (tResult, d') ∧ TakesOver exampleDownload tResult d' := by
  obtain ⟨tResult, d', hrun, -, hiff⟩ :=
    takesOver_iff exampleDownload_valid (oneElement 4 (by decide)) .ok
  exact ⟨tResult, d', hrun, hiff.mpr ⟨rfl, .inr (by decide)⟩⟩

/-- A chain that fills the buffer is freed, but an error is returned. -/
theorem not_takesOver_of_full_buffer :
    ¬ ∀ (d : Download) (p : PbufChain) (err : ErrT), d.http.Valid →
      ∃ tResult d', httpDownloadDataCallback d (some p) err = some (tResult, d') ∧
        TakesOver d tResult d' := by
  intro h
  obtain ⟨e, d', hrun, ht⟩ := h exampleDownload (oneElement 8 (by decide)) .ok exampleDownload_valid
  obtain ⟨e', d'', hrun', -, hfreed, -, hok⟩ :=
    dataCallback_cases exampleDownload_valid (oneElement 8 (by decide))
  obtain ⟨rfl, rfl⟩ := Prod.mk.inj (Option.some.inj (hrun.symm.trans hrun'))
  have hfits := hok.mp (ht.ok_iff.mpr hfreed)
  exact absurd hfits (by decide)

end FlashApp.HttpDownload
