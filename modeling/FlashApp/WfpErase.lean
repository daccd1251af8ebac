import FlashApp.WfpDevice

namespace FlashApp.WfpErase

open Bytes Interaction Trace Flasher Wfp WfpRuns WfpDevice

def areaCall : FlashEvent → Option (List UInt8 × Nat × Nat × ConsoleappResult × Nat × Nat)
  | ⟨.spiGetEraseArea tSpiInfo ulStartAdr ulEndAdr, r⟩ => some (tSpiInfo, ulStartAdr, ulEndAdr, r)
  | _ => none

def checkCall : FlashEvent → Option (List UInt8 × Nat × Nat × ConsoleappResult × Nat)
  | ⟨.spiIsErased tSpiInfo ulStartAdr ulEndAdr, r⟩ => some (tSpiInfo, ulStartAdr, ulEndAdr, r)
  | _ => none

/-- An SPI flash is programmed for the chunk read last, and since then the
most recent check was OK and found the erase area of the chunk erased. -/
def ErasedFirst (pre : List FlashEvent) : FlashEvent → Prop
  | ⟨.spiFlash tSpiInfo ulOffset ulDataSize _, _⟩ =>
    ∃ p bus unit cs q a b,
      pre = p ++ ⟨.note (.chunk bus unit cs ulOffset ulDataSize), ()⟩ :: q ∧
      (∀ x ∈ q, chunkKey x = none) ∧
      last areaCall q = some (tSpiInfo, ulOffset, add32 ulOffset ulDataSize, .ok, a, b) ∧
      last checkCall q = some (tSpiInfo, a, b, .ok, 0xff)
  | _ => True

/-- If the first call fails, the second one changes nothing. -/
def Quiet (e x : FlashEvent) : Prop := Failed e → ¬ x.1.EraseOrProgram

/-- What is expected of `processWfp` with respect to errors of the library. -/
structure Careful (t : List FlashEvent) (r : Option Int) : Prop where
  erased : Always ErasedFirst t
  quiet : t.Pairwise Quiet
  result : ∀ e ∈ t, Failed e → r = some (-1)

/-- A check of an area right after it was erased does not fail with the
message that the area is erased. -/
def CheckAnswered (pre : List FlashEvent) : FlashEvent → Prop
  | ⟨.spiIsErased _ _ _, (.error _, ulMessage)⟩ =>
    ulMessage = 0xff → ∀ info a b, pre.getLast? ≠ some (eraseEvent info a b .ok)
  | _ => True

variable {api : Headers} {m : Memory} {pucDataEnd : Nat} {s s' : WfpState}
  {h t u v : List FlashEvent} {info : List UInt8} {off ptr size : Nat}

/-- A part of a run that keeps to the rules, or stops with an error. -/
structure Clean (h t : List FlashEvent) (fails : Prop) : Prop where
  answered : Always (fun pre => CheckAnswered (h ++ pre)) t
  erased : Always (fun pre => ErasedFirst (h ++ pre)) t
  quiet : t.Pairwise Quiet
  result : ∀ e ∈ t, Failed e → fails

/-- A part of a run with a failed check that was not looked at. -/
structure Dirty (h t : List FlashEvent) : Prop where
  not_answered : ¬ Always (fun pre => CheckAnswered (h ++ pre)) t
  not_quiet : ¬ t.Pairwise Quiet

structure Plain (e : FlashEvent) : Prop where
  not_failed : ¬ Failed e
  answered : ∀ pre, CheckAnswered pre e
  erased : ∀ pre, ErasedFirst pre e

theorem Clean.of_plain {fails : Prop} (hu : ∀ e ∈ u, Plain e) : Clean h u fails where
  answered := .of_forall fun e he _ => (hu e he).answered _
  erased := .of_forall fun e he _ => (hu e he).erased _
  quiet := List.pairwise_of_forall_mem_list fun e he _ _ hf => absurd hf (hu e he).not_failed
  result e he hf := absurd hf (hu e he).not_failed

theorem Clean.mono {fails fails' : Prop} (ht : Clean h t fails) (hf : fails → fails') :
    Clean h t fails' :=
  ⟨ht.answered, ht.erased, ht.quiet, fun e he hfail => hf (ht.result e he hfail)⟩

theorem Clean.append {fails : Prop} (hu : Clean h u False) (ht : Clean (h ++ u) t fails) :
    Clean h (u ++ t) fails := by
  refine ⟨always_append.mpr ⟨hu.answered, ?_⟩, always_append.mpr ⟨hu.erased, ?_⟩, ?_, ?_⟩
  · simpa only [List.append_assoc] using ht.answered
  · simpa only [List.append_assoc] using ht.erased
  · rw [List.pairwise_append]
    exact ⟨hu.quiet, ht.quiet, fun e he x _ hf => (hu.result e he hf).elim⟩
  · rw [List.forall_mem_append]
    exact ⟨fun e he hf => (hu.result e he hf).elim, ht.result⟩

theorem Dirty.append_right (hu : Dirty h u) : Dirty h (u ++ t) := by
  refine ⟨fun ha => hu.not_answered ?_, fun hq => hu.not_quiet ?_⟩
  · exact (always_append.mp ha).1
  · exact (List.pairwise_append.mp hq).1

theorem Dirty.append_left (ht : Dirty (h ++ u) t) : Dirty h (u ++ t) := by
  refine ⟨fun ha => ht.not_answered ?_, fun hq => ht.not_quiet ?_⟩
  · simpa only [List.append_assoc] using (always_append.mp ha).2
  · exact (List.pairwise_append.mp hq).2.1

theorem checkAnswered_of_ne {pre : List FlashEvent} {a b msg : Nat} {r : ConsoleappResult}
    (hmsg : msg ≠ 0xff) : CheckAnswered pre (checkEvent info a b r msg) := by
  cases r with
  | ok => trivial
  | error code => exact fun h => absurd h hmsg

@[simp] theorem status_eq_neg_one {r : ConsoleappResult} :
    status r = -1 ↔ ∃ code, r = .error code := by
  cases r <;> simp [status]

theorem erasedFirst_program {bus unit cs a b : Nat} {p q : List FlashEvent} {r : ConsoleappResult}
    (hh : h = p ++ ⟨.note (.chunk bus unit cs off size), ()⟩ :: q) (hq : ∀ x ∈ q, chunkKey x = none)
    (hu : ∀ x ∈ u, chunkKey x = none)
    (harea : last areaCall u = some (info, off, add32 off size, .ok, a, b))
    (hcheck : last checkCall u = some (info, a, b, .ok, 0xff)) :
    ErasedFirst (h ++ u) (programEvent info off size ptr r) := by
  refine ⟨p, bus, unit, cs, q ++ u, a, b, ?_, ?_, last_append_some q harea,
    last_append_some q hcheck⟩
  · rw [hh, List.append_assoc, List.cons_append]
  · rw [List.forall_mem_append]
    exact ⟨hq, hu⟩

theorem spiRun_rules {bus unit cs : Nat} {p q : List FlashEvent} {r : Int}
    (hh : h = p ++ ⟨.note (.chunk bus unit cs off size), ()⟩ :: q) (hq : ∀ x ∈ q, chunkKey x = none)
    (hr : SpiRun info off ptr size t r) : Clean h t (r = -1) ∨ Dirty h t := by
  cases hr with
  | noArea =>
    left
    constructor <;> simp [always_cons, always_nil, CheckAnswered, ErasedFirst]
  | notErased a b he =>
    left
    cases he with
    | checkFails | eraseFails =>
      constructor <;> simp [always_cons, always_nil, CheckAnswered, ErasedFirst, Quiet,
        Call.EraseOrProgram, Failed, result]
    | notClean _ _ _ _ hmsg =>
      refine ⟨?_, ?_, ?_, ?_⟩
      · simp only [always_cons, always_nil, and_true]
        exact ⟨trivial, trivial, trivial, checkAnswered_of_ne hmsg⟩
      · simp [always_cons, always_nil, ErasedFirst]
      · simp [Quiet, Call.EraseOrProgram, Failed, result]
      · simp
  | programmed a b he r =>
    cases he with
    | clean =>
      refine .inl ⟨?_, ?_, ?_, ?_⟩
      · simp [always_cons, always_nil, CheckAnswered]
      · simp only [always_cons, always_nil, List.cons_append, List.nil_append, and_true]
        exact ⟨trivial, trivial, erasedFirst_program hh hq (by simp [chunkKey]) rfl rfl⟩
      · simp [Quiet, Failed, result]
      · simpa [Failed, result] using fun code hr => ⟨code, hr⟩
    | erased msg hmsg rc =>
      cases rc with
      | ok =>
        refine .inl ⟨?_, ?_, ?_, ?_⟩
        · simp [always_cons, always_nil, CheckAnswered]
        · simp only [always_cons, always_nil, List.cons_append, List.nil_append, and_true]
          exact ⟨trivial, trivial, trivial, trivial,
            erasedFirst_program hh hq (by simp [chunkKey]) rfl rfl⟩
        · simp [Quiet, Failed, result]
        · simpa [Failed, result] using fun code hr => ⟨code, hr⟩
      | error code =>
        refine .inr ⟨?_, ?_⟩
        · simp [always_cons, always_nil, CheckAnswered]
        · simp [Quiet, Call.EraseOrProgram, Failed, result]

theorem plain_note (n : Note) : Plain ⟨.note n, ()⟩ where
  not_failed := by simp [Failed, result]
  answered _ := trivial
  erased _ := trivial

theorem plain_detect {bus unit cs : Nat} {e : FlashEvent} {info : List UInt8}
    (he : DetectEvent api bus unit cs e .ok info) : Plain e := by
  cases he with
  | spi | sdio => exact ⟨by simp [Failed, result], fun _ => trivial, fun _ => trivial⟩

theorem plain_select {bus unit cs : Nat} (hs : SelectRun api s bus unit cs t (some s')) :
    ∀ e ∈ t, Plain e := by
  cases hs with
  | reuse => simp
  | detected _ ht =>
    cases ht with
    | found he =>
      rw [List.forall_mem_cons, List.forall_mem_singleton]
      exact ⟨plain_note _, plain_detect he⟩

theorem clean_select {bus unit cs : Nat} {fails : Prop} (hfails : fails)
    (hs : SelectRun api s bus unit cs t none) : Clean h t fails := by
  cases hs with
  | failed _ ht =>
    cases ht with
    | missing he =>
      cases he with
      | spi | sdio =>
        constructor <;> simp [always_cons, always_nil, CheckAnswered, ErasedFirst, Quiet,
          Call.EraseOrProgram, hfails]
    | other =>
      apply Clean.of_plain
      rw [List.forall_mem_singleton]
      exact plain_note _

theorem fileRun_rules {bus unit cs : Nat} {desc : DeviceDescription} {p q : List FlashEvent} {r : Int}
    (hh : h = p ++ ⟨.note (.chunk bus unit cs off size), ()⟩ :: q) (hq : ∀ x ∈ q, chunkKey x = none)
    (hr : FileRun api bus desc off ptr size t r) : Clean h t (r = -1) ∨ Dirty h t := by
  have hnote : ∀ e ∈ [fileEvent bus desc off ptr size], Plain e := by
    rw [List.forall_mem_singleton]
    exact plain_note _
  cases hr with
  | @spi _ u r ht =>
    have hh' : h ++ [fileEvent bus desc off ptr size] =
        p ++ ⟨.note (.chunk bus unit cs off size), ()⟩ :: (q ++ [fileEvent bus desc off ptr size]) := by
      rw [hh, List.append_assoc, List.cons_append]
    have hq' : ∀ x ∈ q ++ [fileEvent bus desc off ptr size], chunkKey x = none := by
      rw [List.forall_mem_append, List.forall_mem_singleton]
      exact ⟨hq, rfl⟩
    exact (spiRun_rules hh' hq' ht).imp (.append (.of_plain hnote)) Dirty.append_left
  | sdio _ r =>
    refine .inl (.append (u := [_]) (.of_plain hnote) ⟨?_, ?_, ?_, ?_⟩)
    · simp [always_cons, always_nil, CheckAnswered]
    · simp [always_cons, always_nil, ErasedFirst]
    · simp
    · simpa [Failed, result] using fun code hr => ⟨code, hr⟩
  | other => exact .inl (.of_plain hnote)

theorem round_rules {r : Int} (hs : SelectRun api s (headerBus m s.pucDataCnt)
      (headerUnit m s.pucDataCnt) (headerCs m s.pucDataCnt) u (some s'))
    (hv : FileRun api (headerBus m s.pucDataCnt) s'.tDeviceDesc (headerOffset m s.pucDataCnt)
      ptr (headerSize m s.pucDataCnt) v r) :
    Clean h (roundStart m s.pucDataCnt ++ (u ++ v)) (r = -1) ∨
      Dirty h (roundStart m s.pucDataCnt ++ (u ++ v)) := by
  have hplain : ∀ e ∈ roundStart m s.pucDataCnt ++ u, Plain e := by
    rw [List.forall_mem_append, List.forall_mem_cons, List.forall_mem_singleton]
    exact ⟨⟨plain_note _, plain_note _⟩, plain_select hs⟩
  have hh : h ++ (roundStart m s.pucDataCnt ++ u) =
      h ++ [headEvent s.pucDataCnt] ++ chunkEvent m s.pucDataCnt :: u := by
    rw [List.append_assoc]
    rfl
  rw [← List.append_assoc]
  exact (fileRun_rules hh (fun e he => (select_not_file hs e he).2) hv).imp
    (.append (.of_plain hplain)) Dirty.append_left

theorem chunkRun_rules {x : WfpState ⊕ Int} (hr : ChunkRun api m pucDataEnd s t x) :
    Clean h t (x = .inr (-1)) ∨ Dirty h t := by
  cases hr with
  | done | noHeader | noData =>
    left
    apply Clean.of_plain
    simp [plain_note]
  | noDevice _ hs =>
    left
    refine .append (u := roundStart m s.pucDataCnt) (.of_plain ?_) (clean_select rfl hs)
    simp [plain_note]
  | flashed _ hs hv => exact (round_rules hs hv).imp_left (·.mono fun h => absurd h (by decide))
  | failed _ hs hv => exact (round_rules hs hv).imp_left (·.mono fun _ => rfl)

theorem run_rules {img : WfpImage} {n : Nat} {r : Option Int}
    (hr : Runs (processWfp api m img n) t r) : Clean [] t (r = some (-1)) ∨ Dirty [] t := by
  obtain ⟨rfl, rfl⟩ | ⟨-, -, hl⟩ := processWfp_cases hr
  · exact .inl (.of_plain (by simp))
  refine loop_rule (fun _ h => Clean [] h False ∨ Dirty [] h)
    (fun r h => Clean [] h (r = some (-1)) ∨ Dirty [] h) ?_ ?_ ?_ (h := []) (.inl (.of_plain (by simp))) hl
  · intro s h hi
    exact hi.imp_left (·.mono False.elim)
  · rintro s h t s' (hc | hd) hr
    · exact (chunkRun_rules (processChunk_cases hr)).imp
        (fun ht => hc.append (ht.mono (by simp))) Dirty.append_left
    · exact .inr hd.append_right
  · rintro s h t b (hc | hd) hr
    · exact (chunkRun_rules (processChunk_cases hr)).imp
        (fun ht => hc.append (ht.mono (by simp))) Dirty.append_left
    · exact .inr hd.append_right

/-- A run heeds all errors of the library exactly if no check of a freshly
erased area fails and still reports the area as erased. -/
theorem careful_iff_answered {img : WfpImage} {n : Nat} {r : Option Int}
    (hr : Runs (processWfp api m img n) t r) : Careful t r ↔ Always CheckAnswered t := by
  obtain hc | hd := run_rules hr
  · exact ⟨fun _ => hc.answered, fun _ => ⟨hc.erased, hc.quiet, hc.result⟩⟩
  · exact ⟨fun h => absurd h.quiet hd.not_quiet, fun h => absurd h hd.not_answered⟩

def oneChunk : List UInt8 := [0x53, 0x57, 0x46, 0x50, 1, 0, 0, 0, 0, 0, 0, 1, 0, 0, 0, 0xaa]

def isErase : FlashEvent → Bool
  | ⟨.spiErase _ _ _, _⟩ => true
  | _ => false

/-- A library that finds the area not erased, and answers the check after the
erase with `r` and the message that it is erased. -/
def recheckOracle (r : ConsoleappResult) : Oracle Call Answer
  | h, .spiIsErased _ _ _ => if h.any isErase then (r, 0xff) else (.ok, 0)
  | h, c => WfpGood.goodOracle h c

abbrev oneChunkRun (r : ConsoleappResult) : List FlashEvent × Option Int :=
  exec (recheckOracle r) (processWfp WfpGood.exampleHeaders (WfpGood.imageMemory oneChunk)
    ⟨0x40000000, 16⟩ 2) []

theorem careful_iff_answered_oneChunk :
    (oneChunkRun .ok).2 = some 0 ∧
      (Careful (oneChunkRun .ok).1 (oneChunkRun .ok).2 ↔ Always CheckAnswered (oneChunkRun .ok).1) :=
  ⟨by decide, careful_iff_answered (exec_runs _ _ [])⟩

/-- The check after the erase fails, and yet the chunk is programmed and the
result is 0. -/
theorem not_careful_of_failed_recheck :
    ¬ ∀ t r, Runs (processWfp WfpGood.exampleHeaders (WfpGood.imageMemory oneChunk)
      ⟨0x40000000, 16⟩ 2) t r → Careful t r := by
  intro h
  have hc := h _ _ (exec_runs (recheckOracle (.error 1)) _ [])
  have hmem : checkEvent [] 0 1 (.error 1) 0xff ∈ (oneChunkRun (.error 1)).1 :=
    List.mem_of_getElem? (i := 8) rfl
  have hr := hc.result _ hmem ⟨1, rfl⟩
  exact absurd hr (by decide)

end FlashApp.WfpErase
