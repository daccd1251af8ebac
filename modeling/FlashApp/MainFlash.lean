import FlashApp.DownloadRuns
import FlashApp.MainReport
import FlashApp.WfpFlash

namespace FlashApp.MainFlash

open Bytes Interaction Trace Machine Sha384 Lwip Flasher Wfp Fdl InfoFile Main MainDownload MainRuns MainReport
  WfpBounds
open DownloadRuns (Delivers Separate delivered)
open WfpJoin (Chunk)
open WfpFlash (Content LawfulRun Library Proper Spares content deviceOf program)

/-- Data that leaves room in the buffer is taken by every callback. -/
theorem all_ok {sha : ShaUnit} {mem : Memory} {pucBuffer sizBuffer : Nat} (hpos : 0 < pucBuffer)
    (hfits : pucBuffer + sizBuffer < 2 ^ 32) {h : List DownloadRuns.Label} {d : HttpDownload.Download}
    (hr : Reach (· = initialDownload mem pucBuffer sizBuffer) (DownloadRuns.Step sha) h d)
    (hsep : ∀ l ∈ h, Separate pucBuffer sizBuffer l.1) (hroom : (DownloadRuns.body h).length < sizBuffer) :
    ∀ l ∈ h, l.2 = .ok := by
  induction hr with
  | init hs => simp
  | @step h d d' l hr hs ih =>
    rw [List.forall_mem_append, List.forall_mem_singleton] at hsep
    rw [DownloadRuns.body_append, DownloadRuns.body_singleton, List.length_append] at hroom
    have hok := ih hsep.1 (by omega)
    rw [List.forall_mem_append, List.forall_mem_singleton]
    refine ⟨hok, ?_⟩
    by_cases hl : Delivers l.1
    · have hi := DownloadRuns.reach_inv hpos hfits hr hsep.1
      obtain ⟨hcnt, -⟩ := hi.stored hok
      have hstop := hi.buffer.stop
      exact (DownloadRuns.step_ok_iff hi.buffer hpos hfits hs hl).mpr (by omega)
    · exact DownloadRuns.step_ok_of_not_delivers hs hl

/-- The data that the HTTP client has passed on. -/
def served (t : List MainEvent) : List UInt8 := (polls t).flatten.flatMap delivered

theorem served_append (s t : List MainEvent) : served (s ++ t) = served s ++ served t := by
  simp [served, polls_append]

theorem httpDownload_served {sha : ShaUnit} {mem mem' : Memory} {uri : Uri} {pucBuffer sizBuffer n size : Nat}
    {tHash : List UInt8} {t : List MainEvent} (hpos : 0 < pucBuffer) (hfits : pucBuffer + sizBuffer < 2 ^ 32)
    (hr : Runs (httpDownload sha mem uri pucBuffer sizBuffer n) t (some (mem', some (size, tHash))))
    (hsep : ∀ es ∈ polls t, ∀ e ∈ es, Separate pucBuffer sizBuffer e) (hroom : (served t).length < sizBuffer) :
    size = (served t).length ∧ Holds mem' pucBuffer (served t) := by
  obtain ⟨h, d, hreach, hes, rfl, rfl⟩ := DownloadRuns.httpDownload_reach hr
  have hbody : DownloadRuns.body h = served t := by
    rw [served, ← hes, DownloadRuns.body, List.flatMap_map]
  have hall : ∀ l ∈ h, Separate pucBuffer sizBuffer l.1 := by
    intro l hl
    have he : l.1 ∈ (polls t).flatten := hes ▸ List.mem_map_of_mem hl
    obtain ⟨es, hpolls, he⟩ := List.mem_flatten.mp he
    exact hsep es hpolls l.1 he
  have hi := DownloadRuns.reach_inv hpos hfits hreach hall
  obtain ⟨hcnt, hdata⟩ := hi.stored (all_ok hpos hfits hreach hall (by rwa [hbody]))
  obtain ⟨hstart, hstop, hle, hend⟩ := hi.buffer
  rw [hbody] at hcnt hdata
  refine ⟨?_, hdata⟩
  rw [sub32_of_le hle (by omega)]
  omega

def flashed : MainEvent → Option FlashEvent
  | ⟨.flash c, a⟩ => some ⟨c, a⟩
  | _ => none

def flashes (t : List MainEvent) : List FlashEvent := t.filterMap flashed

theorem flashes_append (s t : List MainEvent) : flashes (s ++ t) = flashes s ++ flashes t :=
  List.filterMap_append

theorem flashes_flashEvents (w : List FlashEvent) : flashes (flashEvents w) = w := by
  induction w with
  | nil => rfl
  | cons e w ih => exact congrArg (e :: ·) ih

theorem filterMap_skips {β : Type} {f : MainEvent → Option β}
    (hf : ∀ (c : Call) (a : Answer c), f ⟨.flash c, a⟩ = none) (w : List FlashEvent) (s : List MainEvent) :
    (flashEvents w ++ s).filterMap f = s.filterMap f := by
  rw [List.filterMap_append, filterMap_flashEvents hf, List.nil_append]

theorem flashes_downloading {t : List MainEvent} (ht : ∀ e ∈ t, Downloading e.1) : flashes t = [] := by
  apply List.filterMap_eq_nil_iff.mpr
  rintro ⟨c, a⟩ he
  have hc := ht _ he
  cases c with
  | flash c => exact hc.elim
  | _ => rfl

/-- The parts of a run that reports a success: what comes before the info file
is parsed, the download of the image `m`, and the flashing of it. -/
structure Flashed (plat : Platform) (n k : Nat) (tHash : List UInt8) (p u v : List MainEvent) (m : Memory)
    (size : Nat) : Prop where
  opened : ∀ e ∈ flashes p, ¬ e.1.EraseOrProgram
  loaded : ∃ mem uri, Runs (httpDownload plat.sha mem uri 0x40000000 0x40000000 n) u
    (some (m, some (size, tHash)))
  hash : last finalized (u ++ v) = some tHash
  noted : noteEvent (.processWfp m size) ∈ v
  quiet : polls v = []
  done : Runs (processWfp plat.api m ⟨0x40000000, size⟩ k) (flashes v) (some 0)

section Reported

variable {plat : Platform} {mem m : Memory} {info info' : DeviceInfo} {n k : Nat} {t : List MainEvent}
  {r : Option Unit}

theorem getDataFile_verified (h : Runs (getDataFile plat mem info n) t (some (0, info', m))) :
    ∃ size, info' = { info with pucWfpImage := 0x40000000, sizWfpImage := size } ∧
      Runs (httpDownload plat.sha mem (.data info.acDataUri) 0x40000000 0x40000000 n) t
        (some (m, some (size, info.tHash))) := by
  simp only [getDataFile, runs_bind] at h
  obtain ⟨x, t₁, t₂, rfl, h₁, h₂⟩ := h
  obtain _ | ⟨mem', _ | ⟨size, tMyHash⟩⟩ := x
  · obtain ⟨-, hx⟩ := h₂
    cases hx
  · obtain ⟨-, hx⟩ := h₂
    cases hx
  · by_cases hhash : tMyHash = info.tHash
    · subst hhash
      simp only [↓reduceIte, runs_pure] at h₂
      obtain ⟨rfl, hx⟩ := h₂
      cases hx
      rw [List.append_nil]
      exact ⟨size, rfl, h₁⟩
    · simp only [hhash, ↓reduceIte, runs_pure] at h₂
      obtain ⟨-, hx⟩ := h₂
      cases hx

theorem flashImage_reported (h : FlashRun plat m info k t r) (hres : .result true ∈ messages t) :
    noteEvent (.processWfp m info.sizWfpImage) ∈ t ∧ polls t = [] ∧
      Runs (processWfp plat.api m (image info) k) (flashes t) (some 0) := by
  have hsent : ∀ w, messages (flashEvents w) = [] := filterMap_flashEvents fun _ _ => rfl
  have hpolls : ∀ w, polls (flashEvents w) = [] := filterMap_flashEvents fun _ _ => rfl
  cases h with
  | @running i ulTime w hw =>
    have hmsg : messages (messageEvent (startMessage info .flashStart) i :: timeEvent ulTime ::
        noteEvent (.processWfp m info.sizWfpImage) :: flashEvents w) = [.start .flashStart] :=
      congrArg (Kind.start .flashStart :: ·) (hsent w)
    rw [hmsg] at hres
    simp at hres
  | @done i j l ulTime ulTime' w iResult hw pcMessage d d' code =>
    have hmsg : messages (messageEvent (startMessage info .flashStart) i :: timeEvent ulTime ::
        noteEvent (.processWfp m info.sizWfpImage) :: flashEvents w) = [.start .flashStart] :=
      congrArg (Kind.start .flashStart :: ·) (hsent w)
    have hend : messages [timeEvent ulTime', messageEvent (endMessage info .flashEnd iResult pcMessage d') j,
        messageEvent (resultMessage info iResult pcMessage d d') l, blinkEvent code] =
        [.stop .flashEnd (iResult = 0), .result (iResult = 0)] := rfl
    rw [messages_append, hmsg, hend] at hres
    obtain rfl : iResult = 0 := by simpa using hres
    have hw' : flashes (messageEvent (startMessage info .flashStart) i :: timeEvent ulTime ::
        noteEvent (.processWfp m info.sizWfpImage) :: flashEvents w) = w := flashes_flashEvents w
    refine ⟨by simp, ?_, ?_⟩
    · rw [polls_append]
      exact congrArg (· ++ []) (hpolls w)
    · rw [flashes_append, hw']
      exact (List.append_nil w).symm ▸ hw

theorem station_reported (h : Runs (station plat mem info n k) t r) (hres : .result true ∈ messages t) :
    ∃ p u v tHash m size, t = p ++ noteEvent (.parseInfoFile 0 tHash) :: (u ++ v) ∧
      Flashed plat n k tHash p u v m size := by
  simp only [station, runs_bind, runs_perform, runs_generateStartMessage] at h
  obtain ⟨_, _, _, rfl, ⟨i, rfl⟩, ulTime, _, _, rfl, rfl, x, t₁, t₂, rfl, h₁, h₂⟩ := h
  have ht := getDeviceInfo_cases h₁
  have hmsg : messages (opening info i ulTime t₁ ++ t₂) = .start .downloadStart :: messages t₂ :=
    (messages_opening info i ulTime (silent_info ht) t₂).1
  have hfailed : ∀ info' iResult pcMessage ulTime' ulDuration code j l, iResult ≠ 0 →
      .result true ∉ messages (failureEvents info' iResult pcMessage ulTime' ulDuration code j l) := by
    intro info' iResult pcMessage ulTime' ulDuration code j l hi
    rw [messages_failure info' hi]
    simp
  have hres₂ : .result true ∈ messages t₂ := by
    have hres' : Kind.result true ∈ messages (opening info i ulTime t₁ ++ t₂) := hres
    rw [hmsg] at hres'
    simpa using hres'
  obtain _ | ⟨iResult, info₁, mem₁⟩ := x
  · obtain ⟨rfl, -⟩ := h₂
    simp [messages] at hres₂
  by_cases hi : iResult = 0
  · subst hi
    simp only [ne_eq, not_true_eq_false, ↓reduceIte, processDataFile, runs_bind] at h₂
    obtain ⟨y, u, t₃, rfl, h₂, h₃⟩ := h₂
    have hu := getDataFile_cases h₂
    rw [messages_append, (silent_data hu).1, List.nil_append] at hres₂
    obtain _ | ⟨iResult, info₂, m⟩ := y
    · obtain ⟨rfl, -⟩ := h₃
      simp [messages] at hres₂
    by_cases hi : iResult = 0
    · subst hi
      simp only [not_true_eq_false, ↓reduceIte, runs_bind, runs_duration, runs_generateEndMessage] at h₃
      obtain ⟨_, _, _, rfl, ⟨ulTime', rfl, rfl⟩, _, _, v, rfl, ⟨j, rfl⟩, hv⟩ := h₃
      obtain ⟨s, _, _, rfl, hs, -⟩ := info_parsed ht rfl
      obtain ⟨-, size, hcompleted, -⟩ := data_verified hu rfl
      obtain ⟨size', rfl, hload⟩ := getDataFile_verified h₂
      have hrun := flashImage_cases hv
      have hres₃ : Kind.result true ∈ messages v := by simpa [messages, sent, kind, endMessage] using hres₂
      obtain ⟨hnoted, hquiet, hdone⟩ := flashImage_reported hrun hres₃
      refine ⟨opening info i ulTime s, u, timeEvent ulTime' :: messageEvent
        (endMessage { info₁ with pucWfpImage := 0x40000000, sizWfpImage := size' } .downloadEnd 0 "OK"
          (sub32 ulTime' ulTime)) j :: v, info₁.tHash, m, size', by simp, ?_⟩
      refine ⟨?_, ⟨mem₁, _, hload⟩, ?_, by simp [hnoted], ?_, ?_⟩
      · have hnone : flashes (opening info i ulTime s) = flashes s := rfl
        rw [hnone, flashes_downloading hs]
        simp
      · rw [last_append_none u, hcompleted.hash]
        rw [List.forall_mem_cons, List.forall_mem_cons]
        exact ⟨rfl, rfl, fun e he => (unmarked_flash hrun e he).2.1⟩
      · exact hquiet
      · exact hdone
    · simp only [hi, not_false_eq_true, ↓reduceIte] at h₃
      obtain ⟨ulTime', ulDuration, j, l, -, rfl⟩ := downloadFailed_cases h₃
      exact absurd hres₂ (hfailed _ _ _ _ _ _ _ _ hi)
  · simp only [ne_eq, hi, not_false_eq_true, ↓reduceIte] at h₂
    obtain ⟨ulTime', ulDuration, j, l, -, rfl⟩ := downloadFailed_cases h₂
    exact absurd hres₂ (hfailed _ _ _ _ _ _ _ _ hi)

theorem flashappMain_reported (h : Runs (flashappMain plat mem n k) t r) (hres : .result true ∈ messages t) :
    ∃ p u v tHash m size, t = p ++ noteEvent (.parseInfoFile 0 tHash) :: (u ++ v) ∧
      Flashed plat n k tHash p u v m size := by
  simp only [flashappMain, runs_bind, runs_perform] at h
  obtain ⟨iAck, _, _, rfl, rfl, h⟩ := h
  by_cases hack : iAck = 0
  · subst hack
    simp only [ne_eq, not_true_eq_false, ↓reduceIte, runs_bind, runs_perform, Prod.exists] at h
    obtain ⟨iResult, info, t₁, t₂, rfl, h₁, _, _, _, rfl, rfl, h⟩ := h
    obtain ⟨w, rfl, hw⟩ := runs_embed.mp h₁
    have hreads := readFDL_reads hw
    have hsilent := (silent_startUp hreads iResult).1
    by_cases hi : iResult = 0
    · subst hi
      simp only [not_true_eq_false, ↓reduceIte, runs_bind, runs_perform] at h
      obtain ⟨_, _, _, rfl, rfl, i, _, t, rfl, rfl, ht⟩ := h
      have hall := messages_started hreads info i t
      have hres' : Kind.result true ∈ messages (startUpEvents w 0 ++
          [⟨.setupHardware info.ulDeviceNr, ()⟩, ⟨.setupNetwork, i⟩] ++ t) := by simpa using hres
      rw [hall] at hres'
      obtain ⟨p, u, v, tHash, m, size, rfl, hf⟩ := station_reported ht hres'
      refine ⟨startUpEvents w 0 ++ [⟨.setupHardware info.ulDeviceNr, ()⟩, ⟨.setupNetwork, i⟩] ++ p, u, v, tHash,
        m, size, by simp, { hf with opened := ?_ }⟩
      have hstart : flashes (startUpEvents w 0 ++ [⟨.setupHardware info.ulDeviceNr, ()⟩, ⟨.setupNetwork, i⟩]) =
          w := by
        rw [flashes_append, flashes_append]
        exact (congrArg (fun l => l ++ [] ++ []) (flashes_flashEvents w)).trans (by simp)
      rw [flashes_append, hstart, List.forall_mem_append]
      exact ⟨hreads, hf.opened⟩
    · simp only [hi, not_false_eq_true, ↓reduceIte, runs_bind, runs_perform, runs_pure] at h
      obtain ⟨_, _, _, rfl, rfl, rfl, -⟩ := h
      have hres' : Kind.result true ∈ messages (startUpEvents w iResult ++ [blinkEvent .fdlReadFailed]) := by
        simpa using hres
      rw [messages_append, hsilent] at hres'
      simp [messages, sent] at hres'
  · simp only [ne_eq, hack, not_false_eq_true, ↓reduceIte, runs_bind, runs_perform, runs_pure] at h
    obtain ⟨_, _, _, rfl, rfl, rfl, -⟩ := h
    simp [messages, sent] at hres

end Reported

/-- What a run of the application that reports a success has done: the data that
the server sent behind the info file is the encoding of a list of chunks, its
hash is the one of the info file, and the devices hold what flashing these
chunks is for. -/
theorem success_flashed {plat : Platform} {mem : Memory} {n k : Nat} {t : List MainEvent} {r : Option Unit}
    (lib : Library) (σ : Content) (hr : Runs (flashappMain plat mem n k) t r) (hres : .result true ∈ messages t)
    (hsep : ∀ es ∈ polls t, ∀ e ∈ es, Separate 0x40000000 0x40000000 e)
    (hroom : (served t).length < 0x40000000)
    (himg : ∀ img : DdrImage, noteEvent (.processWfp img.mem img.siz) ∈ t →
      Proper plat.api img ∧ LawfulRun lib img.mem σ (flashes t)) :
    ∃ (p q : List MainEvent) (tHash : List UInt8) (m : Memory) (cs : List (Chunk plat.api)),
      t = p ++ noteEvent (.parseInfoFile 0 tHash) :: q ∧ last finalized q = some tHash ∧
      served q = WfpJoin.image cs ∧ Holds m 0x40000000 (served q) ∧
      content lib m σ (flashes t) = cs.foldl (program lib) σ ∧
      ∀ pre c post, cs = pre ++ c :: post → (∀ c' ∈ post, Spares lib c' c) →
        Holds (content lib m σ (flashes t) (deviceOf c)) c.offset c.data := by
  obtain ⟨p, u, v, tHash, m, size, rfl, hf⟩ := flashappMain_reported hr hres
  obtain ⟨mem', uri, hload⟩ := hf.loaded
  have hpolls : polls (p ++ noteEvent (.parseInfoFile 0 tHash) :: (u ++ v)) = polls p ++ (polls u ++ polls v) := by
    rw [← polls_append u v]
    exact polls_append p _
  have hquiet : served v = [] := by simp [served, hf.quiet]
  have hserved : served (u ++ v) = served u := by rw [served_append, hquiet, List.append_nil]
  have hroom' : (served u).length < 0x40000000 := by
    rw [served, hpolls] at hroom
    simp only [List.flatten_append, List.flatMap_append, List.length_append] at hroom
    rw [served]
    omega
  obtain ⟨rfl, hholds⟩ := httpDownload_served (by decide) (by decide) hload
    (fun es hes => hsep es (by rw [hpolls]; simp [hes])) hroom'
  obtain ⟨hproper, hlaw⟩ := himg ⟨m, (served u).length, hroom'.le⟩
    (List.mem_append_right _ (.tail _ (List.mem_append_right _ hf.noted)))
  have hu : flashes u = [] :=
    flashes_downloading ((calls_httpDownload _ _ _ _ _ _).forall_mem hload)
  have hflashes : flashes (p ++ noteEvent (.parseInfoFile 0 tHash) :: (u ++ v)) = flashes p ++ flashes v := by
    have hnext : flashes (u ++ v) = flashes v := by rw [flashes_append, hu, List.nil_append]
    rw [← hnext]
    exact flashes_append p _
  have hsame := WfpFlash.content_reads lib m σ hf.opened
  rw [hflashes, WfpFlash.lawfulRun_append] at hlaw
  have hlaw' := hlaw.2
  rw [hsame] at hlaw'
  obtain ⟨cs, hcs, hdone⟩ := WfpFlash.flashed_of_run lib hproper σ hf.done hlaw'
  have hcontent : content lib m σ (flashes (p ++ noteEvent (.parseInfoFile 0 tHash) :: (u ++ v))) =
      cs.foldl (program lib) σ := by
    rw [hflashes, WfpFlash.content_append, hsame]
    exact hdone
  refine ⟨p, u ++ v, tHash, m, cs, rfl, hf.hash, ?_, ?_, hcontent, ?_⟩
  · rw [hserved]
    exact hholds.symm.trans hcs
  · rw [hserved]
    exact hholds
  · rintro pre c post rfl hspares
    rw [hcontent, List.foldl_append, List.foldl_cons]
    exact WfpFlash.foldl_holds post (WfpFlash.program_device lib _ c) hspares

section Success

open MainSuccess

variable (plat : Platform) (lib : Library) (σ : Content) {info info' : DeviceInfo} (n k : Nat)
  {infoFile file : List UInt8}

/-- A run from the first message on in which every message is sent and the
clock stands still. -/
theorem runs_station_success (mem : Memory) (hinfo : infoFile.length < 2048)
    (hparse : parseInfoFile infoFile info = (0, info')) (hfile : file.length < 2 ^ 16)
    (hhash : fileHash plat.sha file = info'.tHash)
    (hwfp : ∀ m, Holds m 0x40000000 file →
      ∃ w, Runs (processWfp plat.api m ⟨0x40000000, file.length⟩ k) w (some 0) ∧ LawfulRun lib m σ w) :
    ∃ t m w, Runs (station plat mem info (n + 2) k) t (some ()) ∧ Holds m 0x40000000 file ∧
      LawfulRun lib m σ w ∧ flashes t = w ∧ .result true ∈ messages t ∧
      polls t = [transfer infoFile (hinfo.trans (by decide)), transfer file hfile] ∧
      ∀ m' siz, noteEvent (.processWfp m' siz) ∈ t → m' = m ∧ siz = file.length := by
  obtain ⟨mem₁, h₁⟩ := runs_getDeviceInfo plat mem n (hinfo.trans (by decide)) hinfo hparse
  obtain ⟨m, hm, h₂⟩ := runs_getDataFile plat mem₁ n hfile hhash
  obtain ⟨w, hw, hlaw⟩ := hwfp m hm
  have hflash : Runs (flash (processWfp plat.api m ⟨0x40000000, file.length⟩ k)) (flashEvents w) (some 0) :=
    runs_embed.mpr ⟨w, rfl, hw⟩
  obtain ⟨image, himage⟩ : ∃ image : DeviceInfo, image =
      { info' with pucWfpImage := 0x40000000, sizWfpImage := file.length } := ⟨_, rfl⟩
  have htime : Runs (duration 0) [timeEvent 0] (sub32 0 0) := runs_duration.mpr ⟨0, rfl, rfl⟩
  have hstart : ∀ info pcId, Runs (generateStartMessage info pcId)
      [messageEvent (startMessage info pcId) 0] () := fun _ _ => runs_generateStartMessage.mpr ⟨0, rfl⟩
  have hend : ∀ pcId, Runs (generateEndMessage image pcId 0 "OK" (sub32 0 0))
      [messageEvent (endMessage image pcId 0 "OK" (sub32 0 0)) 0] () :=
    fun _ => runs_generateEndMessage.mpr ⟨0, rfl⟩
  have hreport : Runs (reportFlash image (sub32 0 0) 0 0) _ (some ()) :=
    htime.bind ((hend .flashEnd).bind (runs_finish image 0 "OK" (sub32 0 0) (sub32 0 0) .flashingOk))
  have himg : Runs (flashImage plat m image (sub32 0 0) k) _ (some ()) :=
    (hstart image .flashStart).bind (.perform_bind (r := 0) (.perform_bind (r := ())
      (by rw [himage] at hreport ⊢; exact hflash.bind hreport)))
  have hdata : Runs (processDataFile plat mem₁ info' 0 (n + 2) k) _ (some ()) := h₂.bind
    (htime.bind (by rw [himage] at hend himg; exact (hend .downloadEnd).bind himg))
  have hall : Runs (station plat mem info (n + 2) k) _ (some ()) :=
    (hstart info .downloadStart).bind (.perform_bind (r := 0) (h₁.bind hdata))
  refine ⟨_, m, w, hall, hm, hlaw, ?_, ?_, ?_, ?_⟩
  · have hrest : ∀ s, flashes (flashEvents w ++ s) = w ++ flashes s := by
      intro s
      rw [flashes_append, flashes_flashEvents]
    exact (hrest _).trans (List.append_nil w)
  · subst himage
    have hlast : Kind.result true ∈ messages (flashEvents w ++ [timeEvent 0,
        messageEvent (endMessage { info' with pucWfpImage := 0x40000000, sizWfpImage := file.length } .flashEnd 0
          "OK" (sub32 0 0)) 0,
        messageEvent (resultMessage { info' with pucWfpImage := 0x40000000, sizWfpImage := file.length } 0 "OK"
          (sub32 0 0) (sub32 0 0)) 0, blinkEvent .flashingOk]) := by
      rw [messages, filterMap_skips fun _ _ => rfl]
      exact .tail _ (.head _)
    exact .tail _ (.tail _ (.tail _ hlast))
  · exact congrArg (fun l => transfer infoFile _ :: transfer file _ :: l) (filterMap_skips (fun _ _ => rfl) w _)
  · intro m' siz hmem
    simpa [downloadEvents, Event.embed, himage] using hmem

theorem runs_success (mem : Memory) {buf : Memory} (hfdl : checkFdl plat.crc buf .cleared = (0, info))
    (hinfo : infoFile.length < 2048) (hparse : parseInfoFile infoFile info = (0, info'))
    (hfile : file.length < 2 ^ 16) (hhash : fileHash plat.sha file = info'.tHash)
    (hwfp : ∀ m, Holds m 0x40000000 file →
      ∃ w, Runs (processWfp plat.api m ⟨0x40000000, file.length⟩ k) w (some 0) ∧ LawfulRun lib m σ w) :
    ∃ t m w, Runs (flashappMain plat mem (n + 2) k) t (some ()) ∧ Holds m 0x40000000 file ∧
      LawfulRun lib m σ w ∧ flashes t = fdlEvents plat buf ++ w ∧ .result true ∈ messages t ∧
      polls t = [transfer infoFile (hinfo.trans (by decide)), transfer file hfile] ∧
      ∀ m' siz, noteEvent (.processWfp m' siz) ∈ t → m' = m ∧ siz = file.length := by
  obtain ⟨t, m, w, hrun, hm, hlaw, hflashes, hres, hpolls, himg⟩ :=
    runs_station_success plat lib σ n k mem hinfo hparse hfile hhash hwfp
  have hread : Runs (flash (readFDL plat.api plat.crc .cleared)) (flashEvents (fdlEvents plat buf)) (0, info) :=
    runs_embed.mpr ⟨_, rfl, runs_readFDL plat hfdl⟩
  have hmain : Runs (flashappMain plat mem (n + 2) k) _ (some ()) :=
    .perform_bind (r := (0 : Int)) (hread.bind (.perform_bind (r := ()) (.perform_bind (r := ())
      (.perform_bind (r := (0 : Int)) hrun))))
  refine ⟨_, m, w, hmain, hm, hlaw, ?_, ?_, ?_, ?_⟩
  · rw [← hflashes]
    rfl
  · exact hres
  · exact hpolls
  · intro m' siz hmem
    have hmem' : noteEvent (.processWfp m' siz) ∈ t := by simpa [fdlEvents, Event.embed] using hmem
    exact himg m' siz hmem'

theorem separate_transfer (h : file.length < 2 ^ 16) : ∀ e ∈ transfer file h, Separate 0x40000000 0x40000000 e := by
  intro e he
  simp only [transfer, List.mem_cons, List.not_mem_nil, or_false] at he
  obtain rfl | rfl := he
  · intro b hb
    obtain rfl := List.mem_singleton.mp hb
    have hpayload : 0x04080000 + file.length ≤ 0x40000000 := by omega
    exact .inl hpayload
  · trivial

theorem length_transfer (h : file.length < 2 ^ 16) : ((transfer file h).flatMap delivered).length = file.length := by
  simp [transfer, delivered, length_payload, HttpDownload.oneElement, PbufChain.elements, size]

end Success

theorem success_flashed_example :
    ∃ (t p q : List MainEvent) (tHash : List UInt8) (m : Memory) (cs : List (Chunk examplePlatform.api)),
      Runs (flashappMain examplePlatform (fun _ => 0) 2 4) t (some ()) ∧
      t = p ++ noteEvent (.parseInfoFile 0 tHash) :: q ∧ last finalized q = some tHash ∧
      served q = WfpJoin.image cs ∧ Holds m 0x40000000 (served q) ∧
      content WfpFlash.exampleLibrary m (fun _ _ => 0) (flashes t) =
        cs.foldl (program WfpFlash.exampleLibrary) fun _ _ => 0 := by
  have hparse : (parseInfoFile (infoFile exampleFileHash) exampleInfo).1 = 0 ∧
      MainSuccess.fileHash examplePlatform.sha (WfpJoin.image WfpFlash.exampleFile) =
        (parseInfoFile (infoFile exampleFileHash) exampleInfo).2.tHash := by
    decide +kernel
  have hlen : (infoFile exampleFileHash).length = 99 := by decide +kernel
  obtain ⟨t, m, w, hrun, hm, hlaw, hflashes, hres, hpolls, himg⟩ := runs_success examplePlatform
    WfpFlash.exampleLibrary (fun _ _ => 0) 0 4 (fun _ => 0) exampleFdl_valid (by rw [hlen]; decide)
    (Prod.ext hparse.1 rfl) (by decide) hparse.2 fun m hm => WfpFlash.exampleFile_flashed hm _ (by decide)
  have hsep : ∀ es ∈ polls t, ∀ e ∈ es, Separate 0x40000000 0x40000000 e := by
    rw [hpolls, List.forall_mem_cons, List.forall_mem_singleton]
    exact ⟨separate_transfer _, separate_transfer _⟩
  have hroom : (served t).length < 0x40000000 := by
    rw [served, hpolls]
    simp only [List.flatten_cons, List.flatten_nil, List.append_nil, List.flatMap_append, List.length_append,
      length_transfer, hlen]
    decide
  have hfits : ∀ img : DdrImage, noteEvent (.processWfp img.mem img.siz) ∈ t →
      Proper examplePlatform.api img ∧ LawfulRun WfpFlash.exampleLibrary img.mem (fun _ _ => 0) (flashes t) := by
    intro img hnoted
    obtain ⟨hmem, hsiz⟩ := himg _ _ hnoted
    refine ⟨WfpFlash.proper_exampleFile (by rw [hmem]; exact hm) hsiz, ?_⟩
    rw [hmem, hflashes, WfpFlash.lawfulRun_append]
    exact ⟨⟨rfl, trivial, trivial⟩, hlaw⟩
  obtain ⟨p, q, tHash, m', cs, ht, hhash, hcs, hm', hcontent, -⟩ :=
    success_flashed WfpFlash.exampleLibrary (fun _ _ => 0) hrun hres hsep hroom hfits
  exact ⟨t, p, q, tHash, m', cs, hrun, ht, hhash, hcs, hm', hcontent⟩

end FlashApp.MainFlash
