import FlashApp.MainRuns

namespace FlashApp.MainSuccess

open Bytes Interaction Sha384 Lwip HttpDownload Flasher Wfp Fdl InfoFile Main MainDownload MainRuns

/-- A file that comes in one packet, and the end of its transfer. -/
def transfer (file : List UInt8) (h : file.length < 2 ^ 16) : List HttpEvent :=
  [.data (store (fun _ => 0) 0x04080000 file) (some (oneElement file.length h)) .ok,
    .result .ok file.length 200 .ok]

def padded (file : List UInt8) : List UInt8 :=
  file ++ dinBytes (sha384FinalizeByte file.length)

def fileHash (sha : ShaUnit) (file : List UInt8) : List UInt8 := sha.digest (padded file)

theorem slice_received (mem : Memory) (file : List UInt8) (h : file.length < 2 ^ 16) :
    slice (received mem (store (fun _ => 0) 0x04080000 file) (oneElement file.length h))
      0x04080000 file.length = file := by
  refine (slice_congr ?_).trans (holds_store (fun _ => 0) 0x04080000 file)
  intro x hlo hhi
  simp [received, oneElement, PbufChain.elements, hlo, hhi]

section OnePacket

variable (sha : ShaUnit) (mem : Memory) {pucBuffer sizBuffer : Nat} {file : List UInt8}
  (hfile : file.length < 2 ^ 16)

theorem dataCallback_packet (hnull : pucBuffer ≠ 0) (hfits : pucBuffer + sizBuffer < 2 ^ 32)
    (hroom : file.length < sizBuffer) :
    ∃ d, httpDownloadDataCallback { initialDownload mem pucBuffer sizBuffer with
        mem := received mem (store (fun _ => 0) 0x04080000 file) (oneElement file.length hfile) }
        (some (oneElement file.length hfile)) .ok = some (.ok, d) ∧
      Holds d.mem pucBuffer file ∧ d.din = file ∧ d.http.pucStart = pucBuffer ∧
      d.http.pucCnt = pucBuffer + file.length ∧ d.http.fIsFinished = 0 := by
  have hslice := slice_received mem file hfile
  generalize received mem (store (fun _ => 0) 0x04080000 file) (oneElement file.length hfile) = m
    at hslice ⊢
  have hgap : gap 0x04080000 = 0 := rfl
  have haddr : 0x04080000 + max file.length (gap 0x04080000) + 4 < 2 ^ 32 := by
    rw [hgap]
    omega
  obtain ⟨ws, hws, hdin⟩ := sha384Update_writes m haddr
  rw [hgap, Nat.max_zero, hslice] at hdin
  have hleft : sub32 (add32 pucBuffer sizBuffer) pucBuffer = sizBuffer := by
    rw [add32_of_lt hfits, sub32_of_le (by omega) hfits]
    omega
  refine ⟨Download.finishChain { initialDownload mem pucBuffer sizBuffer with mem := m }
    (oneElement file.length hfile) ⟨add32 pucBuffer file.length, sizBuffer - file.length,
      memcpy m pucBuffer 0x04080000 file.length, dinBytes ws⟩, ?_, ?_, hdin, rfl, ?_, rfl⟩
  · simp [httpDownloadDataCallback, oneElement, PbufChain.elements, copyChain, Download.copyState,
      initialDownload, hws, hleft, hnull, hroom]
  · have hstore := holds_store m pucBuffer file
    rw [← hslice] at hstore
    simpa [Download.finishChain, memcpy, hslice] using hstore
  · exact add32_of_lt (by omega)

def downloadEvents (sha : ShaUnit) (uri : Uri) (file : List UInt8) (h : file.length < 2 ^ 16) :
    List MainEvent :=
  [timeEvent 0, ⟨.httpcGetFile uri, .ok⟩, ⟨.networkCyclicProcess, transfer file h⟩,
    noteEvent (.finalized (fileHash sha file)), timeEvent 0, noteEvent (.httpDownload .ok 200 .ok)]

theorem runs_poll (hnull : pucBuffer ≠ 0) (hfits : pucBuffer + sizBuffer < 2 ^ 32)
    (hroom : file.length < sizBuffer) :
    ∃ d, Runs (pollDownload sha (initialDownload mem pucBuffer sizBuffer))
        [⟨.networkCyclicProcess, transfer file hfile⟩, noteEvent (.finalized (fileHash sha file))]
        (.inl d) ∧
      Holds d.mem pucBuffer file ∧ d.http.pucStart = pucBuffer ∧
      d.http.pucCnt = pucBuffer + file.length ∧ d.http.fIsFinished = 1 ∧ Successful d.http ∧
      d.http.tHash = fileHash sha file := by
  obtain ⟨d₁, hd₁, hmem, hdin, hstart, hcnt, -⟩ :=
    dataCallback_packet mem hfile hnull hfits hroom
  have hhash : (httpDownloadResultCallback sha d₁ .ok file.length 200 .ok).http.tHash =
      fileHash sha file := by
    simp [httpDownloadResultCallback, fileHash, padded, hdin]
  have hpacket : Runs (handleEvent sha (initialDownload mem pucBuffer sizBuffer)
      (.data (store (fun _ => 0) 0x04080000 file) (some (oneElement file.length hfile)) .ok)) []
      (some d₁) := ⟨rfl, (congrArg (Option.map Prod.snd) hd₁).symm⟩
  refine ⟨httpDownloadResultCallback sha d₁ .ok file.length 200 .ok, ?_, hmem, hstart, hcnt, rfl,
    ⟨rfl, rfl, rfl⟩, hhash⟩
  have hend : Runs (handleEvent sha d₁ (.result .ok file.length 200 .ok))
      [noteEvent (.finalized (fileHash sha file))]
      (some (httpDownloadResultCallback sha d₁ .ok file.length 200 .ok)) := by
    rw [← hhash]
    exact ⟨(), [], rfl, rfl, rfl⟩
  have hevents : Runs (handleEvents sha (transfer file hfile)
      (initialDownload mem pucBuffer sizBuffer)) [noteEvent (.finalized (fileHash sha file))]
      (some (httpDownloadResultCallback sha d₁ .ok file.length 200 .ok)) := by
    exact hpacket.bind (hend.bind ⟨rfl, rfl⟩)
  exact .perform_bind (hevents.bind ⟨rfl, rfl⟩)

/-- A file that comes in one packet and fits into the buffer is downloaded. -/
theorem runs_httpDownload (uri : Uri) (hnull : pucBuffer ≠ 0) (hfits : pucBuffer + sizBuffer < 2 ^ 32)
    (hroom : file.length < sizBuffer) (n : Nat) :
    ∃ mem', Holds mem' pucBuffer file ∧
      Runs (httpDownload sha mem uri pucBuffer sizBuffer (n + 2)) (downloadEvents sha uri file hfile)
        (some (mem', some (file.length, fileHash sha file))) := by
  obtain ⟨d, hpoll, hmem, hstart, hcnt, hfin, hok, hhash⟩ :=
    runs_poll sha mem hfile hnull hfits hroom
  have hleave : Runs (pollDownload sha d) [] (.inr (some d)) := by
    rw [pollDownload, if_neg (by rw [hfin]; decide)]
    exact ⟨rfl, rfl⟩
  have hwait : Runs (loop (pollDownload sha) (n + 2) (initialDownload mem pucBuffer sizBuffer))
      ([⟨.networkCyclicProcess, transfer file hfile⟩, noteEvent (.finalized (fileHash sha file))] ++
        []) (some (some d)) :=
    runs_loop_succ.mpr (.inl ⟨d, _, _, rfl, hpoll, runs_loop_succ.mpr (.inr ⟨_, rfl, hleave⟩)⟩)
  have hsize : sub32 d.http.pucCnt d.http.pucStart = file.length := by
    rw [hstart, hcnt, sub32_of_le (by omega) (by omega)]
    omega
  refine ⟨d.mem, hmem, .perform_bind (.perform_bind (hwait.bind (.perform_bind ?_)))⟩
  obtain ⟨hres, hsrv, herr⟩ := hok
  simp only [hres, hsrv, herr, and_self, ↓reduceIte, hsize, hhash]
  exact .perform_bind ⟨rfl, rfl⟩

end OnePacket

/-- Events of the flashing: they start no download, and the image is this one. -/
def Flashing (mem : Memory) (siz : Nat) : MainEvent → Prop
  | ⟨.httpcGetFile _, _⟩ => False
  | ⟨.note (.processWfp m s), _⟩ => m = mem ∧ s = siz
  | _ => True

/-- The downloads of a trace are answered, and the file that is flashed is this
one. -/
structure Delivers (n : Nat) (mem : Memory) (siz : Nat) (t : List MainEvent) : Prop where
  answered : Answered n t
  image : ∀ m s, noteEvent (.processWfp m s) ∈ t → m = mem ∧ s = siz

section Delivers

variable {n siz : Nat} {mem : Memory}

theorem Delivers.append {s t : List MainEvent} (hs : ∀ e ∈ s, Flashing mem siz e)
    (ht : Delivers n mem siz t) : Delivers n mem siz (s ++ t) where
  answered := ht.answered.append fun _ he => hs _ he
  image m s' hm := by
    obtain hm | hm := List.mem_append.mp hm
    · exact hs _ hm
    · exact ht.image m s' hm

theorem Delivers.download {sha : ShaUnit} {uri : Uri} {file : List UInt8}
    (hfile : file.length < 2 ^ 16) {t : List MainEvent} (ht : Delivers (n + 2) mem siz t) :
    Delivers (n + 2) mem siz (downloadEvents sha uri file hfile ++ t) := by
  have hrest : Delivers (n + 2) mem siz ([⟨.networkCyclicProcess, transfer file hfile⟩,
      noteEvent (.finalized (fileHash sha file)), timeEvent 0,
      noteEvent (.httpDownload .ok 200 .ok)] ++ t) := ht.append (by simp [Flashing])
  have hget := hrest.answered.start uri
    ⟨transfer file hfile, .head _, .result .ok file.length 200 .ok, by simp [transfer], trivial⟩
  refine ⟨hget.append (s := [timeEvent 0]) (by simp), fun m s hm => ?_⟩
  apply hrest.image m s
  simpa [downloadEvents] using hm

end Delivers

section Station

variable (plat : Platform) (mem : Memory) {info info' : DeviceInfo} (n : Nat) {k : Nat}

theorem runs_getDeviceInfo {file : List UInt8} (hfile : file.length < 2 ^ 16)
    (hroom : file.length < 2048) (hparse : parseInfoFile file info = (0, info')) :
    ∃ mem', Runs (getDeviceInfo plat mem info (n + 2))
      (downloadEvents plat.sha (infoUri info) file hfile ++
        [noteEvent (.parseInfoFile 0 info'.tHash)]) (some (0, info', mem')) := by
  obtain ⟨mem', hmem, hrun⟩ := runs_httpDownload plat.sha
    (store mem plat.pucInfoBuffer (List.replicate 2048 0)) hfile (infoUri info) plat.info_pos.ne'
    plat.info_fits hroom n
  refine ⟨mem', hrun.bind ?_⟩
  have hslice : slice mem' plat.pucInfoBuffer file.length = file := hmem
  simp only [hslice, hparse]
  exact .perform_bind ⟨rfl, rfl⟩

theorem runs_getDataFile {file : List UInt8} (hfile : file.length < 2 ^ 16)
    (hhash : fileHash plat.sha file = info.tHash) :
    ∃ mem', Holds mem' 0x40000000 file ∧ Runs (getDataFile plat mem info (n + 2))
      (downloadEvents plat.sha (.data info.acDataUri) file hfile)
      (some (0, { info with pucWfpImage := 0x40000000, sizWfpImage := file.length }, mem')) := by
  have hfits : 0x40000000 + 0x40000000 < 2 ^ 32 := by decide
  obtain ⟨mem', hmem, hrun⟩ := runs_httpDownload plat.sha mem hfile (.data info.acDataUri)
    (by decide) hfits (by omega) n
  refine ⟨mem', hmem, ?_⟩
  rw [← List.append_nil (downloadEvents _ _ _ _)]
  refine hrun.bind ?_
  simp only [hhash, ↓reduceIte]
  exact ⟨rfl, rfl⟩

theorem runs_finish (info : DeviceInfo) (iResult : Int) (pcErrorMessage : String)
    (ulDurationDownload ulDurationFlash : Nat) (code : BlinkCode) :
    Runs (finish info iResult pcErrorMessage ulDurationDownload ulDurationFlash code)
      [messageEvent (resultMessage info iResult pcErrorMessage ulDurationDownload ulDurationFlash) 0,
        blinkEvent code] (some ()) :=
  .perform_bind (.perform_bind ⟨rfl, rfl⟩)

theorem runs_reportFlash (info : DeviceInfo) (ulDurationDownload : Nat) (iResult : Int) :
    ∃ t, Runs (reportFlash info ulDurationDownload 0 iResult) t (some ()) ∧
      ∀ mem siz, ∀ e ∈ t, Flashing mem siz e := by
  have htime : Runs (duration 0) [timeEvent 0] (sub32 0 0) := runs_duration.mpr ⟨0, rfl, rfl⟩
  have hend : ∀ (i : Int) (m : String), Runs (generateEndMessage info .flashEnd i m (sub32 0 0))
      [messageEvent (endMessage info .flashEnd i m (sub32 0 0)) 0] () :=
    fun _ _ => runs_generateEndMessage.mpr ⟨0, rfl⟩
  by_cases hok : iResult = 0
  · have hreport := (hend 0 "OK").bind (f := fun _ => finish info iResult "OK" ulDurationDownload
      (sub32 0 0) .flashingOk) (runs_finish _ _ _ _ _ _)
    exact ⟨_, htime.bind (by rw [if_pos hok]; exact hreport), by simp [Flashing]⟩
  · have hreport := (hend (-1) "Failed to flash the SWFP.").bind (f := fun _ => finish info iResult
      "Failed to flash the SWFP." ulDurationDownload (sub32 0 0) .flashingFailed)
      (runs_finish _ _ _ _ _ _)
    exact ⟨_, htime.bind (by rw [if_neg hok]; exact hreport), by simp [Flashing]⟩

theorem runs_flashImage {w : List FlashEvent} {r : Option Int}
    (hw : Runs (processWfp plat.api mem (image info) k) w r) (ulDurationDownload : Nat) :
    ∃ t, Runs (flashImage plat mem info ulDurationDownload k) t (r.map fun _ => ()) ∧
      ∀ e ∈ t, Flashing mem info.sizWfpImage e := by
  have hflash : Runs (flash (processWfp plat.api mem (image info) k)) (flashEvents w) r :=
    runs_embed.mpr ⟨w, rfl, hw⟩
  have hevents : ∀ e ∈ messageEvent (startMessage info .flashStart) 0 :: timeEvent 0 ::
      noteEvent (.processWfp mem info.sizWfpImage) :: flashEvents w,
      Flashing mem info.sizWfpImage e := by
    rw [List.forall_mem_cons, List.forall_mem_cons, List.forall_mem_cons, List.forall_mem_map]
    exact ⟨trivial, trivial, ⟨rfl, rfl⟩, fun _ _ => trivial⟩
  cases r with
  | none =>
    have hrun : Runs (flashImage plat mem info ulDurationDownload k)
        (messageEvent (startMessage info .flashStart) 0 :: timeEvent 0 ::
          noteEvent (.processWfp mem info.sizWfpImage) :: (flashEvents w ++ [])) none :=
      .perform_bind (.perform_bind (.perform_bind (hflash.bind ⟨rfl, rfl⟩)))
    rw [List.append_nil] at hrun
    exact ⟨_, hrun, hevents⟩
  | some iResult =>
    obtain ⟨t, ht, hrest⟩ := runs_reportFlash info ulDurationDownload iResult
    have hrun : Runs (flashImage plat mem info ulDurationDownload k)
        (messageEvent (startMessage info .flashStart) 0 :: timeEvent 0 ::
          noteEvent (.processWfp mem info.sizWfpImage) :: (flashEvents w ++ t)) (some ()) :=
      .perform_bind (.perform_bind (.perform_bind (hflash.bind ht)))
    rw [← List.cons_append, ← List.cons_append, ← List.cons_append] at hrun
    refine ⟨_, hrun, ?_⟩
    rw [List.forall_mem_append]
    exact ⟨hevents, hrest _ _⟩

theorem runs_processDataFile {file : List UInt8} (hfile : file.length < 2 ^ 16)
    (hhash : fileHash plat.sha file = info.tHash) {r : Option Int}
    (hwfp : ∀ mem', Holds mem' 0x40000000 file →
      ∃ w, Runs (processWfp plat.api mem' ⟨0x40000000, file.length⟩ k) w r) :
    ∃ t mem', Runs (processDataFile plat mem info 0 (n + 2) k) t (r.map fun _ => ()) ∧
      Holds mem' 0x40000000 file ∧ Delivers (n + 2) mem' file.length t := by
  obtain ⟨mem', hmem, h₁⟩ := runs_getDataFile plat mem n hfile hhash
  obtain ⟨w, hw⟩ := hwfp mem' hmem
  let info' : DeviceInfo := { info with pucWfpImage := 0x40000000, sizWfpImage := file.length }
  have hw' : Runs (processWfp plat.api mem' (image info') k) w r := hw
  obtain ⟨v, hv, hflash⟩ := runs_flashImage plat mem' hw' (sub32 0 0)
  have htime : Runs (duration 0) [timeEvent 0] (sub32 0 0) := runs_duration.mpr ⟨0, rfl, rfl⟩
  have hend : Runs (generateEndMessage info' .downloadEnd 0 "OK" (sub32 0 0))
      [messageEvent (endMessage info' .downloadEnd 0 "OK" (sub32 0 0)) 0] () :=
    runs_generateEndMessage.mpr ⟨0, rfl⟩
  refine ⟨_, mem', h₁.bind (htime.bind (hend.bind hv)), hmem, Delivers.download hfile ?_⟩
  have hnil : Delivers (n + 2) mem' file.length [] := ⟨by intro pre uri post h; simp at h, by simp⟩
  rw [← List.append_nil v, ← List.append_assoc, ← List.append_assoc]
  refine hnil.append ?_
  rw [List.forall_mem_append]
  exact ⟨by simp [Flashing], hflash⟩

theorem runs_station {infoFile file : List UInt8} (hinfo : infoFile.length < 2048)
    (hparse : parseInfoFile infoFile info = (0, info')) (hfile : file.length < 2 ^ 16)
    (hhash : fileHash plat.sha file = info'.tHash) {r : Option Int}
    (hwfp : ∀ mem', Holds mem' 0x40000000 file →
      ∃ w, Runs (processWfp plat.api mem' ⟨0x40000000, file.length⟩ k) w r) :
    ∃ t mem', Runs (station plat mem info (n + 2) k) t (r.map fun _ => ()) ∧
      Holds mem' 0x40000000 file ∧ Delivers (n + 2) mem' file.length t := by
  obtain ⟨mem₁, h₁⟩ := runs_getDeviceInfo plat mem n (hinfo.trans (by decide)) hinfo hparse
  obtain ⟨t, mem₂, h₂, hmem, hd⟩ := runs_processDataFile plat mem₁ n hfile hhash hwfp
  have hstart : Runs (generateStartMessage info .downloadStart)
      [messageEvent (startMessage info .downloadStart) 0] () :=
    runs_generateStartMessage.mpr ⟨0, rfl⟩
  refine ⟨_, mem₂, hstart.bind (.perform_bind (r := 0) (h₁.bind h₂)), hmem, ?_⟩
  have hparsed : Delivers (n + 2) mem₂ file.length
      ([noteEvent (.parseInfoFile 0 info'.tHash)] ++ t) := hd.append (by simp [Flashing])
  have hfirst : Delivers (n + 2) mem₂ file.length (downloadEvents plat.sha (infoUri info) infoFile _ ++
      ([noteEvent (.parseInfoFile 0 info'.tHash)] ++ t)) :=
    hparsed.download (hinfo.trans (by decide))
  rw [List.append_assoc]
  exact hfirst.append (s := [_, _]) (by simp [Flashing])

def fdlEvents (buf : Memory) : List FlashEvent :=
  [⟨.spiDetect (spiConfiguration plat.api 0 0), (.ok, [])⟩,
    ⟨.spiRead [] 0xff0000 (0xff0000 + sizFdl), (.ok, buf)⟩]

theorem runs_readFDL {buf : Memory} (hfdl : checkFdl plat.crc buf .cleared = (0, info)) :
    Runs (readFDL plat.api plat.crc .cleared) (fdlEvents plat buf) (0, info) :=
  .perform_bind (.perform_bind ⟨rfl, hfdl.symm⟩)

/-- The whole application with a valid FDL and both files in one packet. -/
theorem runs_flashappMain {buf : Memory} {infoFile file : List UInt8}
    (hfdl : checkFdl plat.crc buf .cleared = (0, info)) (hinfo : infoFile.length < 2048)
    (hparse : parseInfoFile infoFile info = (0, info')) (hfile : file.length < 2 ^ 16)
    (hhash : fileHash plat.sha file = info'.tHash) {r : Option Int}
    (hwfp : ∀ mem', Holds mem' 0x40000000 file →
      ∃ w, Runs (processWfp plat.api mem' ⟨0x40000000, file.length⟩ k) w r) :
    ∃ t mem', Runs (flashappMain plat mem (n + 2) k) t (r.map fun _ => ()) ∧
      noteEvent (.readFDL 0) ∈ t ∧ Holds mem' 0x40000000 file ∧
      Delivers (n + 2) mem' file.length t := by
  obtain ⟨t, mem', hrun, hmem, hd⟩ := runs_station plat mem n hinfo hparse hfile hhash hwfp
  have hread : Runs (flash (readFDL plat.api plat.crc .cleared)) (flashEvents (fdlEvents plat buf))
      (0, info) := runs_embed.mpr ⟨_, rfl, runs_readFDL plat hfdl⟩
  have hmain : Runs (flashappMain plat mem (n + 2) k) (⟨.ackLastRomcodePacket, (0 : Int)⟩ ::
      (flashEvents (fdlEvents plat buf) ++ ([noteEvent (.readFDL 0),
        ⟨.setupHardware info.ulDeviceNr, ()⟩, ⟨.setupNetwork, (0 : Int)⟩] ++ t)))
      (r.map fun _ => ()) :=
    .perform_bind (hread.bind (.perform_bind (.perform_bind (.perform_bind hrun))))
  refine ⟨_, mem', hmain, by simp, hmem, ?_⟩
  rw [← List.cons_append, ← List.append_assoc]
  refine hd.append ?_
  simp [Flashing, fdlEvents, Event.embed]

end Station

end FlashApp.MainSuccess
