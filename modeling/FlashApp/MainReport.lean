import FlashApp.MainSuccess
import FlashApp.WfpFlash

namespace FlashApp.MainReport

open Bytes Interaction Trace Sha384 Lwip Flasher Wfp WfpGood WfpBounds Fdl InfoFile Main
  MainDownload MainRuns MainSuccess

inductive Kind where
  | start (pcId : MessageId)
  | stop (pcId : MessageId) (fOk : Bool)
  | result (fOk : Bool)
  deriving DecidableEq

def kind : Message → Kind
  | .start pcId _ _ _ _ => .start pcId
  | .stop pcId _ _ _ _ fOk _ _ => .stop pcId fOk
  | .result _ _ _ _ _ fOk _ _ _ => .result fOk

def sent : MainEvent → Option Kind
  | ⟨.sendMessage m, _⟩ => some (kind m)
  | _ => none

def parsed : MainEvent → Option (Int × List UInt8)
  | ⟨.note (.parseInfoFile iResult tHash), _⟩ => some (iResult, tHash)
  | _ => none

def startUp : MainEvent → Option Int
  | ⟨.ackLastRomcodePacket, iResult⟩ => some iResult
  | ⟨.note (.readFDL iResult), _⟩ => some iResult
  | _ => none

def messages (t : List MainEvent) : List Kind := t.filterMap sent

def checks (t : List MainEvent) : List Int := t.filterMap startUp

def Changes : MainEvent → Prop
  | ⟨.flash c, _⟩ => c.EraseOrProgram
  | _ => False

/-- All that has to be successful before a flash is changed: the FDL, the two
downloads with the info file parsed in between, and the hash of the second one. -/
structure Gate (pre : List MainEvent) : Prop where
  fdl : noteEvent (.readFDL 0) ∈ pre
  files : ∃ p q tHash, pre = p ++ noteEvent (.parseInfoFile 0 tHash) :: q ∧
    downloads p = [(.ok, 200, .ok)] ∧ downloads q = [(.ok, 200, .ok)] ∧
    last finalized q = some tHash ∧ tHash.length = 48
  once : (pre.filterMap parsed).length = 1

def Gated (pre : List MainEvent) (e : MainEvent) : Prop := Changes e → Gate pre

def report (f1 f2 : Bool) : List Kind :=
  [.start .downloadStart, .stop .downloadEnd f1] ++
    (if f1 then [.start .flashStart, .stop .flashEnd f2] else []) ++ [.result (f1 && f2)]

/-- No image that is flashed has a chunk with a size that wraps. -/
def ImagesFit (api : Headers) (t : List MainEvent) : Prop :=
  ∀ img : DdrImage, noteEvent (.processWfp img.mem img.siz) ∈ t → NoWrap api img

theorem messages_append (s t : List MainEvent) : messages (s ++ t) = messages s ++ messages t :=
  List.filterMap_append

theorem checks_append (s t : List MainEvent) : checks (s ++ t) = checks s ++ checks t :=
  List.filterMap_append

/-- A part of a run that sends no message, does not belong to the start-up and
changes no flash. -/
def Silent (t : List MainEvent) : Prop :=
  messages t = [] ∧ checks t = [] ∧ ∀ e ∈ t, ¬ Changes e

theorem Silent.append {s t : List MainEvent} (hs : Silent s) (ht : Silent t) : Silent (s ++ t) := by
  refine ⟨by rw [messages_append, hs.1, ht.1]; rfl, by rw [checks_append, hs.2.1, ht.2.1]; rfl, ?_⟩
  rw [List.forall_mem_append]
  exact ⟨hs.2.2, ht.2.2⟩

theorem filterMap_flashEvents {β : Type} {f : MainEvent → Option β}
    (hf : ∀ (c : Call) (a : Answer c), f ⟨.flash c, a⟩ = none) (t : List FlashEvent) :
    (flashEvents t).filterMap f = [] := by
  rw [List.filterMap_eq_nil_iff, List.forall_mem_map]
  exact fun e _ => hf e.1 e.2

theorem silent_downloading {t : List MainEvent} (ht : ∀ e ∈ t, Downloading e.1) :
    Silent t ∧ t.filterMap parsed = [] := by
  have hev : ∀ e ∈ t, sent e = none ∧ startUp e = none ∧ ¬ Changes e ∧ parsed e = none := by
    rintro ⟨c, a⟩ he
    have hc := ht _ he
    cases c with
    | systimeGetMs | httpcGetFile | networkCyclicProcess => exact ⟨rfl, rfl, id, rfl⟩
    | note m => cases m <;> first | exact ⟨rfl, rfl, id, rfl⟩ | exact hc.elim
    | _ => exact hc.elim
  refine ⟨⟨?_, ?_, fun e he => (hev e he).2.2.1⟩, ?_⟩
  · exact List.filterMap_eq_nil_iff.mpr fun e he => (hev e he).1
  · exact List.filterMap_eq_nil_iff.mpr fun e he => (hev e he).2.1
  · exact List.filterMap_eq_nil_iff.mpr fun e he => (hev e he).2.2.2

theorem silent_info {n : Nat} {info : DeviceInfo} {t : List MainEvent}
    {r : Option (Int × DeviceInfo × Memory)} (h : InfoRun n info t r) : Silent t := by
  cases h with
  | waiting ht _ => exact (silent_downloading ht).1
  | failed ht _ => exact (silent_downloading ht).1
  | parsed ht _ _ _ _ =>
    refine (silent_downloading ht).1.append ⟨rfl, rfl, ?_⟩
    rw [List.forall_mem_singleton]
    exact id

theorem silent_data {n : Nat} {info : DeviceInfo} {t : List MainEvent}
    {r : Option (Int × DeviceInfo × Memory)} (h : DataRun n info t r) : Silent t := by
  cases h with
  | waiting ht _ => exact (silent_downloading ht).1
  | failed ht _ => exact (silent_downloading ht).1
  | verified ht _ _ => exact (silent_downloading ht).1

theorem messages_failure (info : DeviceInfo) {iResult : Int} (hi : iResult ≠ 0)
    (pcMessage : String) (ulTime ulDuration : Nat) (code : BlinkCode) (i j : Int) :
    messages (failureEvents info iResult pcMessage ulTime ulDuration code i j) =
      [.stop .downloadEnd false, .result false] := by
  change [Kind.stop .downloadEnd (decide ((-1 : Int) = 0)), .result (decide (iResult = 0))] = _
  rw [decide_eq_false hi]
  rfl

theorem failure_unchanged (info : DeviceInfo) (iResult : Int) (pcMessage : String) (ulTime ulDuration : Nat)
    (code : BlinkCode) (i j : Int) :
    ∀ e ∈ failureEvents info iResult pcMessage ulTime ulDuration code i j, ¬ Changes e := by
  rw [List.forall_mem_cons, List.forall_mem_cons, List.forall_mem_cons, List.forall_mem_singleton]
  exact ⟨id, id, id, id⟩

theorem always_gated {s t : List MainEvent} (ht : ∀ e ∈ t, ¬ Changes e) :
    Always (fun pre => Gated (s ++ pre)) t := by
  apply Always.of_forall
  intro e he pre hc
  exact absurd hc (ht e he)

section Station

variable {plat : Platform} {mem : Memory} {info : DeviceInfo} {n k : Nat} {t : List MainEvent}

theorem messages_flash {r : Option Unit} (h : FlashRun plat mem info k t r) :
    checks t = [] ∧ ((r = none ∧ messages t = [.start .flashStart]) ∨
    ∃ f2, r = some () ∧ messages t = [.start .flashStart, .stop .flashEnd f2, .result f2]) := by
  have hsent : ∀ w, messages (flashEvents w) = [] := filterMap_flashEvents fun _ _ => rfl
  have hchecks : ∀ w, checks (flashEvents w) = [] := filterMap_flashEvents fun _ _ => rfl
  cases h with
  | running i ulTime ht =>
    exact ⟨hchecks _, .inl ⟨rfl, congrArg (Kind.start .flashStart :: ·) (hsent _)⟩⟩
  | @done i j l ulTime ulTime' w iResult ht pcMessage ulDurationDownload ulDurationFlash code =>
    rw [messages_append, checks_append]
    exact ⟨congrArg (· ++ []) (hchecks w), .inr ⟨decide (iResult = 0), rfl,
      congrArg (Kind.start .flashStart :: · ++ _) (hsent w)⟩⟩

theorem messages_opening (info : DeviceInfo) (i : Int) (ulTime : Nat) (ht : Silent t)
    (s : List MainEvent) :
    messages (opening info i ulTime t ++ s) = .start .downloadStart :: messages s ∧
      checks (opening info i ulTime t ++ s) = checks s := by
  obtain ⟨hm, hc, -⟩ := ht
  rw [messages_append, checks_append]
  exact ⟨congrArg (Kind.start .downloadStart :: · ++ _) hm, congrArg (· ++ _) hc⟩

/-- The messages from the first one on. A run that does not come to its end has
not sent its result. -/
theorem messages_station {r : Option Unit} (h : StationRun plat info n k t r) :
    checks t = [] ∧ ∃ f1 f2, messages t <+: report f1 f2 ∧
      (r = some () → messages t = report f1 f2) ∧ (r = none → ∀ f, .result f ∉ messages t) := by
  cases h with
  | noInfo i ulTime ht =>
    have ho := messages_opening info i ulTime (silent_info ht) []
    rw [List.append_nil] at ho
    rw [ho.1]
    exact ⟨ho.2, false, false, by decide, by simp, by simp [messages]⟩
  | noData i ulTime ht hu =>
    have ho := messages_opening info i ulTime ((silent_info ht).append (silent_data hu)) []
    rw [List.append_nil] at ho
    rw [ho.1]
    exact ⟨ho.2, false, false, by decide, by simp, by simp [messages]⟩
  | infoFailed i ulTime ht hi =>
    rw [(messages_opening _ i ulTime (silent_info ht) _).1, messages_failure _ hi,
      (messages_opening _ i ulTime (silent_info ht) _).2]
    exact ⟨rfl, false, false, by decide, fun _ => rfl, by simp⟩
  | dataFailed i ulTime ht hu hi =>
    have hs := (silent_info ht).append (silent_data hu)
    rw [(messages_opening _ i ulTime hs _).1, messages_failure _ hi,
      (messages_opening _ i ulTime hs _).2]
    exact ⟨rfl, false, false, by decide, fun _ => rfl, by simp⟩
  | @flashed i ulTime t u v info' info'' mem mem' r ht hu ulTime' ulDuration j hv =>
    have hs := (silent_info ht).append (silent_data hu)
    rw [(messages_opening _ i ulTime hs _).1, (messages_opening _ i ulTime hs _).2]
    obtain ⟨hc, hm⟩ := messages_flash hv
    have hv' : messages (timeEvent ulTime' :: messageEvent
        (endMessage info'' .downloadEnd 0 "OK" ulDuration) j :: v) =
        .stop .downloadEnd true :: messages v := rfl
    refine ⟨hc, true, ?_⟩
    rw [hv']
    obtain ⟨rfl, hm⟩ | ⟨f2, rfl, hm⟩ := hm
    · rw [hm]
      exact ⟨true, by decide, by simp, by simp⟩
    · rw [hm]
      exact ⟨f2, List.prefix_rfl, fun _ => rfl, by simp⟩

theorem info_parsed {r : Option (Int × DeviceInfo × Memory)} {info' : DeviceInfo}
    (h : InfoRun n info t r) (hr : r = some (0, info', mem)) :
    ∃ s size tMyHash, t = s ++ [noteEvent (.parseInfoFile 0 info'.tHash)] ∧
      (∀ e ∈ s, Downloading e.1) ∧ Completed 2048 s size tMyHash := by
  cases h with
  | waiting _ _ => cases hr
  | failed _ _ =>
    have hi := (Prod.mk.inj (Option.some.inj hr)).1
    exact absurd hi (by decide)
  | @parsed s ht size tMyHash hd iResult info' mem =>
    cases hr
    exact ⟨s, size, tMyHash, rfl, ht, hd⟩

theorem data_verified {r : Option (Int × DeviceInfo × Memory)} {info' : DeviceInfo}
    (h : DataRun n info t r) (hr : r = some (0, info', mem)) :
    (∀ e ∈ t, Downloading e.1) ∧ ∃ size, Completed 0x40000000 t size info.tHash ∧
      info' = { info with pucWfpImage := 0x40000000, sizWfpImage := size } := by
  cases h with
  | waiting _ _ => cases hr
  | failed _ _ =>
    have hi := (Prod.mk.inj (Option.some.inj hr)).1
    exact absurd hi (by decide)
  | @verified ht size hd mem =>
    cases hr
    exact ⟨ht, size, hd, rfl⟩

/-- The run comes to its end if the HTTP client reports the results and the
image has no size that wraps. -/
theorem station_returns {r : Option Unit} (h : StationRun plat info n k t r) (ha : Answered n t)
    (hfit : ImagesFit plat.api t) (hk : 0x40000000 / 11 < k) : r = some () := by
  cases h with
  | infoFailed | dataFailed => rfl
  | @noInfo i ulTime t ht =>
    cases ht with
    | waiting _ hna =>
      have ha' : Answered n ([_, _] ++ t) := ha
      exact absurd ha'.right hna
  | @noData i ulTime t u info' mem ht hu =>
    cases hu with
    | waiting _ hna =>
      have ha' : Answered n ([_, _] ++ (t ++ u)) := ha
      exact absurd ha'.right.right hna
  | @flashed i ulTime t u v info' info'' mem mem' r ht hu ulTime' ulDuration j hv =>
    cases hv with
    | done => rfl
    | running i' ulTime'' hw =>
      obtain ⟨-, size, hd, rfl⟩ := data_verified hu rfl
      have hno := hfit ⟨mem', size, hd.fits⟩ (by simp)
      have hc := confined_of_noWrap hno hw
      exact absurd rfl (hc.returns (lt_of_le_of_lt (Nat.div_le_div_right hd.fits) hk))

def Unmarked (e : MainEvent) : Prop := downloaded e = none ∧ finalized e = none ∧ parsed e = none

theorem Gate.append {s t : List MainEvent} (hs : Gate s) (ht : ∀ e ∈ t, Unmarked e) :
    Gate (s ++ t) where
  fdl := List.mem_append_left t hs.fdl
  files := by
    obtain ⟨p, q, tHash, rfl, hp, hq, hlast, hlen⟩ := hs.files
    refine ⟨p, q ++ t, tHash, by simp, hp, ?_, ?_, hlen⟩
    · have hdt : downloads t = [] := List.filterMap_eq_nil_iff.mpr fun e he => (ht e he).1
      rw [downloads_append, hq, hdt, List.append_nil]
    · rw [last_append_none q fun e he => (ht e he).2.1, hlast]
  once := by
    have hpt : t.filterMap parsed = [] := List.filterMap_eq_nil_iff.mpr fun e he => (ht e he).2.2
    rw [List.filterMap_append, hpt, List.append_nil, hs.once]

theorem gate_files {s u : List MainEvent} {info' info'' : DeviceInfo} {mem' : Memory}
    (hfdl : noteEvent (.readFDL 0) ∈ s) (hs : ∀ e ∈ s, Unmarked e)
    (ht : InfoRun n info t (some (0, info', mem)))
    (hu : DataRun n info' u (some (0, info'', mem'))) : Gate (s ++ t ++ u) := by
  obtain ⟨t', _, _, rfl, hq, hd⟩ := info_parsed ht rfl
  obtain ⟨hqu, _, hdu, -⟩ := data_verified hu rfl
  have hds : downloads s = [] := List.filterMap_eq_nil_iff.mpr fun e he => (hs e he).1
  have hps : s.filterMap parsed = [] := List.filterMap_eq_nil_iff.mpr fun e he => (hs e he).2.2
  refine ⟨by simp [hfdl], ⟨s ++ t', u, info'.tHash, by simp, ?_, hdu.ended, hdu.hash,
    hdu.length⟩, ?_⟩
  · rw [downloads_append, hds, hd.ended, List.nil_append]
  · rw [List.filterMap_append, List.filterMap_append, List.filterMap_append, hps,
      (silent_downloading hq).2, (silent_downloading hqu).2]
    rfl

theorem Gate.always {s t : List MainEvent} (hs : Gate s) (ht : ∀ e ∈ t, Unmarked e) :
    Always (fun pre => Gated (s ++ pre)) t := by
  rintro pre e post rfl -
  rw [List.forall_mem_append] at ht
  exact hs.append ht.1

theorem unmarked_flash {r : Option Unit} (h : FlashRun plat mem info k t r) :
    ∀ e ∈ t, Unmarked e := by
  have hw : ∀ w : List FlashEvent, ∀ e ∈ flashEvents w, Unmarked e := by
    intro w
    rw [List.forall_mem_map]
    exact fun _ _ => ⟨rfl, rfl, rfl⟩
  cases h with
  | running i ulTime ht =>
    rw [List.forall_mem_cons, List.forall_mem_cons, List.forall_mem_cons]
    exact ⟨⟨rfl, rfl, rfl⟩, ⟨rfl, rfl, rfl⟩, ⟨rfl, rfl, rfl⟩, hw _⟩
  | done =>
    rw [List.forall_mem_append, List.forall_mem_cons, List.forall_mem_cons, List.forall_mem_cons]
    refine ⟨⟨⟨rfl, rfl, rfl⟩, ⟨rfl, rfl, rfl⟩, ⟨rfl, rfl, rfl⟩, hw _⟩, ?_⟩
    rw [List.forall_mem_cons, List.forall_mem_cons, List.forall_mem_cons, List.forall_mem_singleton]
    exact ⟨⟨rfl, rfl, rfl⟩, ⟨rfl, rfl, rfl⟩, ⟨rfl, rfl, rfl⟩, ⟨rfl, rfl, rfl⟩⟩

/-- Only `processWfp` changes a flash, and the gate is open when it starts. -/
theorem gated_station {s : List MainEvent} {r : Option Unit}
    (hfdl : noteEvent (.readFDL 0) ∈ s) (hs : ∀ e ∈ s, Unmarked e)
    (h : StationRun plat info n k t r) : Always (fun pre => Gated (s ++ pre)) t := by
  have hstart : ∀ {i ulTime : _} {t : List MainEvent}, Silent t →
      ∀ e ∈ messageEvent (startMessage info .downloadStart) i :: timeEvent ulTime :: t,
        ¬ Changes e := by
    intro i ulTime t ht
    rw [List.forall_mem_cons, List.forall_mem_cons]
    exact ⟨id, id, ht.2.2⟩
  cases h with
  | noInfo _ _ ht => exact always_gated (hstart (silent_info ht))
  | noData _ _ ht hu => exact always_gated (hstart ((silent_info ht).append (silent_data hu)))
  | infoFailed _ _ ht =>
    apply always_gated
    rw [List.forall_mem_append]
    exact ⟨hstart (silent_info ht), failure_unchanged _ _ _ _ _ _ _ _⟩
  | dataFailed _ _ ht hu =>
    apply always_gated
    rw [List.forall_mem_append]
    exact ⟨hstart ((silent_info ht).append (silent_data hu)), failure_unchanged _ _ _ _ _ _ _ _⟩
  | @flashed i ulTime t u v info' info'' mem mem' r ht hu ulTime' ulDuration j hv =>
    rw [always_append]
    refine ⟨always_gated (hstart ((silent_info ht).append (silent_data hu))), ?_⟩
    have hgate : Gate (s ++ [messageEvent (startMessage info .downloadStart) i,
        timeEvent ulTime] ++ t ++ u) := by
      refine gate_files (List.mem_append_left _ hfdl) ?_ ht hu
      rw [List.forall_mem_append, List.forall_mem_cons, List.forall_mem_singleton]
      exact ⟨hs, ⟨rfl, rfl, rfl⟩, ⟨rfl, rfl, rfl⟩⟩
    have hall : Always (fun pre => Gated (s ++ [messageEvent (startMessage info .downloadStart) i,
        timeEvent ulTime] ++ t ++ u ++ pre)) (timeEvent ulTime' :: messageEvent
        (endMessage info'' .downloadEnd 0 "OK" ulDuration) j :: v) := by
      apply hgate.always
      rw [List.forall_mem_cons, List.forall_mem_cons]
      exact ⟨⟨rfl, rfl, rfl⟩, ⟨rfl, rfl, rfl⟩, unmarked_flash hv⟩
    simpa using hall

/-- What is expected of a run of `flashapp_main`. -/
structure Orderly (plat : Platform) (n k : Nat) (t : List MainEvent) : Prop where
  gated : Always Gated t
  silent : (∃ i ∈ checks t, i ≠ 0) → messages t = []
  begun : ∃ f1 f2, messages t <+: report f1 f2
  reported : Answered n t → ImagesFit plat.api t → 0x40000000 / 11 < k →
    noteEvent (.readFDL 0) ∈ t → ∃ f1 f2, messages t = report f1 f2

theorem silent_startUp {w : List FlashEvent} (hw : ∀ e ∈ w, ¬ e.1.EraseOrProgram) (iResult : Int) :
    messages (startUpEvents w iResult) = [] ∧ checks (startUpEvents w iResult) = [0, iResult] ∧
      (∀ e ∈ startUpEvents w iResult, Unmarked e) ∧ ∀ e ∈ startUpEvents w iResult, ¬ Changes e := by
  have hsent : messages (flashEvents w) = [] := filterMap_flashEvents (fun _ _ => rfl) w
  have hchecks : checks (flashEvents w) = [] := filterMap_flashEvents (fun _ _ => rfl) w
  refine ⟨?_, ?_, ?_, ?_⟩
  · rw [messages_append]
    exact congrArg (· ++ []) hsent
  · rw [checks_append]
    exact congrArg ((0 : Int) :: · ++ [iResult]) hchecks
  · rw [List.forall_mem_append, List.forall_mem_cons, List.forall_mem_map, List.forall_mem_singleton]
    exact ⟨⟨⟨rfl, rfl, rfl⟩, fun _ _ => ⟨rfl, rfl, rfl⟩⟩, rfl, rfl, rfl⟩
  · rw [List.forall_mem_append, List.forall_mem_cons, List.forall_mem_map, List.forall_mem_singleton]
    exact ⟨⟨id, hw⟩, id⟩

theorem messages_started {w : List FlashEvent} (hw : ∀ e ∈ w, ¬ e.1.EraseOrProgram)
    (info : DeviceInfo) (i : Int) (u : List MainEvent) :
    messages (startUpEvents w 0 ++ [⟨.setupHardware info.ulDeviceNr, ()⟩, ⟨.setupNetwork, i⟩] ++ u) =
      messages u := by
  rw [messages_append, messages_append, (silent_startUp hw 0).1]
  rfl

/-- Whatever the ROM, the FDL, the HTTP client and the flasher library answer. -/
theorem orderly_of_run {r : Option Unit} (h : Runs (flashappMain plat mem n k) t r) :
    Orderly plat n k t := by
  have hnone : ∀ {t : List MainEvent}, (∀ e ∈ t, ¬ Changes e) → Always Gated t := always_gated (s := [])
  cases flashappMain_cases h with
  | noAck iResult hi code =>
    refine ⟨hnone ?_, fun _ => rfl, ⟨false, false, List.nil_prefix⟩, by simp⟩
    rw [List.forall_mem_cons, List.forall_mem_singleton]
    exact ⟨id, id⟩
  | @noFdl w hw iResult hi code =>
    obtain ⟨hm, -, -, hq⟩ := silent_startUp hw iResult
    have hmsg : messages (startUpEvents w iResult ++ [blinkEvent code]) = [] := by
      rw [messages_append, hm]
      rfl
    refine ⟨hnone ?_, fun _ => hmsg, ⟨false, false, hmsg ▸ List.nil_prefix⟩, fun _ _ _ hfdl => ?_⟩
    · rw [List.forall_mem_append, List.forall_mem_singleton]
      exact ⟨hq, id⟩
    · simp [Event.embed] at hfdl
      exact absurd hfdl.symm hi
  | @started w hw info i u r hu =>
    obtain ⟨-, hc, hmark, hq⟩ := silent_startUp hw 0
    obtain ⟨hcu, f1, f2, hpre, hall, -⟩ := messages_station hu
    have hmsg := messages_started hw info i u
    have hchecks : checks (startUpEvents w 0 ++
        [⟨.setupHardware info.ulDeviceNr, ()⟩, ⟨.setupNetwork, i⟩] ++ u) = [0, 0] := by
      rw [checks_append, checks_append, hc, hcu]
      rfl
    refine ⟨?_, ?_, ⟨f1, f2, hmsg ▸ hpre⟩, fun ha hfit hk _ => ⟨f1, f2, ?_⟩⟩
    · rw [always_append]
      refine ⟨hnone ?_, gated_station (by simp) ?_ hu⟩
      · rw [List.forall_mem_append, List.forall_mem_cons, List.forall_mem_singleton]
        exact ⟨hq, id, id⟩
      · rw [List.forall_mem_append, List.forall_mem_cons, List.forall_mem_singleton]
        exact ⟨hmark, ⟨rfl, rfl, rfl⟩, ⟨rfl, rfl, rfl⟩⟩
    · rw [hchecks]
      simp
    · rw [hmsg]
      refine hall (station_returns hu ha.right (fun img himg => hfit img ?_) hk)
      exact List.mem_append_right _ himg

end Station

def bigEndian (w n : Nat) : List UInt8 :=
  (List.range w).reverse.map fun i => UInt8.ofNat (n >>> (8 * i))

def hexText (w n : Nat) : List UInt8 :=
  (List.range w).reverse.map fun i =>
    let digit := (n >>> (4 * i)) % 16
    UInt8.ofNat (if digit < 10 then 0x30 + digit else 0x57 + digit)

def wrappingHash : Nat :=
  0x9635150852742caa7d79d35f095359057b5e951f86ec13a98296f0fcd8d8b0189fdb9d8f2b6094cbeb96f8a25054d1c3

def exampleFileHash : Nat :=
  0x104fe8b79d47be4aa58fe19cbb23f34c395ce16301a3a72b8e271cb3203f10d2b87069c78222917421f52f85ac2cd8f0

def infoFile (hash : Nat) : List UInt8 := [0x61, 0x0a] ++ hexText 96 hash ++ [0x0a]

/-- The hashes of the two data files and of their info files. -/
def exampleHash (din : List UInt8) : Nat :=
  if din = padded wrappingFile then
    wrappingHash
  else if din = padded (infoFile wrappingHash) then
    0xcd8d425b2ded4785e9ce8eb83b621df9cf7ec0da440fd4758f289f632c3cebc4ade39ed1045eb458199cc59e7531f3ba
  else if din = padded (WfpJoin.image WfpFlash.exampleFile) then
    exampleFileHash
  else
    0xd80d8909ecc064a79b769f94cf5223fdad7e0291e8f9c3c8063aabdc2e2cfdcc10b4b1a01471a379d3c85df5021b3dd8

/-- The checksum of the empty contents of the example FDL is 0. -/
def examplePlatform : Platform where
  api := exampleHeaders
  sha := ⟨fun din => bigEndian 48 (exampleHash din), by simp [bigEndian]⟩
  crc := fun _ => 0
  pucInfoBuffer := 0x04020000
  info_pos := by decide
  info_fits := by decide

def exampleFdl : Memory :=
  store (store (store (fun _ => 0) 0 startToken) 12 [32, 0, 0, 0]) 984 endToken

def exampleInfo : DeviceInfo := (checkFdl examplePlatform.crc exampleFdl .cleared).2

theorem exampleFdl_valid : checkFdl examplePlatform.crc exampleFdl .cleared = (0, exampleInfo) :=
  Prod.ext (by decide +kernel) rfl

theorem orderly_of_run_exampleFile :
    ∃ t f1 f2, Runs (flashappMain examplePlatform (fun _ => 0) 2 (0x40000000 / 11 + 1)) t (some ()) ∧
      messages t = report f1 f2 := by
  have hparse : (parseInfoFile (infoFile exampleFileHash) exampleInfo).1 = 0 ∧
      fileHash examplePlatform.sha (WfpJoin.image WfpFlash.exampleFile) =
        (parseInfoFile (infoFile exampleFileHash) exampleInfo).2.tHash := by
    decide +kernel
  obtain ⟨t, mem', hrun, hfdl, hm, hd⟩ := runs_flashappMain examplePlatform (fun _ => 0) 0
    exampleFdl_valid (by decide +kernel) (Prod.ext hparse.1 rfl) (by decide) hparse.2
    fun m hm => (WfpFlash.exampleFile_flashed hm (fun _ _ => 0) (n := 0x40000000 / 11 + 1) (by decide)).imp
      fun _ h => h.1
  have hfit : ImagesFit examplePlatform.api t := by
    intro img himg
    obtain ⟨hmem, hsiz⟩ := hd.image _ _ himg
    exact (WfpFlash.proper_exampleFile (by rw [hmem]; exact hm) hsiz).noWrap
  obtain ⟨f1, f2, hmsg⟩ := (orderly_of_run hrun).reported hd.answered hfit (Nat.lt_succ_self _) hfdl
  exact ⟨t, f1, f2, hrun, hmsg⟩

/-- A run that does not come to its end has not sent its result. -/
theorem result_not_sent {plat : Platform} {mem : Memory} {n k : Nat} {t : List MainEvent}
    (h : Runs (flashappMain plat mem n k) t none) (f : Bool) : .result f ∉ messages t := by
  cases flashappMain_cases h with
  | started hw info i hu =>
    obtain ⟨-, _, _, -, -, hno⟩ := messages_station hu
    rw [messages_started hw]
    exact hno rfl f

/-- With the wrapping image the result is not sent, however long one waits. -/
theorem not_reported_of_wrapping :
    ¬ ∀ (plat : Platform) (mem : Memory) (n : Nat), ∃ k, ∀ t r,
      Runs (flashappMain plat mem n k) t r → Answered n t → noteEvent (.readFDL 0) ∈ t →
        ∃ f1 f2, messages t = report f1 f2 := by
  intro h
  have hparse : (parseInfoFile (infoFile wrappingHash) exampleInfo).1 = 0 ∧
      fileHash examplePlatform.sha wrappingFile =
        (parseInfoFile (infoFile wrappingHash) exampleInfo).2.tHash := by
    decide +kernel
  obtain ⟨k, hk⟩ := h examplePlatform (fun _ => 0) 2
  obtain ⟨t, mem', hrun, hfdl, -, hd⟩ := runs_flashappMain examplePlatform (fun _ => 0) 0
    exampleFdl_valid (by decide +kernel) (Prod.ext hparse.1 rfl) (by decide) hparse.2
    fun m hm => wrappingFile_endless hm k
  obtain ⟨f1, f2, hm⟩ := hk t none hrun hd.answered hfdl
  refine result_not_sent hrun (f1 && f2) ?_
  rw [hm]
  simp [report]

end FlashApp.MainReport
