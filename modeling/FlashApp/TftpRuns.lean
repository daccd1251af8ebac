import FlashApp.Tftp

namespace FlashApp.Tftp

open Bytes Eth Interaction Udp UdpClient Machine

inductive Op where
  | openFile (pcFileName : List UInt8) (pucDst uiBlkSize : Nat)
  | receive (m : Memory) (pvData sizTftpLength : Nat)
  | timer
  | other (op : Udp.Op Handler)
  | options (tEthernet : Ethernet)

/-- A call into the client, whether it brought a packet that the client
accepts, and the calls the client made itself. -/
structure Label where
  op : Op
  accepted : Bool
  trace : List ClientEvent

def TftpState.Open (tState : TftpState) : Prop := tState = .init ∨ tState = .transfer

def accepts (s : Client) (m : Memory) (pvData sizTftpLength : Nat) : Bool :=
  match s.tState with
  | .init =>
    get16 m (pvData + usOpcode) = tftpOpcodeOptionAck ∧
      sizTftpLength = 2 + acBlksize.length + s.acBlockSize.length ∧ optionsMatch s m pvData
  | .transfer =>
    get16 m (pvData + usOpcode) = tftpOpcodeData ∧
      mus2nus (get16 m (pvData + uPacket)) = uiWantedBlockNr s
  | .idle | .finished | .error => false

/-- A file is only opened while no other one is open. The addresses in the
options can change at any time. -/
inductive Step : Client → Label → Client → Prop
  | openFile {s s' : Client} {pcFileName : List UInt8} {pucDst uiBlkSize : Nat} {t : List ClientEvent}
      {iResult : Int} (hs : ¬ s.tState.Open)
      (hr : Runs (tftpOpen s pcFileName pucDst uiBlkSize) t (iResult, s')) :
      Step s ⟨.openFile pcFileName pucDst uiBlkSize, false, t⟩ s'
  | receive {s s' : Client} {m : Memory} {pvData siz : Nat} {t : List ClientEvent}
      (hr : Runs (tftpRecHandler s m pvData siz) t s') :
      Step s ⟨.receive m pvData siz, accepts s m pvData siz, t⟩ s'
  | timer {s s' : Client} {t : List ClientEvent} (hr : Runs (tftpTimer s) t s') :
      Step s ⟨.timer, false, t⟩ s'
  | other {s : Client} {op : Udp.Op Handler} (hop : Foreign .tftpRecHandler s.atUdpPortAssoc op) :
      Step s ⟨.other op, false, []⟩ { s with atUdpPortAssoc := Udp.step s.atUdpPortAssoc op }
  | options {s : Client} {o : Ethernet} (ho : o.ucTftpRetries = s.tEthernet.ucTftpRetries) :
      Step s ⟨.options o, false, []⟩ { s with tEthernet := o }

def Init (s : Client) : Prop :=
  ∃ (s₀ : Client) (t₀ : Table Handler), s₀.atUdpPortAssoc = udpInit t₀ ∧ s = tftpInit s₀

/-- The client owns an association that is registered for it. -/
def OwnsAssoc (s : Client) : Prop :=
  ∃ i, s.ptAssoc = some i ∧ Valid .tftpRecHandler (some (s.atUdpPortAssoc i))

/-- The step starts a new round of transmissions. -/
def Label.starts (l : Label) : Bool :=
  match l.op with
  | .openFile _ _ _ => true
  | _ => l.accepted

def elapsed : ClientEvent → Option Unit
  | ⟨.systimeHandleIsElapsed _ _, true⟩ => some ()
  | _ => none

def elapses (tr : List ClientEvent) : Nat := (tr.filterMap elapsed).length

/-- Count what the steps do since the last one that starts a round. -/
def sinceStart (f : Label → Nat) (h : List Label) : Nat :=
  h.foldl (fun n l => if l.starts then f l else n + f l) 0

/-- The packets sent since the file was opened or a packet was accepted. -/
def transmissions : List Label → Nat := sinceStart fun l => (sends l.trace).length

def timeouts : List Label → Nat := sinceStart fun l => elapses l.trace

def PortInv (s : Client) : Prop := 1024 ≤ s.uiPortCounter ∧ s.uiPortCounter ≤ 65535

/-- What a step does to the retry budget: it starts a new round, closes the
connection, or pays for what it sends with a timeout. -/
def Budget (s : Client) (l : Label) (s' : Client) : Prop :=
  let n := (sends l.trace).length
  let k := elapses l.trace
  (l.starts = true ∧ n ≤ 1 ∧ k = 0 ∧ (s'.tState.Open → s'.uiRetryCnt = s'.tEthernet.ucTftpRetries)) ∨
  (l.starts = false ∧ n = 0 ∧ s'.tState = .error) ∨
  (l.starts = false ∧ n ≤ k ∧ s'.uiRetryCnt + k = s.uiRetryCnt ∧ (0 < k → s.tState.Open) ∧
    s'.tState = s.tState)

structure Kept (s : Client) (l : Label) (s' : Client) : Prop where
  holding : Holding .tftpRecHandler s'.atUdpPortAssoc s'.ptAssoc s'.tState.Open
  port : PortInv s'
  retries : s'.tEthernet.ucTftpRetries = s.tEthernet.ucTftpRetries
  budget : Budget s l s'

structure Inv (s : Client) : Prop where
  holding : Holding .tftpRecHandler s.atUdpPortAssoc s.ptAssoc s.tState.Open
  port : PortInv s

variable {s s' : Client} {t : List ClientEvent}

@[simp] theorem elapses_nil : elapses [] = 0 := rfl

@[simp] theorem elapses_append (t u : List ClientEvent) : elapses (t ++ u) = elapses t + elapses u := by
  simp [elapses, List.filterMap_append]

@[simp] theorem elapses_ethGetEmptyPacket (b : Bool) (tr : List ClientEvent) :
    elapses (⟨.ethGetEmptyPacket, b⟩ :: tr) = elapses tr := rfl

@[simp] theorem elapses_udpSendPacket (d : List UInt8) (a : Option (Assoc Handler))
    (tr : List ClientEvent) : elapses (⟨.udpSendPacket d a, ()⟩ :: tr) = elapses tr := rfl

@[simp] theorem elapses_systimeGetMs (n : Nat) (tr : List ClientEvent) :
    elapses (⟨.systimeGetMs, n⟩ :: tr) = elapses tr := rfl

@[simp] theorem elapses_true (i j : Nat) (tr : List ClientEvent) :
    elapses (⟨.systimeHandleIsElapsed i j, true⟩ :: tr) = elapses tr + 1 := rfl

@[simp] theorem elapses_false (i j : Nat) (tr : List ClientEvent) :
    elapses (⟨.systimeHandleIsElapsed i j, false⟩ :: tr) = elapses tr := rfl

theorem sinceStart_append (f : Label → Nat) (h : List Label) (l : Label) :
    sinceStart f (h ++ [l]) = if l.starts then f l else sinceStart f h + f l := by
  simp [sinceStart]

theorem runs_goodPacket {s s' : Client} :
    Runs (goodPacket s) t s' ↔ ∃ ulMs : Nat, t = [⟨.systimeGetMs, ulMs⟩] ∧
      s' = { s with ulLastGoodPacket := ulMs, uiRetryCnt := s.tEthernet.ucTftpRetries } := by
  simp only [goodPacket, runs_bind, runs_systimeGetMs, runs_pure]
  constructor
  · rintro ⟨ulMs, t₁, t₂, rfl, rfl, rfl, rfl⟩
    exact ⟨ulMs, rfl, rfl⟩
  · rintro ⟨ulMs, rfl, rfl⟩
    exact ⟨ulMs, _, _, (List.append_nil _).symm, rfl, rfl, rfl⟩

theorem mus2nus_ne_zero {n : Nat} (h0 : n ≠ 0) (h : n ≤ 65535) : mus2nus n ≠ 0 := by
  rw [mus2nus_eq]
  omega

theorem not_open_error : ¬ TftpState.Open .error := by
  simp [TftpState.Open]

theorem not_open_finished : ¬ TftpState.Open .finished := by
  simp [TftpState.Open]

theorem sends_sendPacket {tab : Table Handler} {p : AssocPtr} {d : List UInt8} {r : Int}
    (hr : Runs (sendPacket tab p d) t r) : (sends t).length ≤ 1 ∧ elapses t = 0 := by
  obtain ⟨rfl, -⟩ | ⟨rfl, -⟩ := runs_sendPacket.mp hr
  · simp
  · simp

theorem Inv.close (hi : Inv s) {st : TftpState} (hst : ¬ st.Open) :
    Holding .tftpRecHandler (tftpClose s st).atUdpPortAssoc (tftpClose s st).ptAssoc
      (tftpClose s st).tState.Open :=
  Holding.close hi.holding hst

theorem kept_error (hi : Inv s) {l : Label} (hl : l.trace = []) : Kept s l (tftpClose s .error) := by
  refine ⟨hi.close not_open_error, hi.port, rfl, ?_⟩
  cases hs : l.starts with
  | true => exact .inl ⟨hs, by simp [hl], by simp [hl], fun ho => absurd ho not_open_error⟩
  | false => exact .inr (.inl ⟨hs, by simp [hl], rfl⟩)

theorem budget_idle {l : Label} (hl : l.trace = []) (hs : l.starts = false)
    (hcnt : s'.uiRetryCnt = s.uiRetryCnt) (hst : s'.tState = s.tState) : Budget s l s' :=
  .inr (.inr ⟨hs, by simp [hl], by simp [hl, hcnt], by simp [hl], hst⟩)

theorem kept_refl (hi : Inv s) {l : Label} (hl : l.trace = []) (hs : l.starts = false) : Kept s l s :=
  ⟨hi.holding, hi.port, rfl, budget_idle hl hs rfl rfl⟩

section Cases

/-- Everything `tftp_timer` can do. -/
inductive TimerRun (s : Client) : List ClientEvent → Client → Prop
  | closed : TimerRun s [] s
  | waiting {i j : Nat} (ho : s.tState.Open) : TimerRun s [⟨.systimeHandleIsElapsed i j, false⟩] s
  | resent {i j ulMs : Nat} {t : List ClientEvent} {r : Int} (ho : s.tState.Open) (hcnt : 0 < s.uiRetryCnt)
      (hsend : Runs (tftpResend s) t r) :
      TimerRun s (⟨.systimeHandleIsElapsed i j, true⟩ :: (t ++ [⟨.systimeGetMs, ulMs⟩]))
        { s with ulLastGoodPacket := ulMs, uiRetryCnt := s.uiRetryCnt - 1 }
  | gaveUp {i j : Nat} (ho : s.tState.Open) :
      TimerRun s [⟨.systimeHandleIsElapsed i j, true⟩] (tftpClose s .error)

theorem timer_cases (hr : Runs (tftpTimer s) t s') : TimerRun s t s' := by
  simp only [tftpTimer] at hr
  split at hr
  · rename_i ho
    simp only [runs_bind] at hr
    obtain ⟨b, t₁, t₂, rfl, ht, hr⟩ := hr
    obtain rfl := runs_systimeHandleIsElapsed.mp ht
    cases b with
    | false =>
      obtain ⟨rfl, rfl⟩ := hr
      exact .waiting ho
    | true =>
      simp only [↓reduceIte] at hr
      split at hr
      · rename_i hcnt
        simp only [runs_bind] at hr
        obtain ⟨r, t₃, t₄, rfl, hsend, ms, t₅, t₆, rfl, hms, rfl, rfl⟩ := hr
        obtain rfl := runs_systimeGetMs.mp hms
        exact .resent ho hcnt hsend
      · obtain ⟨rfl, rfl⟩ := hr
        exact .gaveUp ho
  · obtain ⟨rfl, rfl⟩ := hr
    exact .closed

/-- Everything `tftp_open` can do with the client `q` that it has prepared. -/
inductive OpenRun (q : Client) (pcFileName : List UInt8) : List ClientEvent → Int × Client → Prop
  | noPort (hp : q.ptAssoc = none) : OpenRun q pcFileName [] (-1, q)
  | opened {i : Fin 8} {ulMs : Nat} {t : List ClientEvent} (hp : q.ptAssoc = some i)
      (hsend : Runs (tftpSendOpenPacket { q with pcTftpFileName := pcFileName }) t 0) :
      OpenRun q pcFileName (t ++ [⟨.systimeGetMs, ulMs⟩])
        (0, { q with
          pcTftpFileName := pcFileName
          tState := .init
          ulLastGoodPacket := ulMs
          uiRetryCnt := q.tEthernet.ucTftpRetries })
  | failed {i : Fin 8} {t : List ClientEvent} {iResult : Int} (hp : q.ptAssoc = some i)
      (hsend : Runs (tftpSendOpenPacket { q with pcTftpFileName := pcFileName }) t iResult)
      (hne : iResult ≠ 0) :
      OpenRun q pcFileName t (iResult, tftpCleanup { q with pcTftpFileName := pcFileName })

theorem open_cases {f : List UInt8} {dst b : Nat} {r : Int × Client} (hr : Runs (tftpOpen s f dst b) t r) :
    OpenRun (tftpPrepare s dst b) f t r := by
  simp only [tftpOpen] at hr
  split at hr
  · rename_i hp
    obtain ⟨rfl, rfl⟩ := hr
    exact .noPort hp
  · rename_i i hp
    simp only [runs_bind] at hr
    obtain ⟨iResult, t₁, t₂, rfl, hsend, hr⟩ := hr
    split at hr
    · rename_i hzero
      subst hzero
      simp only [runs_bind, runs_goodPacket] at hr
      obtain ⟨s₁, t₃, t₄, rfl, ⟨ms, rfl, rfl⟩, rfl, rfl⟩ := hr
      exact .opened hp hsend
    · rename_i hne
      obtain ⟨rfl, rfl⟩ := hr
      rw [List.append_nil]
      exact .failed hp hsend hne

abbrev remoteTaken (s : Client) (m : Memory) (pvData : Nat) : Client :=
  { setRemotePort s (get16 m (pvData + UdpHdr.usSrcPort)) with uiExpectedBlockNr := 0 }

abbrev blockStored (s : Client) (m : Memory) (pvData sizData : Nat) : Client :=
  tftpStoreBlock { s with uiExpectedBlockNr := uiWantedBlockNr s } m pvData sizData

/-- The size of the data as the handler computes it. -/
abbrev sizData (sizTftpLength : Nat) : Nat := sub32 (sub32 sizTftpLength 2) 2

/-- Everything `tftp_recHandler` can do. -/
inductive ReceiveRun (s : Client) (m : Memory) (pvData siz : Nat) : List ClientEvent → Client → Prop
  | ignored (hacc : accepts s m pvData siz = false) : ReceiveRun s m pvData siz [] s
  | error (hacc : accepts s m pvData siz = false) : ReceiveRun s m pvData siz [] (tftpClose s .error)
  | started {q : Client} {ulMs : Nat} {t : List ClientEvent} {r : Int} (hst : s.tState = .init)
      (hacc : accepts s m pvData siz = true) (hq : q = remoteTaken s m pvData)
      (hsend : Runs (tftpSendAckPacket q) t r) :
      ReceiveRun s m pvData siz (t ++ [⟨.systimeGetMs, ulMs⟩])
        { q with ulLastGoodPacket := ulMs, uiRetryCnt := q.tEthernet.ucTftpRetries, tState := .transfer }
  | stored {q : Client} {ulMs : Nat} {t : List ClientEvent} {r : Int} (hst : s.tState = .transfer)
      (hacc : accepts s m pvData siz = true) (hq : q = blockStored s m pvData (sizData siz))
      (hsend : Runs (tftpSendAckPacket q) t r) (hmore : ¬ sizData siz < q.uiBlockSize) :
      ReceiveRun s m pvData siz (t ++ [⟨.systimeGetMs, ulMs⟩])
        { q with ulLastGoodPacket := ulMs, uiRetryCnt := q.tEthernet.ucTftpRetries }
  | finished {q : Client} {ulMs : Nat} {t : List ClientEvent} {r : Int} (hst : s.tState = .transfer)
      (hacc : accepts s m pvData siz = true) (hq : q = blockStored s m pvData (sizData siz))
      (hsend : Runs (tftpSendAckPacket q) t r) (hlast : sizData siz < q.uiBlockSize) :
      ReceiveRun s m pvData siz (t ++ [⟨.systimeGetMs, ulMs⟩])
        { tftpClose { q with ulLastGoodPacket := ulMs, uiRetryCnt := q.tEthernet.ucTftpRetries } .finished with
          shaFinalized := some q.ulLoadedBytes }

theorem processInit_cases {m : Memory} {pvData siz : Nat} (hst : s.tState = .init)
    (hr : Runs (tftpProcessInit s m pvData siz) t s') : ReceiveRun s m pvData siz t s' := by
  have hacc : accepts s m pvData siz = true ↔ get16 m (pvData + usOpcode) = tftpOpcodeOptionAck ∧
      siz = 2 + acBlksize.length + s.acBlockSize.length ∧ optionsMatch s m pvData := by
    simp only [accepts, hst, decide_eq_true_eq]
  have hnot := fun h => eq_false_of_ne_true (mt hacc.mp h)
  simp only [tftpProcessInit] at hr
  split at hr
  · rename_i hop
    obtain ⟨rfl, rfl⟩ := hr
    exact .error (hnot fun h => absurd (hop.symm.trans h.1) (by decide))
  split at hr
  · rename_i hop
    split at hr
    · rename_i hsiz
      obtain ⟨rfl, rfl⟩ := hr
      exact .error (hnot fun h => hsiz h.2.1)
    rename_i hsiz
    split at hr
    · rename_i hmatch
      simp only [runs_bind, runs_goodPacket] at hr
      obtain ⟨r, t₁, t₂, rfl, hsend, s₁, t₃, t₄, rfl, ⟨ms, rfl, rfl⟩, rfl, rfl⟩ := hr
      exact .started (q := remoteTaken s m pvData) hst (hacc.mpr ⟨hop, not_not.mp hsiz, hmatch⟩) rfl hsend
    · rename_i hmatch
      obtain ⟨rfl, rfl⟩ := hr
      exact .error (hnot fun h => hmatch h.2.2)
  rename_i hop
  split at hr
  · obtain ⟨rfl, rfl⟩ := hr
    exact .error (hnot fun h => hop h.1)
  · obtain ⟨rfl, rfl⟩ := hr
    exact .ignored (hnot fun h => hop h.1)

theorem processBlock_cases {m : Memory} {pvData n : Nat} (hr : Runs (tftpProcessBlock s m pvData n) t s') :
    ∃ q t₁ r ulMs, q = blockStored s m pvData n ∧ Runs (tftpSendAckPacket q) t₁ r ∧
      t = t₁ ++ [⟨.systimeGetMs, ulMs⟩] ∧
      ((¬ n < q.uiBlockSize ∧
        s' = { q with ulLastGoodPacket := ulMs, uiRetryCnt := q.tEthernet.ucTftpRetries }) ∨
      (n < q.uiBlockSize ∧
        s' = { tftpClose { q with ulLastGoodPacket := ulMs, uiRetryCnt := q.tEthernet.ucTftpRetries } .finished with
          shaFinalized := some q.ulLoadedBytes })) := by
  simp only [tftpProcessBlock] at hr
  generalize hq : tftpStoreBlock _ m pvData n = q at hr
  simp only [runs_bind, runs_goodPacket] at hr
  obtain ⟨r, t₁, t₂, rfl, hsend, s₁, t₃, t₄, rfl, ⟨ms, rfl, rfl⟩, hr⟩ := hr
  refine ⟨q, t₁, r, ms, hq.symm, hsend, ?_⟩
  split at hr
  · rename_i hlast
    obtain ⟨rfl, rfl⟩ := hr
    exact ⟨rfl, .inr ⟨hlast, rfl⟩⟩
  · rename_i hmore
    obtain ⟨rfl, rfl⟩ := hr
    exact ⟨rfl, .inl ⟨hmore, rfl⟩⟩

theorem processTransfer_cases {m : Memory} {pvData siz : Nat} (hst : s.tState = .transfer)
    (hr : Runs (tftpProcessTransfer s m pvData siz) t s') : ReceiveRun s m pvData siz t s' := by
  have hacc : accepts s m pvData siz = true ↔ get16 m (pvData + usOpcode) = tftpOpcodeData ∧
      mus2nus (get16 m (pvData + uPacket)) = uiWantedBlockNr s := by
    simp only [accepts, hst, decide_eq_true_eq]
  have hnot := fun h => eq_false_of_ne_true (mt hacc.mp h)
  simp only [tftpProcessTransfer] at hr
  split at hr
  · rename_i hop
    obtain ⟨rfl, rfl⟩ := hr
    exact .error (hnot fun h => absurd (hop.symm.trans h.1) (by decide))
  split at hr
  · rename_i hdata
    obtain ⟨q, t₁, r, ms, hq, hsend, rfl, ⟨hmore, rfl⟩ | ⟨hlast, rfl⟩⟩ := processBlock_cases hr
    · exact .stored hst (hacc.mpr hdata) hq hsend hmore
    · exact .finished hst (hacc.mpr hdata) hq hsend hlast
  · rename_i hdata
    obtain ⟨rfl, rfl⟩ := hr
    exact .ignored (hnot hdata)

theorem receive_cases {m : Memory} {pvData siz : Nat} (hr : Runs (tftpRecHandler s m pvData siz) t s') :
    ReceiveRun s m pvData siz t s' := by
  cases hst : s.tState with
  | idle | finished | error =>
    simp only [tftpRecHandler, hst] at hr
    obtain ⟨rfl, rfl⟩ := hr
    exact .ignored (by simp [accepts, hst])
  | init =>
    simp only [tftpRecHandler, hst] at hr
    exact processInit_cases hst hr
  | transfer =>
    simp only [tftpRecHandler, hst] at hr
    exact processTransfer_cases hst hr

end Cases

theorem timer_step (hi : Inv s) (hr : Runs (tftpTimer s) t s') : Kept s ⟨.timer, false, t⟩ s' := by
  cases timer_cases hr with
  | closed => exact kept_refl hi rfl rfl
  | waiting ho => exact ⟨hi.holding, hi.port, rfl, .inr (.inr ⟨rfl, by simp, by simp, fun _ => ho, rfl⟩)⟩
  | @resent i j ulMs t r ho hcnt hsend =>
    have hlen : (sends t).length ≤ 1 ∧ elapses t = 0 := by
      simp only [tftpResend] at hsend
      split at hsend
      · exact sends_sendPacket hsend
      · exact sends_sendPacket hsend
    refine ⟨hi.holding, hi.port, rfl, .inr (.inr ⟨rfl, ?_, ?_, fun _ => ho, rfl⟩)⟩
    · simpa [hlen.2] using hlen.1
    · simp only [elapses_append, elapses_true, elapses_nil, elapses_systimeGetMs, hlen.2]
      omega
  | gaveUp ho => exact ⟨hi.close not_open_error, hi.port, rfl, .inr (.inl ⟨rfl, by simp, rfl⟩)⟩

theorem open_step (hi : Inv s) (hs : ¬ s.tState.Open) {f : List UInt8} {dst b : Nat} {r : Int}
    (hr : Runs (tftpOpen s f dst b) t (r, s')) : Kept s ⟨.openFile f dst b, false, t⟩ s' := by
  have hport : (tftpAssoc s).uiLocalPort ≠ 0 := by
    obtain ⟨h1, h2⟩ := hi.port
    exact mus2nus_ne_zero (by omega) h2
  have hport' : PortInv (tftpPrepare s dst b) := by
    obtain ⟨h1, h2⟩ := hi.port
    simp only [PortInv, tftpPrepare]
    split_ifs <;> omega
  have howns : Owns .tftpRecHandler (tftpPrepare s dst b).atUdpPortAssoc (tftpPrepare s dst b).ptAssoc :=
    Holding.register hi.holding hs hport rfl
  have hstate : (tftpPrepare s dst b).tState = s.tState := rfl
  have hretries : (tftpPrepare s dst b).tEthernet = s.tEthernet := rfl
  have hrun := open_cases hr
  generalize tftpPrepare s dst b = q at hrun hport' howns hstate hretries
  cases hrun with
  | noPort hp =>
    refine ⟨⟨howns, ?_⟩, hport', by rw [hretries], .inl ⟨rfl, by simp, rfl, fun ho => absurd (hstate ▸ ho) hs⟩⟩
    simpa [hp, hstate] using hs
  | opened hp hsend =>
    have hlen := sends_sendPacket hsend
    rw [hp] at howns
    refine ⟨⟨by simpa only [hp] using howns, by simp [TftpState.Open, hp]⟩, hport', by rw [hretries],
      .inl ⟨rfl, ?_, ?_, fun _ => rfl⟩⟩
    · simpa using hlen.1
    · simpa using hlen.2
  | failed hp hsend hne =>
    have hlen := sends_sendPacket hsend
    rw [hp] at howns
    refine ⟨?_, hport', by simp [tftpCleanup, hretries], .inl ⟨rfl, hlen.1, hlen.2, ?_⟩⟩
    · simp only [tftpCleanup, cleanup_eq, hp]
      exact ⟨owns_unregister howns, by simpa [hstate] using hs⟩
    · intro ho
      simp only [tftpCleanup, hstate] at ho
      exact absurd ho hs

theorem setRemotePort_owns (ho : Owns .tftpRecHandler s.atUdpPortAssoc s.ptAssoc) (uiPort : Nat) :
    Owns .tftpRecHandler (setRemotePort s uiPort).atUdpPortAssoc (setRemotePort s uiPort).ptAssoc ∧
      (setRemotePort s uiPort).ptAssoc = s.ptAssoc ∧
      (setRemotePort s uiPort).uiPortCounter = s.uiPortCounter ∧
      (setRemotePort s uiPort).tEthernet = s.tEthernet := by
  cases hp : s.ptAssoc with
  | none => simpa [setRemotePort, hp] using ho
  | some i =>
    refine ⟨?_, by simp [setRemotePort, hp], by simp [setRemotePort, hp], by simp [setRemotePort, hp]⟩
    intro j
    have hj := ho j
    by_cases hij : j = i
    · subst hij
      simpa [setRemotePort, hp] using hj
    · simpa [setRemotePort, hp, hij] using hj

theorem storeBlock_fields (s : Client) (m : Memory) (ptPkt sizData : Nat) :
    let q := tftpStoreBlock s m ptPkt sizData
    q.ptAssoc = s.ptAssoc ∧ q.atUdpPortAssoc = s.atUdpPortAssoc ∧ q.tState = s.tState ∧
      q.uiPortCounter = s.uiPortCounter ∧ q.tEthernet = s.tEthernet := by
  simp only [tftpStoreBlock]
  split <;> simp

theorem Inv.blockStored (hi : Inv s) (m : Memory) (ptPkt sizData : Nat) :
    Inv (blockStored s m ptPkt sizData) ∧ (Tftp.blockStored s m ptPkt sizData).tEthernet = s.tEthernet := by
  obtain ⟨hp, htab, hst, hport, heth⟩ := storeBlock_fields { s with uiExpectedBlockNr := uiWantedBlockNr s }
    m ptPkt sizData
  refine ⟨⟨?_, ?_⟩, heth⟩
  · rw [hp, htab, hst]
    exact hi.holding
  · simpa [PortInv, hport] using hi.port

theorem receive_step (hi : Inv s) {m : Memory} {pvData siz : Nat}
    (hr : Runs (tftpRecHandler s m pvData siz) t s') :
    Kept s ⟨.receive m pvData siz, accepts s m pvData siz, t⟩ s' := by
  cases receive_cases hr with
  | ignored hacc => exact kept_refl hi rfl hacc
  | error _ => exact kept_error hi rfl
  | @started q ulMs t r hst hacc hq hsend =>
    have hlen := sends_sendPacket hsend
    obtain ⟨howns, hp, hport, heth⟩ :=
      setRemotePort_owns hi.holding.owns (get16 m (pvData + UdpHdr.usSrcPort))
    subst hq
    refine ⟨⟨howns, ?_⟩, ?_, by simp [heth], .inl ⟨hacc, ?_, ?_, fun _ => rfl⟩⟩
    · simp only [TftpState.Open, or_true, iff_true]
      rw [hp]
      exact hi.holding.isOpen.mpr (.inl hst)
    · simpa [PortInv, hport] using hi.port
    · simpa using hlen.1
    · simpa using hlen.2
  | @stored q ulMs t r hst hacc hq hsend hmore =>
    have hlen := sends_sendPacket hsend
    obtain ⟨hiq, heth⟩ := hi.blockStored m pvData (sizData siz)
    rw [← hq] at hiq heth
    refine ⟨hiq.holding, hiq.port, by simp [heth], .inl ⟨hacc, ?_, ?_, fun _ => rfl⟩⟩
    · simpa using hlen.1
    · simpa using hlen.2
  | @finished q ulMs t r hst hacc hq hsend hlast =>
    have hlen := sends_sendPacket hsend
    obtain ⟨hiq, heth⟩ := hi.blockStored m pvData (sizData siz)
    rw [← hq] at hiq heth
    refine ⟨hiq.holding.close not_open_finished, hiq.port, by simp [tftpClose, tftpCleanup, heth],
      .inl ⟨hacc, ?_, ?_, fun ho => absurd ho not_open_finished⟩⟩
    · simpa using hlen.1
    · simpa using hlen.2

theorem step_kept {l : Label} (hi : Inv s) (hs : Step s l s') : Kept s l s' := by
  cases hs with
  | openFile hs hr => exact open_step hi hs hr
  | receive hr => exact receive_step hi hr
  | timer hr => exact timer_step hi hr
  | other hop =>
    exact ⟨hi.holding.foreign hop, hi.port, rfl, budget_idle rfl rfl rfl rfl⟩
  | options ho =>
    exact ⟨hi.holding, hi.port, ho, budget_idle rfl rfl rfl rfl⟩

/-- The retries that are left pay for the packets that can still be sent. -/
structure RunInv (n : Nat) (h : List Label) (s : Client) : Prop where
  inv : Inv s
  retries : s.tEthernet.ucTftpRetries = n
  sent : transmissions h ≤ 1 + n
  left : s.tState.Open → timeouts h + s.uiRetryCnt = n ∧ transmissions h ≤ 1 + timeouts h
  gaveUp : n < timeouts h → s.tState = .error

theorem runInv_step {n : Nat} {h : List Label} {l : Label} (hi : RunInv n h s) (hs : Step s l s') :
    RunInv n (h ++ [l]) s' := by
  obtain ⟨hhold, hport, hretries, hbudget⟩ := step_kept hi.inv hs
  have hn : s'.tEthernet.ucTftpRetries = n := hretries.trans hi.retries
  have hsent := hi.sent
  have hgone := hi.gaveUp
  simp only [transmissions, timeouts] at hsent hgone
  obtain ⟨hl, h1, h2, h3⟩ | ⟨hl, h1, h2⟩ | ⟨hl, h1, h2, h3, h4⟩ := hbudget
  · refine ⟨⟨hhold, hport⟩, hn, ?_, fun ho => ?_, fun hlt => ?_⟩
    · simp only [transmissions, sinceStart_append, hl, ↓reduceIte]
      omega
    · have hcnt := h3 ho
      simp only [transmissions, timeouts, sinceStart_append, hl, ↓reduceIte]
      omega
    · simp only [timeouts, sinceStart_append, hl, ↓reduceIte] at hlt
      omega
  · refine ⟨⟨hhold, hport⟩, hn, ?_, fun ho => absurd (h2 ▸ ho) not_open_error, fun _ => h2⟩
    simp only [transmissions, sinceStart_append, hl, Bool.false_eq_true, ↓reduceIte, h1]
    omega
  · -- the timeouts of this step are taken from the retries that were left
    have hpaid : 0 < elapses l.trace ∨ s.tState.Open → sinceStart (fun l => elapses l.trace) h + s.uiRetryCnt = n ∧
        sinceStart (fun l => (sends l.trace).length) h ≤ 1 + sinceStart (fun l => elapses l.trace) h := by
      rintro (hk | ho)
      · exact hi.left (h3 hk)
      · exact hi.left ho
    refine ⟨⟨hhold, hport⟩, hn, ?_, fun ho => ?_, fun hlt => ?_⟩
    · simp only [transmissions, sinceStart_append, hl, Bool.false_eq_true, ↓reduceIte]
      by_cases hk : 0 < elapses l.trace
      · obtain ⟨hleft, hle⟩ := hpaid (.inl hk)
        omega
      · omega
    · obtain ⟨hleft, hle⟩ := hpaid (.inr (h4 ▸ ho))
      simp only [transmissions, timeouts, sinceStart_append, hl, Bool.false_eq_true, ↓reduceIte]
      omega
    · simp only [timeouts, sinceStart_append, hl, Bool.false_eq_true, ↓reduceIte] at hlt
      by_cases hk : 0 < elapses l.trace
      · obtain ⟨hleft, -⟩ := hpaid (.inl hk)
        omega
      · rw [h4]
        exact hgone (by omega)

theorem inv_init (hs : Init s) : RunInv s.tEthernet.ucTftpRetries [] s := by
  obtain ⟨s₀, t₀, ht, rfl⟩ := hs
  refine ⟨⟨⟨?_, ?_⟩, ?_⟩, rfl, by simp [transmissions, sinceStart], ?_,
    by simp [timeouts, sinceStart]⟩
  · simp only [tftpInit, ht]
    exact owns_init t₀
  · simp [tftpInit, TftpState.Open]
  · simp [PortInv, tftpInit]
  · simp [tftpInit, TftpState.Open]

theorem Inv.ownsAssoc_iff (hi : Inv s) : OwnsAssoc s ↔ s.tState.Open := hi.holding.exists_valid_iff

/-- The client owns its association exactly while a file is open. Between the
packets it accepts it sends no more than once and once for each retry, and
the next timeout ends the transfer. -/
theorem tftp_owns_association {h : List Label} {s : Client} (hr : Reach Init Step h s) :
    (OwnsAssoc s ↔ s.tState.Open) ∧ Owns .tftpRecHandler s.atUdpPortAssoc s.ptAssoc ∧
      transmissions h ≤ 1 + s.tEthernet.ucTftpRetries ∧
      (s.tEthernet.ucTftpRetries < timeouts h → s.tState = .error ∧ ¬ OwnsAssoc s) := by
  obtain ⟨n, hi⟩ := hr.invariant (fun h s => ∃ n, RunInv n h s) (fun _ hs => ⟨_, inv_init hs⟩)
    (by
      rintro h s l s' ⟨n, hi⟩ hs
      exact ⟨n, runInv_step hi hs⟩)
  refine ⟨hi.inv.ownsAssoc_iff, hi.inv.holding.owns, ?_, fun hlt => ?_⟩
  · rw [hi.retries]
    exact hi.sent
  · have herror := hi.gaveUp (hi.retries ▸ hlt)
    rw [hi.inv.ownsAssoc_iff, herror]
    exact ⟨rfl, not_open_error⟩

def exampleStatics : Client where
  uiPortCounter := 0
  ptAssoc := none
  pcTftpFileName := []
  uiExpectedBlockNr := 0
  tState := .idle
  ulLastGoodPacket := 0
  uiRetryCnt := 0
  uiBlockSize := 0
  acBlockSize := []
  ulLoadedBytes := 0
  pucDstBuffer := 0
  memory := fun _ => 0
  aucShaData := []
  shaFinalized := none
  atUdpPortAssoc := udpInit fun _ => ⟨0, 0, 0, .tftpRecHandler, 0⟩
  tEthernet := exampleEthernet

/-- The client after it has asked for the file `a` in blocks of two bytes. -/
def exampleOpen : List ClientEvent × Int × Client :=
  exec (frames true false) (tftpOpen (tftpInit exampleStatics) [0x61] 0x8000 2) []

/-- The client without an answer for some time. -/
def exampleTicks : Nat → List Label × Client
  | 0 => ([⟨.openFile [0x61] 0x8000 2, false, exampleOpen.1⟩], exampleOpen.2.2)
  | n + 1 =>
    let r := exampleTicks n
    let q := exec (frames true true) (tftpTimer r.2) []
    (r.1 ++ [⟨.timer, false, q.1⟩], q.2)

theorem reach_exampleTicks (n : Nat) : Reach Init Step (exampleTicks n).1 (exampleTicks n).2 := by
  induction n with
  | zero =>
    exact .step (.init ⟨exampleStatics, _, rfl, rfl⟩)
      (.openFile (by simp [tftpInit, TftpState.Open])
        (exec_runs (frames true false) (tftpOpen (tftpInit exampleStatics) [0x61] 0x8000 2) []))
  | succ n ih => exact ih.step (.timer (exec_runs (frames true true) (tftpTimer (exampleTicks n).2) []))

/-- The sixth timeout in a row ends a transfer with five retries. -/
theorem tftp_owns_association_timeout :
    Reach Init Step (exampleTicks 6).1 (exampleTicks 6).2 ∧ (exampleTicks 6).2.tState = .error ∧
      transmissions (exampleTicks 6).1 = 6 ∧ ¬ OwnsAssoc (exampleTicks 6).2 := by
  have hgone := (tftp_owns_association (reach_exampleTicks 6)).2.2.2 (by decide +kernel)
  exact ⟨reach_exampleTicks 6, hgone.1, by decide +kernel, hgone.2⟩

end FlashApp.Tftp
