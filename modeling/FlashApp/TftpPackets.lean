import FlashApp.TftpNetwork

namespace FlashApp.Tftp

open Bytes Eth Interaction Udp UdpClient Machine

/-- The pointer and the counter of the bytes are words of the machine. -/
structure Words (s : Client) : Prop where
  pointer : s.pucDstBuffer < 2 ^ 32
  loaded : s.ulLoadedBytes < 2 ^ 32

/-- The client after its start. -/
structure WordInit (s : Client) : Prop where
  init : Init s
  words : Words s

/-- The destination of a file is an address. -/
def Op.Words : Op → Prop
  | .openFile _ pucDst _ => pucDst < 2 ^ 32
  | _ => True

/-- A data packet with the number that the client waits for. -/
structure Wanted (s : Client) (m : Memory) (pvData : Nat) : Prop where
  state : s.tState = .transfer
  opcode : get16 m (pvData + usOpcode) = tftpOpcodeData
  blockNr : mus2nus (get16 m (pvData + uPacket)) = uiWantedBlockNr s

def BlockLength (s : Client) (sizTftpLength : Nat) : Prop :=
  4 ≤ sizTftpLength ∧ sizTftpLength ≤ 4 + s.uiBlockSize

/-- The `n` bytes from `src` on go to the destination and to the SHA unit, in
their order. The destination may go on at the start of the memory. -/
structure Loads (m : Memory) (src n : Nat) (s s' : Client) : Prop where
  pointer : s'.pucDstBuffer = add32 s.pucDstBuffer n
  loaded : s'.ulLoadedBytes = add32 s.ulLoadedBytes n
  copied : ∀ i < n, s'.memory (add32 s.pucDstBuffer i) = m (src + i)
  frame : ∀ a, (∀ i < n, a ≠ add32 s.pucDstBuffer i) → s'.memory a = s.memory a
  sha : s'.aucShaData = s.aucShaData ++ slice m src n

/-- Only a wanted packet with at most one block loads something, and this is
its user data. -/
structure LoadsPayload (m : Memory) (pvData sizTftpLength : Nat) (s s' : Client) : Prop where
  payload : Wanted s m pvData → BlockLength s sizTftpLength →
    Loads m (pvData + aucData) (sizTftpLength - 4) s s'
  other : ¬ (Wanted s m pvData ∧ BlockLength s sizTftpLength) → Keeps s s'

variable {s s' : Client} {t : List ClientEvent} {m : Memory} {pvData siz : Nat}

theorem copyBytes_sha (m : Memory) (n src dst : Nat) (q : Sink) :
    (copyBytes m n src dst q).aucShaData = q.aucShaData ++ slice m src n := by
  induction n generalizing src dst q with
  | zero => simp [copyBytes, slice]
  | succ n ih => simp [copyBytes, slice, ih]

theorem copyBytes_frame (m : Memory) {n src dst a : Nat} (hdst : dst < 2 ^ 32) (q : Sink)
    (ha : ∀ i < n, a ≠ add32 dst i) : (copyBytes m n src dst q).memory a = q.memory a := by
  induction n generalizing src dst q with
  | zero => rfl
  | succ n ih =>
    have hfirst : a ≠ dst := by
      have h := ha 0 (Nat.succ_pos n)
      rwa [add32_zero hdst] at h
    rw [copyBytes, ih (add32_lt dst 1)]
    · exact Function.update_of_ne hfirst _ _
    · intro i hi
      rw [add32_add32_one]
      exact ha (i + 1) (Nat.succ_lt_succ hi)

theorem copyBytes_copied (m : Memory) {n src dst i : Nat} (hdst : dst < 2 ^ 32) (hn : n ≤ 2 ^ 32) (q : Sink)
    (hi : i < n) : (copyBytes m n src dst q).memory (add32 dst i) = m (src + i) := by
  induction n generalizing src dst i q with
  | zero => omega
  | succ n ih =>
    rw [copyBytes]
    cases i with
    | zero =>
      -- the other bytes go to other addresses
      rw [add32_zero hdst, copyBytes_frame m (add32_lt dst 1)]
      · exact Function.update_self _ _ _
      · intro j hj
        rw [add32_add32_one]
        unfold add32
        omega
    | succ i =>
      rw [← add32_add32_one dst i, ih (add32_lt dst 1) (by omega) _ (Nat.lt_of_succ_lt_succ hi)]
      congr 1
      omega

theorem storeBlock_loads (hw : Words s) {n : Nat} (hsrc : pvData + aucData + n < 2 ^ 32) :
    Loads m (pvData + aucData) n s (tftpStoreBlock s m pvData n) := by
  rw [tftpStoreBlock]
  split
  · have hcount : add32 (pvData + aucData) n - (pvData + aucData) = n := by
      rw [add32_of_lt hsrc, Nat.add_sub_cancel_left]
    simp only [copyData, hcount]
    exact ⟨rfl, rfl, fun i hi => copyBytes_copied m hw.pointer (by omega) _ hi,
      fun a ha => copyBytes_frame m hw.pointer _ ha, copyBytes_sha m _ _ _ _⟩
  · rename_i hzero
    obtain rfl := not_not.mp hzero
    exact ⟨(add32_zero hw.pointer).symm, (add32_zero hw.loaded).symm, by simp, fun _ _ => rfl, by simp [slice]⟩

theorem storeBlock_words (hw : Words s) (m : Memory) (ptPkt n : Nat) : Words (tftpStoreBlock s m ptPkt n) := by
  rw [tftpStoreBlock]
  split
  · exact ⟨add32_lt _ _, add32_lt _ _⟩
  · exact hw

theorem Keeps.words (hk : Keeps s s') (hw : Words s) : Words s' :=
  ⟨hk.pointer ▸ hw.pointer, hk.loaded ▸ hw.loaded⟩

theorem Loads.keeps {src n : Nat} {q : Client} (hl : Loads m src n s q) (hk : Keeps q s') :
    Loads m src n s s' where
  pointer := hk.pointer.trans hl.pointer
  loaded := hk.loaded.trans hl.loaded
  copied i hi := (congrFun hk.memory _).trans (hl.copied i hi)
  frame a ha := (congrFun hk.memory a).trans (hl.frame a ha)
  sha := hk.sha.trans hl.sha

theorem wanted_iff (hst : s.tState = .transfer) :
    accepts s m pvData siz = true ↔ Wanted s m pvData := by
  simp only [accepts, hst, decide_eq_true_eq]
  constructor
  · rintro ⟨hop, hnr⟩
    exact ⟨hst, hop, hnr⟩
  · rintro ⟨-, hop, hnr⟩
    exact ⟨hop, hnr⟩

theorem wanted_keeps (hw : Wanted s m pvData) (hr : Runs (tftpRecHandler s m pvData siz) t s') :
    Keeps (blockStored s m pvData (sizData siz)) s' := by
  have hacc : accepts s m pvData siz = true := (wanted_iff hw.state).mpr hw
  cases receive_cases hr with
  | ignored hacc' => exact absurd (hacc'.symm.trans hacc) Bool.false_ne_true
  | error hacc' => exact absurd (hacc'.symm.trans hacc) Bool.false_ne_true
  | started hst => exact absurd (hw.state.symm.trans hst) (by decide)
  | stored _ _ hq _ =>
    rw [← hq]
    exact ⟨rfl, rfl, rfl, rfl, rfl⟩
  | finished _ _ hq _ =>
    rw [← hq]
    exact ⟨rfl, rfl, rfl, rfl, rfl⟩

theorem unwanted_keeps (hw : ¬ Wanted s m pvData) (hr : Runs (tftpRecHandler s m pvData siz) t s') :
    Keeps s s' := by
  cases hacc : accepts s m pvData siz with
  | false => exact (receive_quiet hacc hr).keeps
  | true =>
    cases hst : s.tState with
    | init => exact (init_started hst hacc hr).keeps
    | transfer => exact absurd ((wanted_iff hst).mp hacc) hw
    | idle | finished | error => simp [accepts, hst] at hacc

theorem receive_words (hw : Words s) (hr : Runs (tftpRecHandler s m pvData siz) t s') : Words s' := by
  by_cases hwanted : Wanted s m pvData
  · have hexpected : Words { s with uiExpectedBlockNr := uiWantedBlockNr s } := ⟨hw.pointer, hw.loaded⟩
    exact (wanted_keeps hwanted hr).words (storeBlock_words hexpected m pvData _)
  · exact (unwanted_keeps hwanted hr).words hw

theorem step_words {l : Label} (hs : Step s l s') (hl : l.op.Words) (hw : Words s) : Words s' := by
  cases hs with
  | openFile _ hr => exact (open_keeps hr).1.words ⟨hl, by simp [tftpPrepare]⟩
  | receive hr => exact receive_words hw hr
  | timer hr => exact (timer_quiet hr).keeps.words hw
  | other _ => exact ⟨hw.pointer, hw.loaded⟩
  | options _ => exact ⟨hw.pointer, hw.loaded⟩

theorem reach_words {h : List Label} (hr : Reach WordInit Step h s)
    (hl : ∀ l ∈ h, l.op.Words) : Words s := by
  apply hr.invariant (fun h s => (∀ l ∈ h, l.op.Words) → Words s) ?_ ?_ hl
  · intro s hs _
    exact hs.words
  · intro h s l s' ih hs hall
    exact step_words hs (hall l (by simp)) (ih fun l' hl' => hall l' (by simp [hl']))

theorem sizData_eq {siz : Nat} (hsiz : siz < 2 ^ 16) :
    sizData siz = if 4 ≤ siz then siz - 4 else siz + 2 ^ 32 - 4 := by
  unfold sizData sub32
  split_ifs <;> omega

/-- The pointer moves by any other length than that of an empty block. -/
theorem wanted_pointer_ne (hw : Words s) (hwanted : Wanted s m pvData) (hsiz : siz < 2 ^ 16) (hne : siz ≠ 4)
    (hr : Runs (tftpRecHandler s m pvData siz) t s') : s'.pucDstBuffer ≠ s.pucDstBuffer := by
  obtain ⟨n, hn⟩ : ∃ n, n = sizData siz := ⟨_, rfl⟩
  have hpointer := (wanted_keeps hwanted hr).pointer
  have hpos : n ≠ 0 ∧ n < 2 ^ 32 := by
    rw [hn, sizData_eq hsiz]
    split_ifs <;> omega
  rw [← hn, blockStored, tftpStoreBlock, if_pos hpos.1] at hpointer
  rw [hpointer]
  have hlt := hw.pointer
  simp only [add32]
  omega

theorem wanted_loads (hw : Words s) (hwanted : Wanted s m pvData) (hlen : BlockLength s siz)
    (hsiz : siz < 2 ^ 16) (hsrc : pvData + uUdpData + siz < 2 ^ 32)
    (hr : Runs (tftpRecHandler s m pvData siz) t s') : Loads m (pvData + aucData) (siz - 4) s s' := by
  have hkeeps := wanted_keeps hwanted hr
  have hexpected : Words { s with uiExpectedBlockNr := uiWantedBlockNr s } := ⟨hw.pointer, hw.loaded⟩
  obtain ⟨hlow, -⟩ := hlen
  rw [sizData_eq hsiz, if_pos hlow] at hkeeps
  have hend : pvData + aucData + (siz - 4) < 2 ^ 32 := by
    unfold aucData
    omega
  have hloads := (storeBlock_loads hexpected hend).keeps hkeeps
  exact ⟨hloads.pointer, hloads.loaded, hloads.copied, hloads.frame, hloads.sha⟩

/-- In every state that the client gets to, and for every packet that the UDP
layer can give to it, the handler loads nothing but the user data of a wanted
packet exactly if no wanted packet is shorter than its header or longer than a
block. -/
theorem recHandler_loads_iff {h : List Label} (hr : Reach WordInit Step h s)
    (hl : ∀ l ∈ h, l.op.Words) (hsiz : sizeofUdpHeader + siz < 2 ^ 16) (hsrc : pvData + uUdpData + siz < 2 ^ 32)
    (hrun : Runs (tftpRecHandler s m pvData siz) t s') :
    LoadsPayload m pvData siz s s' ↔ (Wanted s m pvData → BlockLength s siz) := by
  have hw := reach_words hr hl
  have hlt : siz < 2 ^ 16 := by omega
  constructor
  · intro hp hwanted
    by_contra hlen
    have hkeeps := hp.other fun hboth => hlen hboth.2
    have hne : siz ≠ 4 := by
      rintro rfl
      exact hlen ⟨le_rfl, Nat.le_add_right _ _⟩
    exact wanted_pointer_ne hw hwanted hlt hne hrun hkeeps.pointer
  · intro hlen
    refine ⟨fun hwanted hlength => wanted_loads hw hwanted hlength hlt hsrc hrun, fun hnot => ?_⟩
    exact unwanted_keeps (fun hwanted => hnot ⟨hwanted, hlen hwanted⟩) hrun

def exampleWaiting : Client := (exampleReceive true exampleOpen.2.2 (exampleOptionAck 2)).2

theorem reach_exampleWaiting :
    ∃ h, Reach WordInit Step h exampleWaiting ∧ ∀ l ∈ h, l.op.Words := by
  have hinit : WordInit (tftpInit exampleStatics) := ⟨⟨exampleStatics, _, rfl, rfl⟩, by decide, by decide⟩
  have hopen : Step (tftpInit exampleStatics) _ exampleOpen.2.2 := .openFile (by simp [tftpInit, TftpState.Open])
    (exec_runs (frames true false) (tftpOpen (tftpInit exampleStatics) [0x61] 0x8000 2) [])
  have hreceive : Step exampleOpen.2.2 _ exampleWaiting :=
    .receive (runs_exampleReceive true exampleOpen.2.2 (exampleOptionAck 2))
  refine ⟨_, ((Reach.init hinit).step hopen).step hreceive, ?_⟩
  simp [Op.Words]

theorem recHandler_loads_iff_first_block :
    (∃ h, Reach WordInit Step h exampleWaiting ∧ ∀ l ∈ h, l.op.Words) ∧
      Wanted exampleWaiting (exampleFrame (dataPacket exampleFile 2 1)) 0 ∧
      LoadsPayload (exampleFrame (dataPacket exampleFile 2 1)) 0 6 exampleWaiting
        (exampleReceive true exampleWaiting (dataPacket exampleFile 2 1)).2 := by
  obtain ⟨h, hreach, hl⟩ := reach_exampleWaiting
  have hrun := runs_exampleReceive true exampleWaiting (dataPacket exampleFile 2 1)
  have hlen : BlockLength exampleWaiting 6 := by
    constructor <;> decide +kernel
  have hloads := (recHandler_loads_iff hreach hl (by decide) (by decide) hrun).mpr fun _ => hlen
  exact ⟨⟨h, hreach, hl⟩, ⟨by decide +kernel, by decide +kernel, by decide +kernel⟩, hloads⟩

/-- What the client does with a packet of three bytes. The last byte of the
number is the padding behind it. -/
def exampleShort : List ClientEvent × Client :=
  exec (frames true false) (tftpRecHandler exampleWaiting (exampleFrame [0x00, 0x03, 0x00, 0x01]) 0 3) []

/-- The size of the data wraps around, so the pointer goes one byte back. -/
theorem short_packet_moves_pointer :
    ¬ ∀ (h : List Label) (s : Client) (m : Memory) (pvData siz : Nat) (t : List ClientEvent) (s' : Client),
      Reach WordInit Step h s → (∀ l ∈ h, l.op.Words) → sizeofUdpHeader + siz < 2 ^ 16 →
      pvData + uUdpData + siz < 2 ^ 32 → Runs (tftpRecHandler s m pvData siz) t s' →
        LoadsPayload m pvData siz s s' := by
  intro hall
  obtain ⟨h, hreach, hl⟩ := reach_exampleWaiting
  have hrun : Runs (tftpRecHandler exampleWaiting (exampleFrame [0x00, 0x03, 0x00, 0x01]) 0 3) exampleShort.1
      exampleShort.2 :=
    exec_runs (frames true false) (tftpRecHandler exampleWaiting (exampleFrame [0x00, 0x03, 0x00, 0x01]) 0 3) []
  have hloads := hall h exampleWaiting _ 0 3 _ _ hreach hl (by decide) (by decide) hrun
  have hkeeps := hloads.other fun hboth => absurd hboth.2.1 (by decide)
  have hbefore : exampleWaiting.pucDstBuffer = 0x8000 := by decide +kernel
  have hafter : exampleShort.2.pucDstBuffer = 0x7fff := by decide +kernel
  rw [hkeeps.pointer, hbefore] at hafter
  exact absurd hafter (by decide)

end FlashApp.Tftp
