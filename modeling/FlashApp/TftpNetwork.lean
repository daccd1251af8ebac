import FlashApp.TftpTransfer

namespace FlashApp.Tftp

open Bytes Eth Interaction Udp UdpClient Machine

variable {F : List UInt8} {b pucDst k : Nat} {m₀ : Memory} {s s' : Client} {t : List ClientEvent}

theorem netStep_inv {n n' : Transfer} {l : Label} (hlt : pucDst + F.length < 2 ^ 32)
    (hi : TransferInv F b m₀ pucDst n) (hs : NetStep F b Transfer.accepted n l n') :
    TransferInv F b m₀ pucDst n' ∧ (l.accepted = true → Acknowledges l.trace n'.accepted) := by
  cases hs with
  | timer hr => exact ⟨hi.quiet (timer_quiet hr), by simp⟩
  | optionAck hpkt hr =>
    rename_i s' m pvData siz t
    cases hacc : accepts n.client m pvData siz with
    | false =>
      simp only [Bool.or_false, Bool.false_eq_true, false_implies, and_true]
      exact hi.quiet (receive_quiet hacc hr)
    | true =>
      have hst := optionAck_init hpkt hacc
      have hq := init_started hst hacc hr
      simp only [Bool.or_true, forall_const, hi.none (hi.init hst)]
      exact ⟨(hi.none (hi.init hst)) ▸ hi.started hst hq, hq.ack⟩
  | data hpkt hsent hage hr =>
    rename_i s' k m pvData siz t
    cases hacc : accepts n.client m pvData siz with
    | false =>
      simp only [Bool.false_eq_true, ↓reduceIte, false_implies, and_true]
      exact hi.quiet (receive_quiet hacc hr)
    | true =>
      obtain ⟨hst, hnumber, hq⟩ := hi.data_advanced hlt hpkt hsent hage hacc hr
      simp only [↓reduceIte, forall_const]
      exact ⟨hi.advanced hst hlt hq, hq.ack _ hnumber⟩

/-- Whatever the network does to the packets of the server, the memory, the
SHA unit and the counters have the blocks accepted so far, each once and in
order. Each of them is acknowledged if there is a frame for it. A finished
transfer has stored the file. -/
theorem tftp_transfer (F : List UInt8) (b pucDst : Nat) (m₀ : Memory) (hlt : pucDst + F.length < 2 ^ 32)
    {h : List Label} {n : Transfer} (hr : Reach (Opened m₀ pucDst b) (NetStep F b Transfer.accepted) h n) :
    n.client.memory = store m₀ pucDst (blocks F b n.accepted) ∧
      n.client.aucShaData = blocks F b n.accepted ∧
      n.client.ulLoadedBytes = (blocks F b n.accepted).length ∧
      (n.started = true → n.client.uiExpectedBlockNr = n.accepted % 65536) ∧
      (n.started = false → n.accepted = 0) ∧
      (n.client.tState = .transfer ∨ n.client.tState = .finished → n.started = true) ∧
      (n.client.tState = .finished → blocks F b n.accepted = F ∧ Holds n.client.memory pucDst F) ∧
      ∀ l n', NetStep F b Transfer.accepted n l n' → l.accepted = true → Acknowledges l.trace n'.accepted := by
  have hi : TransferInv F b m₀ pucDst n :=
    hr.invariant (fun _ n => TransferInv F b m₀ pucDst n) (fun _ ho => opened_inv ho)
      (fun _ _ _ _ hi hs => (netStep_inv hlt hi hs).1)
  have hmem := hi.stored.memory
  rw [← blocks_eq] at hmem
  refine ⟨hmem, ?_, ?_, hi.number, hi.none, ?_, fun hst => ?_, fun l n' hs => (netStep_inv hlt hi hs).2⟩
  · rw [blocks_eq, hi.stored.sha]
  · rw [blocks_eq, hi.stored.loaded]
  · rintro (hst | hst)
    · exact (hi.transfer hst).1
    · exact (hi.finished hst).1
  · have hF : blocks F b n.accepted = F := by
      rw [blocks_eq]
      exact List.take_of_length_le (hi.finished hst).2.le
    refine ⟨hF, ?_⟩
    rw [hmem, hF]
    exact holds_store m₀ pucDst F

def dataPacket (F : List UInt8) (b k : Nat) : List UInt8 :=
  toLe16 tftpOpcodeData ++ (toLe16 (mus2nus (k % 65536)) ++ block F b k)

def exampleFrame (aucUdpData : List UInt8) : Memory := store (fun _ => 0) uUdpData aucUdpData

theorem isBlock_dataPacket (F : List UInt8) {b k : Nat} (hk : 1 ≤ k)
    (hlen : 46 + (block F b k).length < 2 ^ 32) :
    IsBlock F b k (exampleFrame (dataPacket F b k)) 0 (dataPacket F b k).length := by
  have hholds : Holds (exampleFrame (dataPacket F b k)) uUdpData (dataPacket F b k) := holds_store _ _ _
  generalize exampleFrame (dataPacket F b k) = m at hholds
  rw [dataPacket, holds_append, holds_append] at hholds
  obtain ⟨hop, hnr, hbytes⟩ := hholds
  rw [length_toLe16] at hnr hbytes
  refine ⟨hk, ?_, ?_, by simp [dataPacket]; omega, ?_, ?_⟩
  · rw [Nat.zero_add, usOpcode, get16_of_holds hop]
    rfl
  · rw [Nat.zero_add, uPacket, get16_of_holds hnr, Nat.mod_eq_of_lt (mus2nus_lt _),
      mus2nus_mus2nus (show k % 65536 < 2 ^ 16 by omega)]
  · rw [Nat.zero_add]
    exact hbytes
  · simp only [aucData, uUdpData]
    omega

def exampleOptionAck (b : Nat) : List UInt8 :=
  toLe16 tftpOpcodeOptionAck ++ (acBlksize ++ printBlocksize b)

def exampleReceive (bFrame : Bool) (s : Client) (aucUdpData : List UInt8) : List ClientEvent × Client :=
  exec (frames bFrame false) (tftpRecHandler s (exampleFrame aucUdpData) 0 aucUdpData.length) []

theorem runs_exampleReceive (bFrame : Bool) (s : Client) (aucUdpData : List UInt8) :
    Runs (tftpRecHandler s (exampleFrame aucUdpData) 0 aucUdpData.length) (exampleReceive bFrame s aucUdpData).1
      (exampleReceive bFrame s aucUdpData).2 :=
  exec_runs (frames bFrame false) (tftpRecHandler s (exampleFrame aucUdpData) 0 aucUdpData.length) []

def exampleOpened (s : Client) (b : Nat) : Transfer :=
  ⟨(exec (frames true false) (tftpOpen s [0x61] 0x8000 b) []).2.2, false, 0, 0⟩

theorem opened_exampleOpened {h : List Label} (hr : Reach Init Step h s) (hs : ¬ s.tState.Open) (b : Nat)
    (h0 : (exec (frames true false) (tftpOpen s [0x61] 0x8000 b) []).2.1 = 0) :
    Opened s.memory 0x8000 b (exampleOpened s b) := by
  refine ⟨h, s, [0x61], (exec (frames true false) (tftpOpen s [0x61] 0x8000 b) []).1, hr, hs,
    rfl, ?_, rfl, rfl, rfl⟩
  have hrun := exec_runs (frames true false) (tftpOpen s [0x61] 0x8000 b) []
  rw [exampleOpened, ← h0]
  exact hrun

def exampleStart (n : Transfer) (b : Nat) : Transfer :=
  let r := exampleReceive true n.client (exampleOptionAck b)
  n.next r.2 r.1
    (n.started || accepts n.client (exampleFrame (exampleOptionAck b)) 0 (exampleOptionAck b).length) n.accepted

theorem isOptionAck_example (b : Nat) : IsOptionAck (exampleFrame (exampleOptionAck b)) 0 := by
  have hholds : Holds (exampleFrame (exampleOptionAck b)) uUdpData (exampleOptionAck b) := holds_store _ _ _
  rw [exampleOptionAck, holds_append] at hholds
  rw [IsOptionAck, Nat.zero_add, usOpcode, exampleOptionAck, get16_of_holds hholds.1]
  rfl

section

variable {h : List Label} {n : Transfer} {last : Transfer → Nat}

theorem reach_exampleStart (hr : Reach (Opened m₀ pucDst b) (NetStep F b last) h n) :
    ∃ h', Reach (Opened m₀ pucDst b) (NetStep F b last) h' (exampleStart n b) :=
  ⟨_, hr.step (.optionAck (isOptionAck_example b)
    (runs_exampleReceive true n.client (exampleOptionAck b)))⟩

def exampleNext (F : List UInt8) (b : Nat) (bFrame : Bool) (n : Transfer) (k : Nat) : Transfer :=
  let r := exampleReceive bFrame n.client (dataPacket F b k)
  n.next r.2 r.1 n.started
    (if accepts n.client (exampleFrame (dataPacket F b k)) 0 (dataPacket F b k).length then n.accepted + 1
      else n.accepted)

theorem reach_exampleNext (hr : Reach (Opened m₀ pucDst b) (NetStep F b last) h n) (bFrame : Bool) (hk : 1 ≤ k)
    (hlen : 46 + (block F b k).length < 2 ^ 32) (hsent : k ≤ n.acknowledged) (hage : last n < k + 65535) :
    ∃ h', Reach (Opened m₀ pucDst b) (NetStep F b last) h' (exampleNext F b bFrame n k) :=
  ⟨_, hr.step (.data (isBlock_dataPacket F hk hlen) hsent hage
    (runs_exampleReceive bFrame n.client (dataPacket F b k)))⟩

end

theorem opened_exampleInit {b : Nat}
    (h0 : (exec (frames true false) (tftpOpen (tftpInit exampleStatics) [0x61] 0x8000 b) []).2.1 = 0) :
    Opened (fun _ => 0) 0x8000 b (exampleOpened (tftpInit exampleStatics) b) :=
  opened_exampleOpened (.init ⟨exampleStatics, _, rfl, rfl⟩) (by simp [tftpInit, TftpState.Open]) b h0

def exampleFile : List UInt8 := [0x78, 0x79, 0x7a]

/-- A transfer in which the first block comes twice. -/
def exampleTransfer : Transfer :=
  let n := exampleStart (exampleOpened (tftpInit exampleStatics) 2) 2
  let n := exampleNext exampleFile 2 true n 1
  let n := exampleNext exampleFile 2 true n 1
  exampleNext exampleFile 2 true n 2

theorem tftp_transfer_repeated_block :
    (∃ h, Reach (Opened (fun _ => 0) 0x8000 2) (NetStep exampleFile 2 Transfer.accepted) h exampleTransfer) ∧
      exampleTransfer.client.tState = .finished ∧
      Holds exampleTransfer.client.memory 0x8000 exampleFile := by
  have hopened : Opened (fun _ => 0) 0x8000 2 (exampleOpened (tftpInit exampleStatics) 2) :=
    opened_exampleInit (by decide +kernel)
  have hinit : Reach (Opened (fun _ => 0) 0x8000 2) (NetStep exampleFile 2 Transfer.accepted) [] _ :=
    .init hopened
  obtain ⟨h₁, hr₁⟩ := reach_exampleStart hinit
  obtain ⟨h₂, hr₂⟩ := reach_exampleNext (k := 1) hr₁ true (by decide) (by decide) (by decide +kernel)
    (by decide +kernel)
  obtain ⟨h₃, hr₃⟩ := reach_exampleNext (k := 1) hr₂ true (by decide) (by decide) (by decide +kernel)
    (by decide +kernel)
  obtain ⟨h₄, hr₄⟩ := reach_exampleNext (k := 2) hr₃ true (by decide) (by decide) (by decide +kernel)
    (by decide +kernel)
  have hfinished : exampleTransfer.client.tState = .finished := by decide +kernel
  have hfile := (tftp_transfer exampleFile 2 0x8000 _ (by decide) hr₄).2.2.2.2.2.2.1 hfinished
  exact ⟨⟨h₄, hr₄⟩, hfinished, hfile.2⟩

def exampleLoaded : Client :=
  (exampleReceive true (exampleReceive true exampleOpen.2.2 (exampleOptionAck 2)).2 (dataPacket [0x78] 2 1)).2

theorem reach_exampleLoaded : ∃ h, Reach Init Step h exampleLoaded :=
  ⟨_, ((reach_exampleTicks 0).step (.receive (runs_exampleReceive true _ (exampleOptionAck 2)))).step
    (.receive (runs_exampleReceive true _ (dataPacket [0x78] 2 1)))⟩

/-- The block number of the last file stays until the options of the next one
are accepted. -/
theorem second_open_keeps_number :
    ∃ m₀ n, Opened m₀ 0x8000 2 n ∧ n.client.uiExpectedBlockNr ≠ n.accepted % 65536 := by
  obtain ⟨h, hreach⟩ := reach_exampleLoaded
  have hclosed : exampleLoaded.tState = .finished := by decide +kernel
  have hopened := opened_exampleOpened hreach (hclosed ▸ not_open_finished) 2 (by decide +kernel)
  exact ⟨_, _, hopened, by decide +kernel⟩

/-- A run in which a packet of the server with one byte of data was accepted
each time. -/
structure Steady (F : List UInt8) (n : Transfer) : Prop where
  reach : ∃ h, Reach (Opened (fun _ => 0) 0x8000 1) (NetStep F 1 Transfer.lastAcknowledged) h n
  inv : TransferInv F 1 (fun _ => 0) 0x8000 n
  state : n.client.tState = .transfer

theorem accepts_dataPacket {n : Transfer} (hi : TransferInv F b m₀ pucDst n) (hst : n.client.tState = .transfer)
    (hk : 1 ≤ k) (hlen : 46 + (block F b k).length < 2 ^ 32) (hnr : k % 65536 = (n.accepted + 1) % 65536) :
    accepts n.client (exampleFrame (dataPacket F b k)) 0 (dataPacket F b k).length = true := by
  have hpkt := isBlock_dataPacket F hk hlen
  simp only [accepts, hst, hpkt.opcode, hpkt.blockNr, hi.wanted (hi.transfer hst).1, hnr, and_self, decide_true]

theorem Steady.next {n : Transfer} (hs : Steady F n) (hlen : n.accepted < F.length)
    (hlt : 0x8000 + F.length < 2 ^ 32) (hack : n.acknowledged = n.accepted + 1) (bFrame : Bool) :
    ∃ n', Steady F n' ∧ n'.accepted = n.accepted + 1 ∧
      n'.acknowledged = if bFrame then n.accepted + 2 else n.acknowledged := by
  obtain ⟨⟨h, hr⟩, hi, hst⟩ := hs
  have hone : (block F 1 (n.accepted + 1)).length = 1 := by
    rw [length_block]
    omega
  have hsiz : 46 + (block F 1 (n.accepted + 1)).length < 2 ^ 32 := by omega
  have hacc := accepts_dataPacket hi hst (Nat.le_add_left 1 _) hsiz rfl
  have hrun := runs_exampleReceive bFrame n.client (dataPacket F 1 (n.accepted + 1))
  obtain ⟨-, hnumber, hq⟩ := hi.data_advanced hlt (isBlock_dataPacket F (Nat.le_add_left 1 _) hsiz) (by omega)
    (by omega) hacc hrun
  have hreach := reach_exampleNext hr bFrame (Nat.le_add_left 1 _) hsiz (by omega)
    (by simp only [Transfer.lastAcknowledged]; omega)
  have hnext : exampleNext F 1 bFrame n (n.accepted + 1) =
      n.next (exampleReceive bFrame n.client (dataPacket F 1 (n.accepted + 1))).2
        (exampleReceive bFrame n.client (dataPacket F 1 (n.accepted + 1))).1 n.started (n.accepted + 1) := by
    simp only [exampleNext, hacc, ↓reduceIte]
  rw [hnext] at hreach
  refine ⟨_, ⟨hreach, hi.advanced hst hlt hq, ?_⟩, rfl, ?_⟩
  · rw [Transfer.next, hq.state, hi.stored.blockSize, hone, if_neg (Nat.lt_irrefl 1)]
  · cases bFrame with
    | true =>
      have hsent := hq.ack _ hnumber (frames_packet true)
      simp only [Transfer.next, hsent, ↓reduceIte]
    | false =>
      have hunsent := hq.unsent (frames_packet false)
      simp only [Transfer.next, hunsent, List.map_nil, List.not_mem_nil, Bool.false_eq_true, ↓reduceIte]

theorem exists_steady {F : List UInt8} (hlt : 0x8000 + F.length < 2 ^ 32) {j : Nat} (hj : j ≤ F.length) :
    ∃ n, Steady F n ∧ n.accepted = j ∧ n.acknowledged = j + 1 := by
  induction j with
  | zero =>
    have hopened : Opened (fun _ => 0) 0x8000 1 (exampleOpened (tftpInit exampleStatics) 1) :=
      opened_exampleInit (by decide +kernel)
    have hi : TransferInv F 1 (fun _ => 0) 0x8000 (exampleOpened (tftpInit exampleStatics) 1) :=
      opened_inv hopened
    have hst : (exampleOpened (tftpInit exampleStatics) 1).client.tState = .init := by decide +kernel
    have hacc : accepts (exampleOpened (tftpInit exampleStatics) 1).client
        (exampleFrame (exampleOptionAck 1)) 0 (exampleOptionAck 1).length = true := by decide +kernel
    have hq := init_started hst hacc
      (runs_exampleReceive true (exampleOpened (tftpInit exampleStatics) 1).client (exampleOptionAck 1))
    have hinv := hi.started hst hq
    have hinit : Reach (Opened (fun _ => 0) 0x8000 1) (NetStep F 1 Transfer.lastAcknowledged) [] _ :=
      .init hopened
    have hreach := reach_exampleStart hinit
    have hstart : exampleStart (exampleOpened (tftpInit exampleStatics) 1) 1 =
        (exampleOpened (tftpInit exampleStatics) 1).next
          (exampleReceive true (exampleOpened (tftpInit exampleStatics) 1).client (exampleOptionAck 1)).2
          (exampleReceive true (exampleOpened (tftpInit exampleStatics) 1).client (exampleOptionAck 1)).1
          true (exampleOpened (tftpInit exampleStatics) 1).accepted := by
      simp only [exampleStart, hacc, Bool.or_true]
    rw [hstart] at hreach
    refine ⟨_, ⟨hreach, hinv, hq.state⟩, rfl, ?_⟩
    have hsent := hq.ack (frames_packet true)
    have hzero : (exampleOpened (tftpInit exampleStatics) 1).accepted = 0 := rfl
    simp only [Transfer.next, hzero, hsent, ↓reduceIte]
  | succ j ih =>
    obtain ⟨n, hs, hacc, hack⟩ := ih (by omega)
    obtain ⟨n', hs', hacc', hack'⟩ := hs.next (by omega) hlt (by omega) true
    refine ⟨n', hs', by omega, ?_⟩
    simp only [↓reduceIte] at hack'
    omega

/-- If the acknowledgement of a block cannot be sent, then the last one that was
sent is too old a limit: the number of a block of the last round is wanted
again. -/
theorem stale_block_accepted :
    ∃ F h n, 0x8000 + F.length < 2 ^ 32 ∧
      Reach (Opened (fun _ => 0) 0x8000 1) (NetStep F 1 Transfer.lastAcknowledged) h n ∧
      n.client.memory ≠ store (fun _ => 0) 0x8000 (blocks F 1 n.accepted) := by
  obtain ⟨j, hj⟩ : ∃ j, j = 65535 := ⟨_, rfl⟩
  obtain ⟨F, hF⟩ : ∃ F : List UInt8, F = 0 :: List.replicate j 0 ++ [1] := ⟨_, rfl⟩
  have hlength : F.length = j + 2 := by simp [hF]
  have hlt : 0x8000 + F.length < 2 ^ 32 := by omega
  obtain ⟨n, hs, hacc, hack⟩ := exists_steady hlt (j := j) (by omega)
  obtain ⟨n', ⟨⟨h, hr⟩, hi, hst⟩, hacc', hack'⟩ := hs.next (by omega) hlt (by omega) false
  simp only [Bool.false_eq_true, ↓reduceIte] at hack'
  have hone : block F 1 1 = [0] := by simp [block, hF]
  have hsiz : 46 + (block F 1 1).length < 2 ^ 32 := by simp [hone]
  obtain ⟨h', hreach⟩ := reach_exampleNext hr true le_rfl hsiz (by omega)
    (by simp only [Transfer.lastAcknowledged]; omega)
  refine ⟨F, h', _, hlt, hreach, ?_⟩
  have hwanted := accepts_dataPacket hi hst le_rfl hsiz (by omega)
  have hpkt := isBlock_dataPacket F (b := 1) le_rfl hsiz
  have hpointer := hi.stored.pointer
  have hloaded := hi.stored.loaded
  rw [List.length_take, hlength, Nat.mul_one, hacc', hacc, min_eq_left (by omega)] at hpointer hloaded
  have hdst : n'.client.pucDstBuffer + (block F 1 1).length < 2 ^ 32 := by
    rw [hone, List.length_singleton]
    omega
  have hq := transfer_advanced hst hwanted hpkt.bytes hpkt.size hpkt.inMemory hdst (by omega)
    (runs_exampleReceive true n'.client (dataPacket F 1 1))
  -- the first block was stored once more, in the place of the last one
  intro hmem
  simp only [exampleNext, Transfer.next, hwanted, ↓reduceIte, hq.memory, hone, hpointer, blocks_eq,
    Nat.mul_one, hacc', hacc] at hmem
  rw [List.take_of_length_le (by omega), hF, ← store_append] at hmem
  have hbyte := congrFun hmem (0x8000 + (j + 1))
  rw [store_cons, if_pos rfl, store_cons, if_pos (by simp)] at hbyte
  exact absurd hbyte (by decide)

/-- The wanted number is not yet set after a second open, and a limit by the
acknowledgements that were sent is not enough. -/
theorem stale_number_and_stale_block :
    (¬ ∀ (F : List UInt8) (b pucDst : Nat) (m₀ : Memory) (h : List Label) (n : Transfer),
      1 ≤ b → pucDst + F.length < 2 ^ 32 →
      Reach (Opened m₀ pucDst b) (NetStep F b Transfer.lastAcknowledged) h n →
        n.client.uiExpectedBlockNr = n.accepted % 65536) ∧
    ¬ ∀ (F : List UInt8) (b pucDst : Nat) (m₀ : Memory) (h : List Label) (n : Transfer),
      1 ≤ b → pucDst + F.length < 2 ^ 32 →
      Reach (Opened m₀ pucDst b) (NetStep F b Transfer.lastAcknowledged) h n →
        n.client.memory = store m₀ pucDst (blocks F b n.accepted) := by
  constructor
  · intro hall
    obtain ⟨m₀, n, hopened, hne⟩ := second_open_keeps_number
    exact hne (hall [] 2 0x8000 m₀ [] n (by decide) (by decide) (.init hopened))
  · intro hall
    obtain ⟨F, h, n, hlt, hreach, hne⟩ := stale_block_accepted
    exact hne (hall F 1 0x8000 _ h n le_rfl hlt hreach)

end FlashApp.Tftp
