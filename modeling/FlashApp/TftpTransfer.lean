import FlashApp.TftpRuns

namespace FlashApp.Tftp

open Bytes Eth Interaction Udp UdpClient Machine

/-- Block `k` of a file, counted from one. The last block is shorter than the
others, and empty if they fill the file. -/
def block (F : List UInt8) (b k : Nat) : List UInt8 := (F.drop ((k - 1) * b)).take b

def blocks (F : List UInt8) (b k : Nat) : List UInt8 :=
  (List.range k).flatMap fun i => block F b (i + 1)

/-- A frame with an option acknowledgement. -/
def IsOptionAck (m : Memory) (pvData : Nat) : Prop :=
  get16 m (pvData + usOpcode) = tftpOpcodeOptionAck

/-- A frame with block `k` of the file. -/
structure IsBlock (F : List UInt8) (b k : Nat) (m : Memory) (pvData sizTftpLength : Nat) : Prop where
  number : 1 ≤ k
  opcode : get16 m (pvData + usOpcode) = tftpOpcodeData
  blockNr : mus2nus (get16 m (pvData + uPacket)) = k % 65536
  size : sizTftpLength = 4 + (block F b k).length
  bytes : Holds m (pvData + aucData) (block F b k)
  inMemory : pvData + aucData + (block F b k).length < 2 ^ 32

/-- A client in a transfer: whether it has accepted the options, the number of
blocks it has accepted, and the number of acknowledgements that went out, with
that of the options. -/
structure Transfer where
  client : Client
  started : Bool
  accepted : Nat
  acknowledged : Nat

def ackPacket (k : Nat) : List UInt8 := toLe16 tftpOpcodeAck ++ toLe16 (mus2nus (k % 65536))

/-- The transfer after a step. -/
def Transfer.next (n : Transfer) (client : Client) (t : List ClientEvent) (started : Bool) (accepted : Nat) :
    Transfer where
  client := client
  started := started
  accepted := accepted
  acknowledged := if ackPacket accepted ∈ (sends t).map Prod.fst then accepted + 1 else n.acknowledged

/-- The number of the last acknowledged block. -/
def Transfer.lastAcknowledged (n : Transfer) : Nat := n.acknowledged - 1

/-- The client has just opened a file, after any number of other transfers and
with `m₀` in the memory. -/
def Opened (m₀ : Memory) (pucDst b : Nat) (n : Transfer) : Prop :=
  ∃ h s pcFileName t, Reach Init Step h s ∧ ¬ s.tState.Open ∧ s.memory = m₀ ∧
    Runs (tftpOpen s pcFileName pucDst b) t (0, n.client) ∧ n.started = false ∧ n.accepted = 0 ∧
    n.acknowledged = 0

/-- The timer runs, or the network delivers a packet of the server. It can do
so in any order and any number of times, with two limits: block `k` is not
sent before the client has acknowledged the one before it, and it is not
delivered any more after 65535 later ones, counted by `last`. -/
inductive NetStep (F : List UInt8) (b : Nat) (last : Transfer → Nat) : Transfer → Label → Transfer → Prop
  | timer {n : Transfer} {s' : Client} {t : List ClientEvent} (hr : Runs (tftpTimer n.client) t s') :
      NetStep F b last n ⟨.timer, false, t⟩ (n.next s' t n.started n.accepted)
  | optionAck {n : Transfer} {s' : Client} {m : Memory} {pvData siz : Nat} {t : List ClientEvent}
      (hpkt : IsOptionAck m pvData) (hr : Runs (tftpRecHandler n.client m pvData siz) t s') :
      NetStep F b last n ⟨.receive m pvData siz, accepts n.client m pvData siz, t⟩
        (n.next s' t (n.started || accepts n.client m pvData siz) n.accepted)
  | data {n : Transfer} {s' : Client} {k : Nat} {m : Memory} {pvData siz : Nat} {t : List ClientEvent}
      (hpkt : IsBlock F b k m pvData siz) (hsent : k ≤ n.acknowledged) (hage : last n < k + 65535)
      (hr : Runs (tftpRecHandler n.client m pvData siz) t s') :
      NetStep F b last n ⟨.receive m pvData siz, accepts n.client m pvData siz, t⟩
        (n.next s' t n.started (if accepts n.client m pvData siz then n.accepted + 1 else n.accepted))

/-- What the client has stored. -/
structure Stored (F : List UInt8) (b : Nat) (m₀ : Memory) (pucDst : Nat) (s : Client) (k : Nat) : Prop where
  memory : s.memory = store m₀ pucDst (F.take (k * b))
  sha : s.aucShaData = F.take (k * b)
  loaded : s.ulLoadedBytes = (F.take (k * b)).length
  pointer : s.pucDstBuffer = pucDst + (F.take (k * b)).length
  blockSize : s.uiBlockSize = b

variable {F : List UInt8} {b pucDst k : Nat} {m₀ : Memory} {s s' : Client} {t : List ClientEvent}

theorem take_block (F : List UInt8) (b k : Nat) :
    F.take (k * b) ++ block F b (k + 1) = F.take ((k + 1) * b) := by
  rw [block, Nat.add_sub_cancel, Nat.succ_mul, List.take_add]

theorem blocks_eq (F : List UInt8) (b k : Nat) : blocks F b k = F.take (k * b) := by
  induction k with
  | zero => simp [blocks]
  | succ k ih =>
    have hsucc : blocks F b (k + 1) = blocks F b k ++ block F b (k + 1) := by
      simp [blocks, List.range_succ]
    rw [hsucc, ih, take_block]

theorem length_block (F : List UInt8) (b k : Nat) :
    (block F b (k + 1)).length = min b (F.length - k * b) := by
  simp [block]

theorem store_update (f : Memory) (o : Nat) (x : UInt8) (xs : List UInt8) :
    store (Function.update f o x) (o + 1) xs = store f o (x :: xs) := by
  funext a
  rw [store_cons]
  by_cases ha : a = o
  · subst ha
    simp [store]
  · simp only [if_neg ha, store, Function.update_of_ne ha]

theorem copyBytes_eq (m : Memory) {n src dst : Nat} (hdst : dst + n < 2 ^ 32) (q : Sink) :
    copyBytes m n src dst q =
      ⟨store q.memory dst (slice m src n), q.aucShaData ++ slice m src n⟩ := by
  induction n generalizing src dst q with
  | zero => simp [copyBytes, slice, store_nil]
  | succ n ih =>
    rw [copyBytes, add32_of_lt (by omega), ih (by omega), slice, store_update]
    simp

theorem copyData_eq (m : Memory) {src dst siz : Nat} (hsrc : src + siz < 2 ^ 32)
    (hdst : dst + siz < 2 ^ 32) (q : Sink) :
    copyData m dst src siz q =
      ⟨store q.memory dst (slice m src siz), q.aucShaData ++ slice m src siz⟩ := by
  rw [copyData, add32_of_lt hsrc, Nat.add_sub_cancel_left]
  exact copyBytes_eq m hdst q

/-- A step without a new block leaves everything that was stored. -/
structure Keeps (s s' : Client) : Prop where
  memory : s'.memory = s.memory
  sha : s'.aucShaData = s.aucShaData
  loaded : s'.ulLoadedBytes = s.ulLoadedBytes
  pointer : s'.pucDstBuffer = s.pucDstBuffer
  blockSize : s'.uiBlockSize = s.uiBlockSize

/-- Without a packet that is accepted the state stays, or the client gives up. -/
structure Quiet (s s' : Client) : Prop where
  keeps : Keeps s s'
  number : s'.uiExpectedBlockNr = s.uiExpectedBlockNr
  state : s'.tState = s.tState ∨ s'.tState = .error

theorem Keeps.refl (s : Client) : Keeps s s := ⟨rfl, rfl, rfl, rfl, rfl⟩

theorem Quiet.refl (s : Client) : Quiet s s := ⟨.refl s, rfl, .inl rfl⟩

theorem quiet_error (s : Client) : Quiet s (tftpClose s .error) := ⟨⟨rfl, rfl, rfl, rfl, rfl⟩, rfl, .inr rfl⟩

theorem timer_quiet (hr : Runs (tftpTimer s) t s') : Quiet s s' := by
  cases timer_cases hr with
  | closed => exact .refl s
  | waiting _ => exact .refl s
  | resent _ _ _ => exact ⟨⟨rfl, rfl, rfl, rfl, rfl⟩, rfl, .inl rfl⟩
  | gaveUp _ => exact quiet_error s

theorem receive_quiet {m : Memory} {pvData siz : Nat} (hacc : accepts s m pvData siz = false)
    (hr : Runs (tftpRecHandler s m pvData siz) t s') : Quiet s s' := by
  cases receive_cases hr with
  | ignored _ => exact .refl s
  | error _ => exact quiet_error s
  | started _ hacc' => exact absurd (hacc.symm.trans hacc') Bool.false_ne_true
  | stored _ hacc' => exact absurd (hacc.symm.trans hacc') Bool.false_ne_true
  | finished _ hacc' => exact absurd (hacc.symm.trans hacc') Bool.false_ne_true

theorem open_keeps {pcFileName : List UInt8} {uiBlkSize : Nat} {iResult : Int}
    (hr : Runs (tftpOpen s pcFileName pucDst uiBlkSize) t (iResult, s')) :
    Keeps (tftpPrepare s pucDst uiBlkSize) s' ∧ (iResult = 0 → s'.tState = .init) := by
  have hrun := open_cases hr
  generalize tftpPrepare s pucDst uiBlkSize = q at hrun ⊢
  cases hrun with
  | noPort _ => exact ⟨.refl _, fun hzero => absurd hzero (by decide)⟩
  | opened _ _ => exact ⟨⟨rfl, rfl, rfl, rfl, rfl⟩, fun _ => rfl⟩
  | failed _ _ hne => exact ⟨⟨rfl, rfl, rfl, rfl, rfl⟩, fun hzero => absurd hzero hne⟩

/-- The acknowledgement of a block, unless there is no empty frame for it. -/
def Acknowledges (tr : List ClientEvent) (k : Nat) : Prop :=
  ⟨.ethGetEmptyPacket, false⟩ ∉ tr →
    ackPacket k ∈ (sends tr).map Prod.fst

theorem sendAck_acknowledges {u : List ClientEvent} {r : Int} (hr : Runs (tftpSendAckPacket s) t r)
    (hk : s.uiExpectedBlockNr = k % 65536) : Acknowledges (t ++ u) k := by
  intro hframe
  obtain ⟨rfl, -⟩ | ⟨rfl, -⟩ := runs_sendPacket.mp hr
  · simp [ackPacket, ← hk]
  · simp at hframe

theorem sends_of_no_frame {u : List ClientEvent} {r : Int} (hr : Runs (tftpSendAckPacket s) t r)
    (hframe : ⟨.ethGetEmptyPacket, true⟩ ∉ t ++ u) : sends t = [] := by
  obtain ⟨rfl, -⟩ | ⟨rfl, -⟩ := runs_sendPacket.mp hr
  · simp at hframe
  · rfl

/-- What accepting the options does. -/
structure Started (s : Client) (t : List ClientEvent) (s' : Client) : Prop where
  keeps : Keeps s s'
  number : s'.uiExpectedBlockNr = 0
  state : s'.tState = .transfer
  ack : Acknowledges t 0

theorem setRemotePort_keeps (s : Client) (uiPort : Nat) : Keeps s (setRemotePort s uiPort) := by
  simp only [setRemotePort]
  split
  · exact ⟨rfl, rfl, rfl, rfl, rfl⟩
  · exact .refl s

theorem init_started {m : Memory} {pvData siz : Nat} (hst : s.tState = .init)
    (hacc : accepts s m pvData siz = true) (hr : Runs (tftpRecHandler s m pvData siz) t s') :
    Started s t s' := by
  cases receive_cases hr with
  | ignored hacc' => exact absurd (hacc'.symm.trans hacc) Bool.false_ne_true
  | error hacc' => exact absurd (hacc'.symm.trans hacc) Bool.false_ne_true
  | @started q _ _ _ _ _ hq hsend =>
    have hkeeps := setRemotePort_keeps s (get16 m (pvData + UdpHdr.usSrcPort))
    subst hq
    exact ⟨⟨hkeeps.memory, hkeeps.sha, hkeeps.loaded, hkeeps.pointer, hkeeps.blockSize⟩, rfl, rfl,
      sendAck_acknowledges hsend rfl⟩
  | stored hst' => exact absurd (hst.symm.trans hst') (by decide)
  | finished hst' => exact absurd (hst.symm.trans hst') (by decide)

/-- What accepting a block of `bs` does. -/
structure Advanced (bs : List UInt8) (s : Client) (t : List ClientEvent) (s' : Client) : Prop where
  memory : s'.memory = store s.memory s.pucDstBuffer bs
  sha : s'.aucShaData = s.aucShaData ++ bs
  loaded : s'.ulLoadedBytes = add32 s.ulLoadedBytes bs.length
  pointer : s'.pucDstBuffer = add32 s.pucDstBuffer bs.length
  blockSize : s'.uiBlockSize = s.uiBlockSize
  number : s'.uiExpectedBlockNr = uiWantedBlockNr s
  state : s'.tState = if bs.length < s.uiBlockSize then .finished else .transfer
  ack : ∀ k, uiWantedBlockNr s = k % 65536 → Acknowledges t k
  unsent : ⟨.ethGetEmptyPacket, true⟩ ∉ t → sends t = []

theorem storeBlock_eq {m : Memory} {ptPkt : Nat} {bs : List UInt8} (hb : Holds m (ptPkt + aucData) bs)
    (hsrc : ptPkt + aucData + bs.length < 2 ^ 32) (hdst : s.pucDstBuffer + bs.length < 2 ^ 32)
    (hloaded : s.ulLoadedBytes < 2 ^ 32) :
    tftpStoreBlock s m ptPkt bs.length =
      { s with
        memory := store s.memory s.pucDstBuffer bs
        aucShaData := s.aucShaData ++ bs
        pucDstBuffer := add32 s.pucDstBuffer bs.length
        ulLoadedBytes := add32 s.ulLoadedBytes bs.length } := by
  rw [tftpStoreBlock]
  split
  · rw [copyData_eq m hsrc hdst, hb]
  · rename_i hne
    obtain rfl := List.eq_nil_of_length_eq_zero (not_not.mp hne)
    rw [List.length_nil, store_nil, add32_of_lt (by simpa using hloaded), add32_of_lt (by simpa using hdst)]
    simp

theorem transfer_advanced {m : Memory} {pvData siz : Nat} {bs : List UInt8} (hst : s.tState = .transfer)
    (hacc : accepts s m pvData siz = true) (hb : Holds m (pvData + aucData) bs)
    (hsiz : siz = 4 + bs.length) (hsrc : pvData + aucData + bs.length < 2 ^ 32)
    (hdst : s.pucDstBuffer + bs.length < 2 ^ 32) (hloaded : s.ulLoadedBytes < 2 ^ 32)
    (hr : Runs (tftpRecHandler s m pvData siz) t s') : Advanced bs s t s' := by
  have hdata : sizData siz = bs.length := by
    simp only [sizData, sub32, hsiz]
    omega
  have hstore : blockStored s m pvData (sizData siz) = { s with
      uiExpectedBlockNr := uiWantedBlockNr s
      memory := store s.memory s.pucDstBuffer bs
      aucShaData := s.aucShaData ++ bs
      pucDstBuffer := add32 s.pucDstBuffer bs.length
      ulLoadedBytes := add32 s.ulLoadedBytes bs.length } := by
    rw [hdata]
    exact storeBlock_eq hb hsrc hdst hloaded
  cases receive_cases hr with
  | ignored hacc' => exact absurd (hacc'.symm.trans hacc) Bool.false_ne_true
  | error hacc' => exact absurd (hacc'.symm.trans hacc) Bool.false_ne_true
  | started hst' => exact absurd (hst.symm.trans hst') (by decide)
  | @stored q ulMs t₁ r _ _ hq hsend hmore =>
    rw [hstore] at hq
    rw [hdata] at hmore
    subst hq
    exact ⟨rfl, rfl, rfl, rfl, rfl, rfl, hst.trans (if_neg hmore).symm, fun k hk => sendAck_acknowledges hsend hk,
      fun hframe => by simpa using sends_of_no_frame hsend hframe⟩
  | @finished q ulMs t₁ r _ _ hq hsend hlast =>
    rw [hstore] at hq
    rw [hdata] at hlast
    subst hq
    exact ⟨rfl, rfl, rfl, rfl, rfl, rfl, (if_pos hlast).symm, fun k hk => sendAck_acknowledges hsend hk,
      fun hframe => by simpa using sends_of_no_frame hsend hframe⟩

/-- The blocks accepted so far are stored, and they are the whole file when the
transfer is over. -/
structure TransferInv (F : List UInt8) (b : Nat) (m₀ : Memory) (pucDst : Nat) (n : Transfer) : Prop where
  stored : Stored F b m₀ pucDst n.client n.accepted
  none : n.started = false → n.accepted = 0
  acknowledged : n.acknowledged ≤ n.accepted + 1
  number : n.started = true → n.client.uiExpectedBlockNr = n.accepted % 65536
  init : n.client.tState = .init → n.started = false
  transfer : n.client.tState = .transfer → n.started = true ∧ n.accepted * b ≤ F.length
  finished : n.client.tState = .finished → n.started = true ∧ F.length < n.accepted * b

theorem Stored.keeps (hs : Stored F b m₀ pucDst s k) (hk : Keeps s s') : Stored F b m₀ pucDst s' k where
  memory := hk.memory.trans hs.memory
  sha := hk.sha.trans hs.sha
  loaded := hk.loaded.trans hs.loaded
  pointer := hk.pointer.trans hs.pointer
  blockSize := hk.blockSize.trans hs.blockSize

theorem Stored.advanced (hs : Stored F b m₀ pucDst s k) (hlt : pucDst + F.length < 2 ^ 32)
    (hq : Advanced (block F b (k + 1)) s t s') : Stored F b m₀ pucDst s' (k + 1) := by
  have htake := take_block F b k
  have hlen : (F.take (k * b)).length + (block F b (k + 1)).length = (F.take ((k + 1) * b)).length := by
    rw [← htake, List.length_append]
  have hle : (F.take ((k + 1) * b)).length ≤ F.length := by simp
  refine ⟨?_, ?_, ?_, ?_, hq.blockSize.trans hs.blockSize⟩
  · rw [hq.memory, hs.pointer, hs.memory, store_append, htake]
  · rw [hq.sha, hs.sha, htake]
  · rw [hq.loaded, hs.loaded, hlen.symm]
    exact add32_of_lt (by omega)
  · rw [hq.pointer, hs.pointer, add32_of_lt (by omega)]
    omega

theorem opened_inv {n : Transfer} (ho : Opened m₀ pucDst b n) : TransferInv F b m₀ pucDst n := by
  obtain ⟨h, s, f, t, -, -, rfl, hr, hstarted, hacc, hack⟩ := ho
  obtain ⟨hkeeps, hinit⟩ := open_keeps hr
  have hst : n.client.tState = .init := hinit rfl
  refine ⟨⟨?_, ?_, ?_, ?_, hkeeps.blockSize⟩, fun _ => hacc, by omega, ?_, fun _ => hstarted, ?_, ?_⟩
  · rw [hkeeps.memory, hacc, Nat.zero_mul, List.take_zero, store_nil]
    rfl
  · rw [hkeeps.sha, hacc, Nat.zero_mul]
    rfl
  · rw [hkeeps.loaded, hacc, Nat.zero_mul]
    rfl
  · rw [hkeeps.pointer, hacc, Nat.zero_mul]
    rfl
  · simp [hstarted]
  · simp [hst]
  · simp [hst]

theorem Transfer.next_acknowledged {n : Transfer} (h : n.acknowledged ≤ n.accepted + 1) (client : Client)
    (t : List ClientEvent) (started : Bool) {k : Nat} (hk : n.accepted ≤ k) :
    (n.next client t started k).acknowledged ≤ k + 1 := by
  simp only [Transfer.next]
  split <;> omega

theorem TransferInv.quiet {n : Transfer} (hi : TransferInv F b m₀ pucDst n) (hq : Quiet n.client s') :
    TransferInv F b m₀ pucDst (n.next s' t n.started n.accepted) := by
  have hstate : ∀ {st : TftpState}, st ≠ .error → s'.tState = st → n.client.tState = st := by
    intro st hne hst
    obtain h | h := hq.state
    · exact h.symm.trans hst
    · exact absurd (hst.symm.trans h) hne
  refine ⟨hi.stored.keeps hq.keeps, hi.none, Transfer.next_acknowledged hi.acknowledged _ _ _ le_rfl,
    fun hs => hq.number.trans (hi.number hs), ?_, ?_, ?_⟩
  · exact fun hst => hi.init (hstate (by decide) hst)
  · exact fun hst => hi.transfer (hstate (by decide) hst)
  · exact fun hst => hi.finished (hstate (by decide) hst)

theorem optionAck_init {m : Memory} {pvData siz : Nat} (hpkt : IsOptionAck m pvData)
    (hacc : accepts s m pvData siz = true) : s.tState = .init := by
  have hne : tftpOpcodeOptionAck ≠ tftpOpcodeData := by decide
  rw [IsOptionAck] at hpkt
  cases hst : s.tState with
  | init => rfl
  | transfer => simp [accepts, hst, hpkt, hne] at hacc
  | idle | finished | error => simp [accepts, hst] at hacc

theorem data_transfer {m : Memory} {pvData siz : Nat} (hpkt : IsBlock F b k m pvData siz)
    (hacc : accepts s m pvData siz = true) :
    s.tState = .transfer ∧ k % 65536 = uiWantedBlockNr s := by
  have hne : tftpOpcodeData ≠ tftpOpcodeOptionAck := by decide
  cases hst : s.tState with
  | init => simp [accepts, hst, hpkt.opcode, hne] at hacc
  | transfer => simpa [accepts, hst, hpkt.opcode, hpkt.blockNr] using hacc
  | idle | finished | error => simp [accepts, hst] at hacc

theorem TransferInv.started {n : Transfer} (hi : TransferInv F b m₀ pucDst n)
    (hst : n.client.tState = .init) (hq : Started n.client t s') :
    TransferInv F b m₀ pucDst (n.next s' t true n.accepted) := by
  have hzero : n.accepted = 0 := hi.none (hi.init hst)
  refine ⟨hi.stored.keeps hq.keeps, by simp [Transfer.next],
    Transfer.next_acknowledged hi.acknowledged _ _ _ le_rfl, fun _ => ?_, ?_,
    fun _ => ⟨rfl, by simp [Transfer.next, hzero]⟩, ?_⟩
  · simp [Transfer.next, hq.number, hzero]
  · simp [Transfer.next, hq.state]
  · simp [Transfer.next, hq.state]

theorem TransferInv.wanted {n : Transfer} (hi : TransferInv F b m₀ pucDst n) (hs : n.started = true) :
    uiWantedBlockNr n.client = (n.accepted + 1) % 65536 := by
  rw [uiWantedBlockNr, hi.number hs, Nat.and_two_pow_sub_one_eq_mod _ 16]
  omega

theorem TransferInv.advanced {n : Transfer} (hi : TransferInv F b m₀ pucDst n)
    (hst : n.client.tState = .transfer) (hlt : pucDst + F.length < 2 ^ 32)
    (hq : Advanced (block F b (n.accepted + 1)) n.client t s') :
    TransferInv F b m₀ pucDst (n.next s' t n.started (n.accepted + 1)) := by
  obtain ⟨hstarted, hle⟩ := hi.transfer hst
  have hnumber := hi.wanted hstarted
  have hlast : (block F b (n.accepted + 1)).length < n.client.uiBlockSize ↔
      F.length < (n.accepted + 1) * b := by
    rw [hi.stored.blockSize, length_block, Nat.succ_mul]
    omega
  have hstate := hq.state
  refine ⟨hi.stored.advanced hlt hq, fun h => absurd (hstarted.symm.trans h) (by decide),
    Transfer.next_acknowledged hi.acknowledged _ _ _ (Nat.le_succ _), fun _ => hq.number.trans hnumber,
    ?_, ?_, ?_⟩
  · intro hinit
    simp only [Transfer.next, hstate] at hinit
    split at hinit <;> cases hinit
  · intro htransfer
    simp only [Transfer.next, hstate] at htransfer
    split at htransfer
    · cases htransfer
    · rename_i hge
      exact ⟨hstarted, Nat.not_lt.mp (mt hlast.mpr hge)⟩
  · intro hfinished
    simp only [Transfer.next, hstate] at hfinished
    split at hfinished
    · rename_i hless
      exact ⟨hstarted, hlast.mp hless⟩
    · cases hfinished

/-- A packet that is accepted carries the next block: the numbers of the older
ones that are still on their way differ from the wanted one. -/
theorem TransferInv.data_advanced {n : Transfer} (hi : TransferInv F b m₀ pucDst n)
    (hlt : pucDst + F.length < 2 ^ 32) {m : Memory} {pvData siz : Nat}
    (hpkt : IsBlock F b k m pvData siz) (hsent : k ≤ n.acknowledged) (hage : n.accepted < k + 65535)
    (hacc : accepts n.client m pvData siz = true)
    (hr : Runs (tftpRecHandler n.client m pvData siz) t s') :
    n.client.tState = .transfer ∧ uiWantedBlockNr n.client = (n.accepted + 1) % 65536 ∧
      Advanced (block F b (n.accepted + 1)) n.client t s' := by
  obtain ⟨hst, hwanted⟩ := data_transfer hpkt hacc
  obtain ⟨hstarted, hle⟩ := hi.transfer hst
  have hnumber := hi.wanted hstarted
  have hk : k = n.accepted + 1 := by
    have hack := hi.acknowledged
    omega
  subst hk
  have hlen : (F.take (n.accepted * b)).length + (block F b (n.accepted + 1)).length ≤ F.length := by
    rw [← List.length_append, take_block, List.length_take]
    exact Nat.min_le_right _ _
  have hpointer := hi.stored.pointer
  have hloaded := hi.stored.loaded
  exact ⟨hst, hnumber, transfer_advanced hst hacc hpkt.bytes hpkt.size hpkt.inMemory (by omega) (by omega) hr⟩

end FlashApp.Tftp
