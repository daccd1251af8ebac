import FlashApp.EthBuffers

namespace FlashApp.EthFrames

open Bytes Interaction Lwip EthDriver EthBuffers

/-- The variables of `pbuf_copy_partial` and the memory it copies to. -/
structure CopyPartial where
  mem : Memory
  left : Nat
  len : Nat
  offset : Nat
  copiedTotal : Nat

/-- The loop of `pbuf_copy_partial` over the elements of a chain. The pbufs are
in the memory of the application, which holds `contents` and is not written. -/
def copyPartialLoop (contents : Memory) (dataptr : Nat) : List Pbuf → CopyPartial → CopyPartial
  | [], s => s
  | p :: ps, s =>
    if s.len ≠ 0 then
      if s.offset ≠ 0 ∧ s.offset ≥ p.len then
        copyPartialLoop contents dataptr ps { s with offset := s.offset - p.len }
      else
        let bufCopyLen := if p.len - s.offset > s.len then s.len else p.len - s.offset
        copyPartialLoop contents dataptr ps {
          mem := store s.mem (dataptr + s.left) (slice contents (p.payload + s.offset) bufCopyLen)
          copiedTotal := (s.copiedTotal + bufCopyLen) % 2 ^ 16
          left := (s.left + bufCopyLen) % 2 ^ 16
          len := s.len - bufCopyLen
          offset := 0 }
    else
      s

def pbufCopyPartial (contents : Memory) (buf : PbufChain) (mem : Memory) (dataptr len offset : Nat) :
    Memory × Nat :=
  if dataptr = 0 then
    (mem, 0)
  else
    let s := copyPartialLoop contents dataptr buf.elements ⟨mem, 0, len, offset, 0⟩
    (s.mem, s.copiedTotal)

variable {contents : Memory}

theorem payload_cons (p : Pbuf) (ps : List Pbuf) :
    payload contents (p :: ps) = slice contents p.payload p.len ++ payload contents ps := rfl

/-- The first `n` bytes of a chain are those of its first element, and those of
the rest behind them. -/
theorem take_payload_cons (p : Pbuf) (ps : List Pbuf) (n : Nat) :
    (payload contents (p :: ps)).take n =
      slice contents p.payload (min p.len n) ++ (payload contents ps).take (n - min p.len n) := by
  rw [payload_cons, List.take_append, length_slice]
  rcases Nat.le_total n p.len with hle | hle
  · rw [Nat.min_eq_right hle, take_slice contents p.payload hle, Nat.sub_eq_zero_of_le hle, Nat.sub_self]
  · rw [Nat.min_eq_left hle, List.take_of_length_le (by rwa [length_slice])]

theorem copyPartialLoop_mem (dataptr : Nat) (ps : List Pbuf) {s : CopyPartial} (hoff : s.offset = 0)
    (hlen : s.len ≤ size ps) (hleft : s.left + s.len < 2 ^ 16) :
    (copyPartialLoop contents dataptr ps s).mem =
      store s.mem (dataptr + s.left) ((payload contents ps).take s.len) := by
  induction ps generalizing s with
  | nil =>
    rw [size_nil, Nat.le_zero] at hlen
    rw [hlen, List.take_zero, store_nil]
    rfl
  | cons p ps ih =>
    rw [size_cons] at hlen
    by_cases hzero : s.len = 0
    · rw [hzero, List.take_zero, store_nil]
      simp [copyPartialLoop, hzero]
    · generalize hk : (if p.len - 0 > s.len then s.len else p.len - 0) = k
      have hk' : k = min p.len s.len := by
        rw [← hk]
        split <;> omega
      have hmod : (s.left + k) % 2 ^ 16 = s.left + k := Nat.mod_eq_of_lt (by omega)
      have hloop : copyPartialLoop contents dataptr (p :: ps) s = copyPartialLoop contents dataptr ps {
          mem := store s.mem (dataptr + s.left) (slice contents p.payload k)
          copiedTotal := (s.copiedTotal + k) % 2 ^ 16
          left := s.left + k
          len := s.len - k
          offset := 0 } := by
        rw [copyPartialLoop, if_pos hzero, if_neg (by simp [hoff])]
        simp only [hoff, hk, hmod, Nat.add_zero]
      rw [hloop, ih rfl (by simp only; omega) (by simp only; omega)]
      -- the rest of the chain goes behind the part of this element
      have hfirst : (payload contents (p :: ps)).take s.len =
          slice contents p.payload k ++ (payload contents ps).take (s.len - k) := by
        rw [hk', take_payload_cons]
      have hnext : dataptr + (s.left + k) = dataptr + s.left + (slice contents p.payload k).length := by
        rw [length_slice, Nat.add_assoc]
      simp only
      rw [hfirst, hnext, store_append]

theorem totLen_le (p : PbufChain) : p.totLen ≤ size p.elements := Nat.mod_le _ _

theorem totLen_lt (p : PbufChain) : p.totLen < 2 ^ 16 := Nat.mod_lt _ (by decide)

theorem pbufCopyPartial_mem (p : PbufChain) (mem : Memory) {dataptr : Nat} (hptr : dataptr ≠ 0) :
    (pbufCopyPartial contents p mem dataptr p.totLen 0).1 =
      store mem dataptr ((payload contents p.elements).take p.totLen) := by
  have hlen := totLen_lt p
  rw [pbufCopyPartial, if_neg hptr]
  exact copyPartialLoop_mem dataptr p.elements rfl (totLen_le p) (by simpa using hlen)

def framePointer (ram : IntRam) (ulFifoValue : Nat) : Nat :=
  ram.base + 0x20000 * ramSegment ulFifoValue + 1560 * frameNr ulFifoValue

/-- The frames queued for transmission. The memory with the frame buffers has
the contents `mem` at first. -/
def queuedFrames (port : EthPort) (contents : Memory) (p : PbufChain) : Memory → List EthEvent → List (List UInt8)
  | _, [] => []
  | mem, ⟨.pbufCopyPartial pvFrame totLen, _⟩ :: t =>
    queuedFrames port contents p (pbufCopyPartial contents p mem pvFrame totLen 0).1 t
  | mem, ⟨.writeFifo uiFifoNr ulFifoValue, _⟩ :: t =>
    if uiFifoNr = port.fifoReqLo then
      slice mem (framePointer port.ram ulFifoValue) (frameLen ulFifoValue) :: queuedFrames port contents p mem t
    else
      queuedFrames port contents p mem t
  | mem, _ :: t => queuedFrames port contents p mem t

theorem frame_request (ram : IntRam) (v : FifoValue) (siz : Nat) :
    framePointer ram ((convertPacketPointerToFifoValue (convertFifoValueToPacketPointer ram v) ||| 0x4000) |||
      frameSize siz <<< 0) = convertFifoValueToPacketPointer ram v := by
  obtain ⟨hseg, hnr⟩ := Prod.mk.inj (buffer_request ram v (frameSize_lt siz))
  rw [framePointer, hseg, hnr, packetPointer_eq]

/-- What is copied determines the first `k` bytes exactly if there are not less
of it. -/
theorem slice_store_eq_iff (a : Nat) (bs : List UInt8) (k : Nat) :
    (∀ m₁ m₂ : Memory, slice (store m₁ a bs) a k = slice (store m₂ a bs) a k) ↔ k ≤ bs.length := by
  constructor
  · intro h
    by_contra hlt
    have hbyte : ∀ m : Memory, (slice (store m a bs) a k)[bs.length]? = some (m (a + bs.length)) := by
      intro m
      rw [getElem?_slice _ _ _ _ (by omega), store_out m (.inr le_rfl)]
    have hsame := congrArg (fun l => l[bs.length]?) (h (fun _ => 0) (fun _ => 1))
    simp only [hbyte] at hsame
    exact absurd hsame (by decide)
  · intro hle m₁ m₂
    have hcopy : ∀ m : Memory, slice (store m a bs) a k = bs.take k := by
      intro m
      have hstore : slice (store m a bs) a bs.length = bs := holds_store m a bs
      rw [← take_slice _ a hle, hstore]
    rw [hcopy, hcopy]

theorem frameSize_le_iff (n : Nat) : frameSize n ≤ n ↔ 60 ≤ n := by
  unfold frameSize
  split_ifs <;> omega

/-- The queued frames do not depend on what the frame buffers have held
before. -/
def OnlyChain (port : EthPort) (contents : Memory) (p : PbufChain) (t : List EthEvent) : Prop :=
  ∀ mem₁ mem₂, queuedFrames port contents p mem₁ t = queuedFrames port contents p mem₂ t

theorem onlyChain_sent_iff (q : EthPort) (contents : Memory) (p : PbufChain) (level : Nat) (v : FifoValue) :
    OnlyChain q contents p (sentEvents q p.totLen level v) ↔ 60 ≤ p.totLen := by
  have hlen : ((payload contents p.elements).take p.totLen).length = p.totLen := by
    rw [List.length_take, length_payload, Nat.min_eq_left (totLen_le p)]
  have hframe : ∀ mem, queuedFrames q contents p mem (sentEvents q p.totLen level v) =
      [slice (store mem (convertFifoValueToPacketPointer q.ram v) ((payload contents p.elements).take p.totLen))
        (convertFifoValueToPacketPointer q.ram v) (frameSize p.totLen)] := by
    intro mem
    simp only [queuedFrames, ↓reduceIte]
    rw [frame_request, frameLen_request _ _ (frameSize_lt _), pbufCopyPartial_mem p mem (packetPointer_ne_zero _ v)]
  have honly := slice_store_eq_iff (convertFifoValueToPacketPointer q.ram v)
    ((payload contents p.elements).take p.totLen) (frameSize p.totLen)
  rw [hlen, frameSize_le_iff] at honly
  rw [← honly]
  unfold OnlyChain
  simp only [hframe, List.singleton_inj]

/-- Chains of at least 60 bytes are sent without anything else. A shorter one is
sent together with old bytes of the buffer, unless there is no buffer for it. -/
theorem onlyChain_iff {port : Option EthPort} (contents : Memory) (p : PbufChain) {t : List EthEvent} {r : ErrT}
    (hr : Runs (netifOutput port p.totLen) t r) :
    (∀ q ∈ port, OnlyChain q contents p t) ↔
      ∀ q ∈ port, ∀ level : Nat, ⟨.fillLevel q.fifoEmpty, level⟩ ∈ t → level > 1 → 60 ≤ p.totLen := by
  cases netifOutput_cases hr with
  | noPort => simp
  | @noFrame q level h =>
    refine iff_of_true ?_ ?_
    · rintro q' hq mem₁ mem₂
      rfl
    · rintro q' hq level' hmem hgt
      obtain rfl := Option.some.inj hq
      cases List.mem_singleton.mp hmem
      exact absurd hgt h
  | @sent q level h v =>
    simp only [Option.mem_def, Option.some.injEq, forall_eq']
    rw [onlyChain_sent_iff]
    constructor
    · exact fun hlong _ _ _ => hlong
    · exact fun hlong => hlong level (by simp) h

theorem exampleChain_fits {len : Nat} (hlen : len < 2 ^ 16) : 0x04080000 + len + 8 ≤ 2 ^ 32 := by omega

def exampleChain (len : Nat) (hlen : len < 2 ^ 16) : PbufChain :=
  ⟨⟨0x04080000, len, hlen, exampleChain_fits hlen⟩, []⟩

theorem onlyChain_iff_exampleChain :
    OnlyChain examplePort (fun a => UInt8.ofNat a) (exampleChain 100 (by decide))
      (exec exampleOracle (netifOutput (some examplePort) 100) []).1 := by
  have hiff := onlyChain_iff (fun a => UInt8.ofNat a) (exampleChain 100 (by decide))
    (exec_runs exampleOracle (netifOutput (some examplePort) 100) [])
  exact hiff.mpr (fun _ _ _ _ _ => by decide) examplePort rfl

/-- An ARP request of 42 bytes takes 18 bytes of the buffer along. -/
theorem short_frame_leaks :
    ¬ ∀ (port : Option EthPort) (contents : Memory) (p : PbufChain) (t : List EthEvent) (r : ErrT),
      Runs (netifOutput port p.totLen) t r → ∀ q ∈ port, OnlyChain q contents p t := by
  intro h
  have hrun := exec_runs exampleOracle (netifOutput (some examplePort) 42) []
  have honly := h (some examplePort) (fun a => UInt8.ofNat a) (exampleChain 42 (by decide)) _ _ hrun examplePort rfl
  exact absurd ((onlyChain_sent_iff _ _ _ 2 ⟨0x00410000, by decide, by decide⟩).mp honly) (by decide)

end FlashApp.EthFrames
