import FlashApp.EthDriver

namespace FlashApp.EthBuffers

open Bytes Interaction Trace Lwip EthDriver

def popped : EthEvent → Option (Nat × Nat)
  | ⟨.readFifo _, v⟩ => some (buffer v.ulFifoValue)
  | _ => none

def pushed : EthEvent → Option (Nat × Nat)
  | ⟨.writeFifo _ ulFifoValue, _⟩ => some (buffer ulFifoValue)
  | _ => none

def pops (t : List EthEvent) : List (Nat × Nat) := t.filterMap popped

def pushes (t : List EthEvent) : List (Nat × Nat) := t.filterMap pushed

/-- Buffers are taken from the EMPTY and IND_LO FIFOs of the port only, and go
to its EMPTY and REQ_LO FIFOs only. -/
def RightFifo (port : Option EthPort) : EthEvent → Prop
  | ⟨.readFifo f, _⟩ => ∃ p ∈ port, f = p.fifoEmpty ∨ f = p.fifoIndLo
  | ⟨.writeFifo f _, _⟩ => ∃ p ∈ port, f = p.fifoEmpty ∨ f = p.fifoReqLo
  | _ => True

def GivesBack (pre : List EthEvent) (e : EthEvent) : Prop :=
  ∀ b, pushed e = some b → pushes pre ++ [b] <+: pops pre

/-- Every buffer that is taken is given back once, and no other one. -/
structure Conserved (port : Option EthPort) (t : List EthEvent) : Prop where
  fifos : ∀ e ∈ t, RightFifo port e
  returned : pushes t = pops t
  order : Always GivesBack t

/-- An event that no frame buffer takes part in. -/
def Quiet (e : EthEvent) : Prop := popped e = none ∧ pushed e = none

variable {port : Option EthPort} {p : EthPort} {s t : List EthEvent}

theorem pops_append (s t : List EthEvent) : pops (s ++ t) = pops s ++ pops t :=
  List.filterMap_append

theorem pushes_append (s t : List EthEvent) : pushes (s ++ t) = pushes s ++ pushes t :=
  List.filterMap_append

theorem Conserved.nil : Conserved port [] := ⟨by simp, rfl, always_nil _⟩

theorem Conserved.append (hs : Conserved port s) (ht : Conserved port t) :
    Conserved port (s ++ t) := by
  refine ⟨List.forall_mem_append.mpr ⟨hs.fifos, ht.fifos⟩, ?_, always_append.mpr ⟨hs.order, ?_⟩⟩
  · rw [pushes_append, pops_append, hs.returned, ht.returned]
  · refine ht.order.mono fun pre e he b hb => ?_
    rw [pushes_append, pops_append, hs.returned, List.append_assoc, List.prefix_append_right_inj]
    exact he b hb

theorem rightFifo_of_quiet {e : EthEvent} (he : Quiet e) : RightFifo port e := by
  obtain ⟨c, r⟩ := e
  cases c with
  | readFifo | writeFifo => simp [Quiet, popped, pushed] at he
  | _ => trivial

theorem Conserved.quiet (ht : ∀ e ∈ t, Quiet e) : Conserved port t := by
  refine ⟨fun e he => rightFifo_of_quiet (ht e he), ?_, ?_⟩
  · have hpush : pushes t = [] := List.filterMap_eq_nil_iff.mpr fun e he => (ht e he).2
    have hpop : pops t = [] := List.filterMap_eq_nil_iff.mpr fun e he => (ht e he).1
    rw [hpush, hpop]
  · refine Always.of_forall fun e he pre b hb => ?_
    rw [(ht e he).2] at hb
    cases hb

theorem Conserved.round {f g w : Nat} {v : FifoValue} {q : List EthEvent}
    (hf : f = p.fifoEmpty ∨ f = p.fifoIndLo) (hg : g = p.fifoEmpty ∨ g = p.fifoReqLo)
    (hq : ∀ e ∈ q, Quiet e) (hw : buffer w = buffer v.ulFifoValue) :
    Conserved (some p) (⟨.readFifo f, v⟩ :: q ++ [⟨.writeFifo g w, ()⟩]) := by
  have hpush : pushes q = [] := List.filterMap_eq_nil_iff.mpr fun e he => (hq e he).2
  have hpop : pops q = [] := List.filterMap_eq_nil_iff.mpr fun e he => (hq e he).1
  have hpush' : pushes (⟨.readFifo f, v⟩ :: q) = [] := hpush
  have hpop' : pops (⟨.readFifo f, v⟩ :: q) = [buffer v.ulFifoValue] :=
    congrArg (buffer v.ulFifoValue :: ·) hpop
  refine ⟨?_, ?_, ?_⟩
  · rw [List.forall_mem_append, List.forall_mem_cons, List.forall_mem_singleton]
    exact ⟨⟨⟨p, rfl, hf⟩, fun e he => rightFifo_of_quiet (hq e he)⟩, p, rfl, hg⟩
  · rw [pushes_append, pops_append, hpush', hpop', List.nil_append]
    exact congrArg (· :: []) hw
  · rw [always_append]
    constructor
    · rw [always_cons]
      refine ⟨fun b hb => (by cases hb), Always.of_forall ?_⟩
      intro e he pre b hb
      rw [(hq e he).2] at hb
      cases hb
    · rw [always_cons]
      refine ⟨fun b hb => ?_, always_nil _⟩
      obtain rfl := Option.some.inj hb
      rw [List.append_nil, hpush', hpop', hw]
      exact List.prefix_rfl

theorem frameSize_lt (n : Nat) : frameSize n < 2 ^ 11 := by
  unfold frameSize
  split_ifs <;> omega

/-- The calls of `netif_output` for a frame that is sent in the buffer `v`. -/
abbrev sentEvents (p : EthPort) (n level : Nat) (v : FifoValue) : List EthEvent :=
  [⟨.fillLevel p.fifoEmpty, level⟩, ⟨.readFifo p.fifoEmpty, v⟩,
    ⟨.pbufCopyPartial (convertFifoValueToPacketPointer p.ram v) n, ()⟩,
    ⟨.writeFifo p.fifoReqLo ((convertPacketPointerToFifoValue
      (convertFifoValueToPacketPointer p.ram v) ||| 0x4000) ||| frameSize n <<< 0), ()⟩]

/-- Everything that `netif_output` can do. -/
inductive OutputRun (n : Nat) : Option EthPort → List EthEvent → ErrT → Prop
  | noPort : OutputRun n none [] .val
  | noFrame {p : EthPort} {level : Nat} (h : ¬ level > 1) :
      OutputRun n (some p) [⟨.fillLevel p.fifoEmpty, level⟩] .buf
  | sent {p : EthPort} {level : Nat} (h : level > 1) (v : FifoValue) :
      OutputRun n (some p) (sentEvents p n level v) .ok

theorem netifOutput_cases {n : Nat} {r : ErrT} (h : Runs (netifOutput port n) t r) : OutputRun n port t r := by
  cases port with
  | none =>
    obtain ⟨rfl, rfl⟩ := h
    exact .noPort
  | some p =>
    simp only [netifOutput, drvEthXcGetEmptyPacket, drvEthXcSendPacket, runs_bind, runs_perform] at h
    obtain ⟨frame, _, t₂, rfl, ⟨level, _, t₃, rfl, rfl, h₃⟩, h⟩ := h
    by_cases hlevel : level > 1
    · simp only [hlevel, ↓reduceIte, runs_bind, runs_perform, runs_pure] at h₃
      obtain ⟨v, _, _, rfl, rfl, rfl, rfl⟩ := h₃
      simp only [packetPointer_ne_zero, ↓reduceIte, runs_bind, runs_perform, runs_pure] at h
      obtain ⟨_, _, _, rfl, rfl, _, _, _, rfl, rfl, rfl, rfl⟩ := h
      exact .sent hlevel v
    · simp only [hlevel, ↓reduceIte, runs_pure] at h₃
      obtain ⟨rfl, rfl⟩ := h₃
      obtain ⟨rfl, rfl⟩ := h
      exact .noFrame hlevel

theorem conserved_netifOutput {n : Nat} {r : ErrT} (h : Runs (netifOutput port n) t r) :
    Conserved port t := by
  cases netifOutput_cases h with
  | noPort => exact .nil
  | noFrame => exact .quiet (by simp [Quiet, popped, pushed])
  | @sent p level hlevel v =>
    have hround := Conserved.round (p := p) (v := v)
      (q := [⟨.pbufCopyPartial (convertFifoValueToPacketPointer p.ram v) n, ()⟩]) (.inl rfl)
      (.inr rfl) (by simp [Quiet, popped, pushed]) (buffer_request p.ram v (frameSize_lt n))
    exact .append (s := [_]) (.quiet (by simp [Quiet, popped, pushed])) hround

theorem conserved_netifOutputs {ns : List Nat} (h : Runs (netifOutputs p ns) t ()) :
    Conserved (some p) t := by
  induction ns generalizing t with
  | nil =>
    obtain ⟨rfl, -⟩ := h
    exact .nil
  | cons n ns ih =>
    simp only [netifOutputs, runs_bind] at h
    obtain ⟨r, t₁, t₂, rfl, h₁, h₂⟩ := h
    exact .append (conserved_netifOutput h₁) (ih h₂)

theorem conserved_processFrame {v : FifoValue} {siz : Nat}
    (h : Runs (processFrame p (convertFifoValueToPacketPointer p.ram v) siz) t ()) :
    Conserved (some p) (⟨.readFifo p.fifoIndLo, v⟩ :: t) := by
  simp only [processFrame, drvEthXcReleasePacket, runs_bind, runs_perform] at h
  obtain ⟨ok, _, t₂, rfl, rfl, h⟩ := h
  cases ok with
  | false =>
    obtain rfl := runs_perform.mp h
    exact .round (q := [_]) (.inr rfl) (.inl rfl) (by simp [Quiet, popped, pushed])
      (buffer_roundTrip p.ram v)
  | true =>
    simp only [↓reduceIte, runs_bind, runs_perform, Prod.exists] at h
    obtain ⟨_, _, _, rfl, rfl, _, _, _, rfl, rfl, err, ns, _, _, rfl, rfl, _, t₃, t₄, rfl, h₃, h₄⟩ := h
    have hround := Conserved.round (p := p) (v := v)
      (q := [⟨.pbufAlloc (siz % 2 ^ 16), true⟩,
        ⟨.pbufTake (convertFifoValueToPacketPointer p.ram v) (siz % 2 ^ 16), ()⟩]) (.inr rfl)
      (.inl rfl) (by simp [Quiet, popped, pushed]) (buffer_roundTrip p.ram v)
    have hinput : Conserved (some p) [⟨.input, (err, ns)⟩] :=
      .quiet (by simp [Quiet, popped, pushed])
    have hfree : Conserved (some p) t₄ := by
      split at h₄
      · obtain rfl := runs_perform.mp h₄
        exact .quiet (by simp [Quiet, popped, pushed])
      · obtain ⟨rfl, -⟩ := h₄
        exact .nil
    have hall := ((hround.append hinput).append (conserved_netifOutputs h₃)).append hfree
    simpa only [List.cons_append, List.nil_append, List.append_assoc] using hall

theorem conserved_timeouts
    (h : Runs (do let outputs ← call .sysCheckTimeouts; netifOutputs p outputs) t ()) :
    Conserved (some p) t := by
  simp only [runs_bind, runs_perform] at h
  obtain ⟨ns, _, t₂, rfl, rfl, h⟩ := h
  exact .append (.quiet (by simp [Quiet, popped, pushed])) (conserved_netifOutputs h)

theorem conserved_networkCyclicProcess (h : Runs (networkCyclicProcess port) t ()) :
    Conserved port t := by
  cases port with
  | none =>
    obtain ⟨rfl, -⟩ := h
    exact .nil
  | some p =>
    rw [networkCyclicProcess, runs_bind] at h
    obtain ⟨link, t₁, t₂, rfl, h₁, h⟩ := h
    have hlink : Conserved (some p) t₁ := by
      simp only [drvEthXcGetLinkStatus, runs_bind, runs_perform] at h₁
      obtain ⟨value, _, t₃, rfl, rfl, h₃⟩ := h₁
      have ht₃ : t₃ = [] := by
        split at h₃ <;> exact h₃.1
      rw [ht₃]
      exact .quiet (by simp [Quiet, popped, pushed])
    refine hlink.append ?_
    split at h
    · rw [runs_bind] at h
      obtain ⟨_, _, t₄, rfl, h₃, h₄⟩ := h
      obtain rfl := runs_perform.mp h₃
      exact .append (.quiet (by simp [Quiet, popped, pushed])) (conserved_timeouts h₄)
    · simp only [drvEthXcGetReceivedPacket, runs_bind, runs_perform] at h
      obtain ⟨x, _, t₃, rfl, ⟨level, _, t₄, rfl, rfl, h₄⟩, h⟩ := h
      rw [List.append_assoc]
      refine .append (.quiet (by simp [Quiet, popped, pushed])) ?_
      by_cases hlevel : level ≠ 0
      · simp only [hlevel, ne_eq, not_false_eq_true, ↓reduceIte, runs_bind, runs_perform,
          runs_pure] at h₄
        obtain ⟨v, _, _, rfl, rfl, rfl, rfl⟩ := h₄
        simp only [packetPointer_ne_zero, ne_eq, not_false_eq_true, ↓reduceIte, runs_bind] at h
        obtain ⟨_, t₅, t₆, rfl, h₅, h₆⟩ := h
        have hall := (conserved_processFrame h₅).append (conserved_timeouts (runs_bind.mpr h₆))
        simpa only [List.append_nil, List.cons_append, List.nil_append] using hall
      · simp only [hlevel, ↓reduceIte, runs_pure] at h₄
        obtain ⟨rfl, rfl⟩ := h₄
        exact conserved_timeouts h

theorem conserved_op {op : Op} (h : Runs (op.prog port) t ()) : Conserved port t := by
  cases op with
  | networkCyclicProcess => exact conserved_networkCyclicProcess h
  | netifOutput n =>
    simp only [Op.prog, runs_bind, runs_pure] at h
    obtain ⟨r, t₁, _, rfl, h₁, rfl, -⟩ := h
    rw [List.append_nil]
    exact conserved_netifOutput h₁

/-- Whatever the hardware and the stack do, each call in a sequence of calls
gives back the frame buffers that it has taken. -/
theorem session_conserves {ops : List Op} (h : Runs (session port ops) t ()) :
    ∃ ts, t = ts.flatten ∧
      List.Forall₂ (fun op u => Runs (op.prog port) u () ∧ Conserved port u) ops ts := by
  induction ops generalizing t with
  | nil =>
    obtain ⟨rfl, -⟩ := h
    exact ⟨[], rfl, .nil⟩
  | cons op ops ih =>
    simp only [session, runs_bind] at h
    obtain ⟨_, t₁, t₂, rfl, h₁, h₂⟩ := h
    obtain ⟨ts, rfl, hts⟩ := ih h₂
    exact ⟨t₁ :: ts, rfl, .cons ⟨h₁, conserved_op h₁⟩ hts⟩

/-- A port with frames in its FIFOs: the stack answers a frame and sends a
second one when its timers are checked. -/
def examplePort : EthPort where
  ram := ⟨fun i => 0x05000000 + 0x20000 * i, 0x05000000, by decide, by decide, fun _ => rfl, by decide⟩
  uiXcPort := 1

def exampleOracle : Oracle EthCall EthAnswer
  | _, .linkStatus => 1
  | _, .fillLevel _ => 2
  | _, .readFifo f => if f = 8 then ⟨0x00410000, by decide, by decide⟩ else ⟨0x00fe0040, by decide, by decide⟩
  | _, .pbufAlloc _ => true
  | _, .input => (.ok, [42])
  | _, .sysCheckTimeouts => [1600]
  | _, .writeFifo _ _ | _, .netifSetLinkDown | _, .pbufTake _ _ | _, .pbufCopyPartial _ _
  | _, .pbufFree => ()

theorem session_conserves_example :
    let t := (exec exampleOracle (session (some examplePort) [.networkCyclicProcess, .netifOutput 100]) []).1
    pops t = [(3, 62), (1, 1), (1, 1), (1, 1)] ∧ ∃ ts, t = ts.flatten ∧
      List.Forall₂ (fun op u => Runs (Op.prog (some examplePort) op) u () ∧ Conserved (some examplePort) u)
        [.networkCyclicProcess, .netifOutput 100] ts :=
  ⟨by decide, session_conserves (exec_runs exampleOracle _ [])⟩

end FlashApp.EthBuffers
