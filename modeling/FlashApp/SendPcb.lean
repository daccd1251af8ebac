import FlashApp.SendRuns

namespace FlashApp.SendPcb

open Interaction Trace Lwip SendMessage SendRuns

/-- What lwIP holds for the connection: whether the callback data and the sent
callback are set, the bytes of the message queued with `tcp_write` and the
bytes acknowledged. Nothing is copied, so queued bytes that are not yet
acknowledged are references to the message. -/
structure Pcb where
  arg : Bool
  sent : Bool
  queued : Nat
  acked : Nat

def afterEvent : Option Pcb → StackEvent → Option Pcb
  | some p, .acked usLen => some { p with acked := p.acked + usLen }
  | _, .freed => none
  | s, _ => s

/-- The pcb after a call; `none` if there is none or it was freed. -/
def stackStep (s : Option Pcb) : TcpEvent → Option Pcb
  | ⟨.tcpNew, true⟩ => some ⟨false, false, 0, 0⟩
  | ⟨.tcpArg, _⟩ => s.map fun p => { p with arg := true }
  | ⟨.tcpSent, _⟩ => s.map fun p => { p with sent := true }
  | ⟨.tcpWrite _ usChunk _, .ok⟩ => s.map fun p => { p with queued := p.queued + usChunk }
  | ⟨.networkCyclicProcess, es⟩ => es.foldl afterEvent s
  | ⟨.tcpClose, (.ok, false)⟩ => none
  | ⟨.tcpAbort, _⟩ => none
  | _ => s

def stack (t : List TcpEvent) : Option Pcb := t.foldl stackStep none

def UsesPcb : TcpCall → Prop
  | .tcpArg | .tcpSent | .tcpConnect | .tcpSndbuf | .tcpWrite _ _ _ | .tcpOutput | .tcpClose
  | .tcpAbort => True
  | _ => False

def Live (pre : List TcpEvent) (e : TcpEvent) : Prop := UsesPcb e.1 → stack pre ≠ none

def Frees : TcpEvent → Prop
  | ⟨.networkCyclicProcess, es⟩ => .freed ∈ es
  | _ => False

/-- `sendMessage` gives the pcb away. -/
def isRelease : TcpEvent → Bool
  | ⟨.tcpClose, (.ok, _)⟩ | ⟨.tcpAbort, _⟩ => true
  | _ => false

/-- The pcb is never used after it was freed, and after the return of
`sendMessage` it was freed by the stack or closed or aborted once. -/
structure PcbSafe (t : List TcpEvent) (r : Option Int) : Prop where
  live : Always Live t
  released : r ≠ none → ⟨.tcpNew, true⟩ ∈ t →
    (∃ e ∈ t, Frees e) ∨ (t.filter isRelease).length = 1

/-- There is no pcb at all, or lwIP starts to connect it and never frees it
while the network is polled. -/
def Undisturbed (t : List TcpEvent) : Prop :=
  ⟨.tcpNew, false⟩ ∈ t ∨ (⟨.tcpConnect, .ok⟩ ∈ t ∧ ∀ e ∈ t, ¬ Frees e)

def ackedEvent : StackEvent → Nat
  | .acked usLen => usLen
  | _ => 0

def ackedOf : TcpEvent → Nat
  | ⟨.networkCyclicProcess, es⟩ => (es.map ackedEvent).sum
  | _ => 0

def queuedOf : TcpEvent → Nat
  | ⟨.tcpWrite _ usChunk _, .ok⟩ => usChunk
  | _ => 0

def acked (t : List TcpEvent) : Nat := (t.map ackedOf).sum

def queued (t : List TcpEvent) : Nat := (t.map queuedOf).sum

theorem acked_append (s t : List TcpEvent) : acked (s ++ t) = acked s + acked t := by
  simp [acked]

theorem queued_append (s t : List TcpEvent) : queued (s ++ t) = queued s + queued t := by
  simp [queued]

theorem acked_cons (e : TcpEvent) (t : List TcpEvent) : acked (e :: t) = ackedOf e + acked t := rfl

theorem queued_cons (e : TcpEvent) (t : List TcpEvent) : queued (e :: t) = queuedOf e + queued t := rfl

theorem stack_append (s t : List TcpEvent) : stack (s ++ t) = t.foldl stackStep (stack s) :=
  List.foldl_append

theorem foldl_afterEvent_none (es : List StackEvent) : es.foldl afterEvent none = none := by
  induction es with
  | nil => rfl
  | cons e es ih => cases e <;> exact ih

theorem foldl_afterEvent_freed {es : List StackEvent} (h : .freed ∈ es) (s : Option Pcb) :
    es.foldl afterEvent s = none := by
  induction es generalizing s with
  | nil => simp at h
  | cons e es ih =>
    by_cases he : .freed ∈ es
    · exact ih he _
    · obtain rfl : StackEvent.freed = e := by simpa [he] using h
      have hnone : afterEvent s .freed = none := by cases s <;> rfl
      rw [List.foldl_cons, hnone, foldl_afterEvent_none]

theorem foldl_afterEvent_some {es : List StackEvent} (h : .freed ∉ es) (p : Pcb) :
    es.foldl afterEvent (some p) = some { p with acked := p.acked + (es.map ackedEvent).sum } := by
  induction es generalizing p with
  | nil => rfl
  | cons e es ih =>
    rw [List.mem_cons, not_or] at h
    cases e with
    | freed => exact absurd rfl h.1
    | connected =>
      rw [List.foldl_cons, List.map_cons, List.sum_cons]
      simpa [ackedEvent, afterEvent] using ih h.2 p
    | acked n =>
      rw [List.foldl_cons, List.map_cons, List.sum_cons, ← Nat.add_assoc]
      exact ih h.2 _

section Phase

variable {u : List TcpEvent} {e : TcpEvent}

theorem stackStep_none (he : Phase e.1) : stackStep none e = none := by
  obtain ⟨c, r⟩ := e
  cases c with
  | networkCyclicProcess => exact foldl_afterEvent_none r
  | tcpWrite => cases r <;> rfl
  | timerStart | timerIsElapsed | tcpSndbuf | tcpOutput => rfl
  | tcpNew | tcpArg | tcpSent | tcpConnect | tcpClose | tcpAbort => exact he.elim

theorem stackStep_freed (he : Frees e) (s : Option Pcb) : stackStep s e = none := by
  obtain ⟨c, r⟩ := e
  cases c with
  | networkCyclicProcess => exact foldl_afterEvent_freed he s
  | _ => exact he.elim

theorem stackStep_some (he : Phase e.1) (hf : ¬ Frees e) (p : Pcb) :
    stackStep (some p) e =
      some { p with queued := p.queued + queuedOf e, acked := p.acked + ackedOf e } := by
  obtain ⟨c, r⟩ := e
  cases c with
  | networkCyclicProcess => exact foldl_afterEvent_some hf p
  | tcpWrite => cases r <;> rfl
  | timerStart | timerIsElapsed | tcpSndbuf | tcpOutput => rfl
  | tcpNew | tcpArg | tcpSent | tcpConnect | tcpClose | tcpAbort => exact he.elim

theorem foldl_none (hu : ∀ e ∈ u, Phase e.1) : u.foldl stackStep none = none := by
  induction u with
  | nil => rfl
  | cons e u ih =>
    rw [List.forall_mem_cons] at hu
    rw [List.foldl_cons, stackStep_none hu.1, ih hu.2]

theorem foldl_freed (hu : ∀ e ∈ u, Phase e.1) (hf : ∃ e ∈ u, Frees e) (s : Option Pcb) :
    u.foldl stackStep s = none := by
  obtain ⟨e, he, hf⟩ := hf
  obtain ⟨v, w, rfl⟩ := List.append_of_mem he
  rw [List.foldl_append, List.foldl_cons, stackStep_freed hf]
  exact foldl_none fun x hx => hu x (by simp [hx])

theorem foldl_some (hu : ∀ e ∈ u, Phase e.1) (hf : ∀ e ∈ u, ¬ Frees e) (p : Pcb) :
    u.foldl stackStep (some p) =
      some { p with queued := p.queued + queued u, acked := p.acked + acked u } := by
  induction u generalizing p with
  | nil => rfl
  | cons e u ih =>
    rw [List.forall_mem_cons] at hu hf
    rw [List.foldl_cons, stackStep_some hu.1 hf.1, ih hu.2 hf.2, queued_cons, acked_cons,
      ← Nat.add_assoc, ← Nat.add_assoc]

theorem stack_header (hu : ∀ e ∈ u, Phase e.1) (hf : ∀ e ∈ u, ¬ Frees e) :
    stack (header .ok ++ u) = some ⟨true, true, queued u, acked u⟩ := by
  rw [stack_append, show stack (header .ok) = some ⟨true, true, 0, 0⟩ from rfl,
    foldl_some hu hf, Nat.zero_add, Nat.zero_add]

theorem stack_header_freed (hu : ∀ e ∈ u, Phase e.1) (hf : ∃ e ∈ u, Frees e) :
    stack (header .ok ++ u) = none := by
  rw [stack_append, foldl_freed hu hf]

theorem always_header (r : ErrT) : Always Live (header r) := by
  simp only [header, always_cons, always_nil, Live]
  refine ⟨fun h => h.elim, fun _ => ?_, fun _ => ?_, fun _ => ?_, trivial⟩ <;> exact Option.some_ne_none _

theorem always_phase (hu : ∀ e ∈ u, Phase e.1) (hf : ∀ e ∈ u, ¬ Frees e) :
    Always Live (header .ok ++ u) := by
  rw [always_append]
  refine ⟨always_header .ok, ?_⟩
  rintro pre e post rfl -
  rw [stack_header (fun x hx => hu x (by simp [hx])) (fun x hx => hf x (by simp [hx]))]
  exact Option.some_ne_none _

theorem filter_phase (hu : ∀ e ∈ u, Phase e.1) : u.filter isRelease = [] := by
  rw [List.filter_eq_nil_iff]
  intro e he
  have hp := hu e he
  obtain ⟨c, r⟩ := e
  cases c with
  | tcpClose | tcpAbort => exact hp.elim
  | _ => exact Bool.false_ne_true

def Ending : TcpCall → Prop
  | .tcpClose | .tcpAbort => True
  | _ => False

theorem undisturbed_iff {v : List TcpEvent} (hu : ∀ e ∈ u, Phase e.1) (hv : ∀ e ∈ v, Ending e.1) :
    Undisturbed (header .ok ++ u ++ v) ↔ ∀ e ∈ u, ¬ Frees e := by
  constructor
  · rintro (hmem | ⟨-, hf⟩)
    · simp only [List.mem_append, List.mem_cons, List.not_mem_nil, or_false] at hmem
      obtain (hmem | hmem) | hmem := hmem
      · obtain hmem | hmem | hmem | hmem := hmem <;> cases hmem
      · exact (hu _ hmem).elim
      · exact (hv _ hmem).elim
    · exact fun e he => hf e (by simp [he])
  · intro hf
    refine .inr ⟨by simp, ?_⟩
    rw [List.forall_mem_append, List.forall_mem_append]
    refine ⟨⟨by simp [Frees], hf⟩, ?_⟩
    rintro ⟨c, r⟩ he
    have hend := hv _ he
    cases c with
    | networkCyclicProcess => exact hend.elim
    | _ => exact id

theorem not_frees_of_live {r : ErrT × Bool} {v : List TcpEvent} (hu : ∀ e ∈ u, Phase e.1)
    (hl : Always Live (header .ok ++ u ++ ⟨.tcpClose, r⟩ :: v)) : ∀ e ∈ u, ¬ Frees e := by
  intro e he hf
  rw [always_append, always_cons, List.append_nil] at hl
  exact hl.2.1 trivial (stack_header_freed hu ⟨e, he, hf⟩)

theorem pcbSafe_closed {k : Bool} {r : Option Int} (hu : ∀ e ∈ u, Phase e.1)
    (hf : ∀ e ∈ u, ¬ Frees e) : PcbSafe (header .ok ++ u ++ [⟨.tcpClose, (.ok, k)⟩]) r := by
  have hs := stack_header hu hf
  refine ⟨?_, fun _ _ => .inr ?_⟩
  · rw [always_append, always_cons, List.append_nil]
    refine ⟨always_phase hu hf, fun _ => ?_, always_nil _⟩
    rw [hs]
    exact Option.some_ne_none _
  · rw [List.filter_append, List.filter_append, filter_phase hu]
    rfl

theorem pcbSafe_aborted {e : ErrT} {k : Bool} {r : Option Int} (he : e ≠ .ok)
    (hu : ∀ e ∈ u, Phase e.1) (hf : ∀ e ∈ u, ¬ Frees e) :
    PcbSafe (header .ok ++ u ++ [⟨.tcpClose, (e, k)⟩, ⟨.tcpAbort, ()⟩]) r := by
  have hs := stack_header hu hf
  have hclose : stack (header .ok ++ u ++ [⟨.tcpClose, (e, k)⟩]) = stack (header .ok ++ u) := by
    rw [stack_append (header .ok ++ u)]
    cases e with
    | ok => exact absurd rfl he
    | _ => rfl
  refine ⟨?_, fun _ _ => .inr ?_⟩
  · rw [always_append, always_cons, always_cons, List.append_nil]
    refine ⟨always_phase hu hf, fun _ => ?_, fun _ => ?_, always_nil _⟩
    · rw [hs]
      exact Option.some_ne_none _
    · rw [hclose, hs]
      exact Option.some_ne_none _
  · rw [List.filter_append, List.filter_append, filter_phase hu]
    cases e with
    | ok => exact absurd rfl he
    | _ => rfl

end Phase

/-- `sendMessage` handles its pcb safely if nothing disturbs the connection,
and a run that returns does so in no other case: a pcb that cannot be
connected is lost, and one that lwIP frees in a poll is still closed. -/
theorem pcbSafe_of_run {msg : Message} {n : Nat} {t : List TcpEvent} {r : Option Int}
    (h : Runs (sendMessage msg n) t r) :
    (Undisturbed t → PcbSafe t r) ∧ (r ≠ none → PcbSafe t r → Undisturbed t) := by
  cases sendMessage_cases h with
  | noPcb =>
    refine ⟨fun _ => ⟨?_, by simp⟩, fun _ _ => .inl (by simp)⟩
    rw [always_cons]
    exact ⟨fun h => h.elim, always_nil _⟩
  | @noConnect e he =>
    constructor
    · rintro (hmem | ⟨hmem, -⟩)
      · simp at hmem
      · simp [he.symm] at hmem
    · intro _ hsafe
      obtain ⟨x, hx, hf⟩ | hlen := hsafe.released (by simp) (by simp)
      · simp only [List.mem_cons, List.not_mem_nil, or_false] at hx
        obtain rfl | rfl | rfl | rfl := hx <;> exact hf.elim
      · simp [isRelease] at hlen
  | unfinished hu =>
    have hp := (calls_exchange msg n).forall_mem hu
    refine ⟨fun hund => ⟨?_, by simp⟩, by simp⟩
    refine always_phase hp ((undisturbed_iff (v := []) hp (by simp)).mp ?_)
    rwa [List.append_nil]
  | closed hu k =>
    have hp := (calls_exchange msg n).forall_mem hu
    rw [undisturbed_iff hp (by simp [Ending])]
    exact ⟨pcbSafe_closed hp, fun _ hsafe => not_frees_of_live hp hsafe.live⟩
  | aborted hu he k =>
    have hp := (calls_exchange msg n).forall_mem hu
    rw [undisturbed_iff hp (by simp [Ending])]
    exact ⟨pcbSafe_aborted he hp, fun _ hsafe => not_frees_of_live hp hsafe.live⟩

/-- A stack whose polls bring the given events. The timer elapses at its
`n`-th query. -/
def exampleStack (n : Nat) (events : List (List StackEvent)) : Oracle TcpCall TcpAnswer
  | _, .tcpNew => true
  | h, .timerIsElapsed => n ≤ h.countP fun e => e.1 = .timerIsElapsed
  | h, .networkCyclicProcess => (events[h.countP fun e => e.1 = .networkCyclicProcess]?).getD []
  | _, .tcpConnect | _, .tcpWrite _ _ _ | _, .tcpOutput => .ok
  | _, .tcpSndbuf => 2048
  | _, .tcpClose => (.ok, true)
  | _, .tcpArg | _, .tcpSent | _, .timerStart _ | _, .tcpAbort => ()

def exampleMessage : Message := ⟨0x04080000, 10, by decide⟩

theorem pcbSafe_of_run_exampleMessage :
    let run := exec (exampleStack 9 [[.connected .ok], [.acked 10]]) (sendMessage exampleMessage 3) []
    run.2 = some 0 ∧ (Undisturbed run.1 → PcbSafe run.1 run.2) ∧
      (run.2 ≠ none → PcbSafe run.1 run.2 → Undisturbed run.1) :=
  ⟨by decide, pcbSafe_of_run (exec_runs _ _ [])⟩

/-- The peer refuses the connection: lwIP frees the pcb, and `sendMessage`
closes it after its timeout. -/
theorem not_pcbSafe_of_refused :
    ¬ ∀ t r, Runs (sendMessage exampleMessage 3) t r → PcbSafe t r := by
  intro h
  have hl := (h _ _ (exec_runs (exampleStack 0 [[.freed]]) _ [])).live
  have hf := not_frees_of_live (u := [⟨.timerStart 5000, ()⟩,
    ⟨.networkCyclicProcess, [.freed]⟩, ⟨.timerIsElapsed, true⟩]) (by simp [Phase]) hl
  exact hf ⟨.networkCyclicProcess, [.freed]⟩ (by simp) (List.mem_singleton_self _)

end FlashApp.SendPcb
