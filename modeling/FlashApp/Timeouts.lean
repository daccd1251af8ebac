import FlashApp.LwipMem
import FlashApp.Machine
import Mathlib.Data.List.Nodup

namespace FlashApp.Timeouts

open Bytes LwipMem Machine

def lwipMaxTimeout : Nat := 0x7fffffff

def timeLessThan (t compareTo : Nat) : Bool := sub32 t compareTo > lwipMaxTimeout

/-- The cyclic timers that `sys_timeouts_init` starts. -/
inductive Cyclic where
  | ipReassTmr
  | etharpTmr
  deriving DecidableEq

def Cyclic.intervalMs : Cyclic → Nat
  | ipReassTmr => 1000
  | etharpTmr => 1000

def tcpTmrInterval : Nat := 250

/-- A handler with its argument. -/
inductive Work where
  | tcpipTcpTimer
  | lwipCyclicTimer (cyclic : Cyclic)
  deriving DecidableEq

/-- The field `due` is not in the program: it is the time of an unbounded clock
for which the timeout has been set. -/
structure SysTimeo where
  time : Nat
  work : Work
  due : Nat
  deriving DecidableEq

/-- One element for each of the TCP timer, the reassembly and the ARP timer. -/
def mempNumSysTimeout : Nat := 3

/-- The milliseconds since the start are counted without a bound in `clock`.
While `sys_check_timeouts` runs, `checking` is the clock at its start, and
`handler` is the timeout that it has called. The field `pcbs` says whether there
are active or waiting PCBs. -/
structure State where
  clock : Nat
  nextTimeout : List SysTimeo
  currentTimeoutDueTime : Nat
  tcpipTcpTimerActive : Bool
  pcbs : Bool
  checking : Option Nat
  handler : Option SysTimeo

def sysNow (clock : Nat) : Nat := clock % 2 ^ 32

/-- The loop goes on to the first element that is later. -/
def insert (timeout : SysTimeo) : List SysTimeo → List SysTimeo
  | [] => [timeout]
  | t :: ts => if timeLessThan timeout.time t.time then timeout :: t :: ts else t :: insert timeout ts

def sysTimeoutAbs (s : State) (absTime : Nat) (work : Work) (due : Nat) : Outcome State := do
  lwipAssert "sys_timeout: timeout != NULL, pool MEMP_SYS_TIMEOUT is empty"
    (s.nextTimeout.length < mempNumSysTimeout)
  pure { s with nextTimeout := insert ⟨absTime, work, due⟩ s.nextTimeout }

def sysTimeout (s : State) (msecs : Nat) (work : Work) : Outcome State := do
  lwipAssert "Timeout time too long, max is LWIP_UINT32_MAX/4 msecs" (msecs ≤ 0xffffffff / 4)
  sysTimeoutAbs s (add32 (sysNow s.clock) msecs) work (s.clock + msecs)

/-- The rest of `tcpip_tcp_timer`, after the call of `tcp_tmr`. -/
def tcpipTcpTimer (s : State) : Outcome State :=
  if s.pcbs then sysTimeout s tcpTmrInterval .tcpipTcpTimer
  else pure { s with tcpipTcpTimerActive := false }

def tcpTimerNeeded (s : State) : Outcome State :=
  if !s.tcpipTcpTimerActive && s.pcbs then
    sysTimeout { s with tcpipTcpTimerActive := true } tcpTmrInterval .tcpipTcpTimer
  else pure s

/-- The timer is started again too late for its next turn. -/
def overload (s : State) (cyclic : Cyclic) : Bool :=
  timeLessThan (add32 s.currentTimeoutDueTime cyclic.intervalMs) (sysNow s.clock)

/-- The rest of `lwip_cyclic_timer`, after the call of the handler; `due` is
what the timeout has been set for. -/
def lwipCyclicTimer (s : State) (cyclic : Cyclic) (due : Nat) : Outcome State :=
  if overload s cyclic then
    sysTimeoutAbs s (add32 (sysNow s.clock) cyclic.intervalMs) (.lwipCyclicTimer cyclic)
      (s.clock + cyclic.intervalMs)
  else
    sysTimeoutAbs s (add32 s.currentTimeoutDueTime cyclic.intervalMs) (.lwipCyclicTimer cyclic)
      (due + cyclic.intervalMs)

def sysTimeoutsInit (s : State) : Outcome State := do
  let s ← sysTimeout s Cyclic.ipReassTmr.intervalMs (.lwipCyclicTimer .ipReassTmr)
  sysTimeout s Cyclic.etharpTmr.intervalMs (.lwipCyclicTimer .etharpTmr)

def finish (s : State) (t : SysTimeo) : Outcome State :=
  match t.work with
  | .tcpipTcpTimer => tcpipTcpTimer s
  | .lwipCyclicTimer cyclic => lwipCyclicTimer s cyclic t.due

def late (s : State) (t : SysTimeo) : Bool :=
  match t.work with
  | .tcpipTcpTimer => false
  | .lwipCyclicTimer cyclic => overload s cyclic

inductive Event where
  | tick (msecs : Nat)
  | pcbs (b : Bool)
  | tcpTimerNeeded
  | checkBegin
  | call (t : SysTimeo)
  | finish (t : SysTimeo) (late : Bool)
  | checkEnd

/-- The timeouts in the list, and the one that has been called. -/
def State.timeouts (s : State) : List SysTimeo := s.handler.toList ++ s.nextTimeout

/-- The program comes round in time: no timeout is overdue by more than twelve
days, and `sys_check_timeouts` does not take longer. -/
def InTime (s : State) (clock : Nat) : Prop :=
  (∀ t ∈ s.timeouts, clock ≤ t.due + 2 ^ 30) ∧ ∀ b ∈ s.checking, clock ≤ b + 2 ^ 30

inductive Step : State → Event → State → Prop
  | tick {s : State} {n : Nat} (h : InTime s (s.clock + n)) : Step s (.tick n) { s with clock := s.clock + n }
  | pcbs {s : State} {b : Bool} : Step s (.pcbs b) { s with pcbs := b }
  | tcpTimerNeeded {s s' : State} (h : tcpTimerNeeded s = .done s') : Step s .tcpTimerNeeded s'
  | checkBegin {s : State} (h : s.checking = none) : Step s .checkBegin { s with checking := some s.clock }
  | call {s : State} {t : SysTimeo} {ts : List SysTimeo} {b : Nat} (hb : s.checking = some b)
      (hh : s.handler = none) (hn : s.nextTimeout = t :: ts) (ht : timeLessThan (sysNow b) t.time = false) :
      Step s (.call t) { s with nextTimeout := ts, currentTimeoutDueTime := t.time, handler := some t }
  | finish {s s' : State} {t : SysTimeo} (hh : s.handler = some t)
      (h : finish { s with handler := none } t = .done s') : Step s (.finish t (late s t)) s'
  | checkEnd {s : State} {b : Nat} (hb : s.checking = some b) (hh : s.handler = none)
      (hn : ∀ t ∈ s.nextTimeout.head?, timeLessThan (sysNow b) t.time = true) :
      Step s .checkEnd { s with checking := none }

def Start (clock : Nat) (s : State) : Prop :=
  sysTimeoutsInit ⟨clock, [], 0, false, false, none, none⟩ = .done s

/-- Around the same time the counter of 32 bits orders like the clock. -/
theorem timeLessThan_iff {a b : Nat} (h1 : a < b + 2 ^ 31) (h2 : b ≤ a + 2 ^ 31) :
    timeLessThan (a % 2 ^ 32) (b % 2 ^ 32) = true ↔ a < b := by
  unfold timeLessThan sub32 lwipMaxTimeout
  rw [decide_eq_true_iff]
  omega

theorem insert_perm (timeout : SysTimeo) (ts : List SysTimeo) : (insert timeout ts).Perm (timeout :: ts) := by
  induction ts with
  | nil => exact List.Perm.refl _
  | cons t ts ih =>
    rw [insert]
    split
    · exact List.Perm.refl _
    · exact (ih.cons t).trans (List.Perm.swap timeout t ts)

theorem insert_sorted {timeout : SysTimeo} {ts : List SysTimeo} (hts : ts.Pairwise fun t u => t.due ≤ u.due)
    (ht : timeout.time = timeout.due % 2 ^ 32) (htimes : ∀ t ∈ ts, t.time = t.due % 2 ^ 32)
    (hnear : ∀ t ∈ ts, timeout.due < t.due + 2 ^ 31 ∧ t.due ≤ timeout.due + 2 ^ 31) :
    (insert timeout ts).Pairwise fun t u => t.due ≤ u.due := by
  induction ts with
  | nil => exact List.pairwise_singleton _ _
  | cons t ts ih =>
    obtain ⟨hhead, htail⟩ := List.pairwise_cons.mp hts
    obtain ⟨hn1, hn2⟩ := hnear t List.mem_cons_self
    have hless := timeLessThan_iff hn1 hn2
    rw [← ht, ← htimes t List.mem_cons_self] at hless
    rw [insert]
    split
    · next hlt =>
      rw [hless] at hlt
      refine List.pairwise_cons.mpr ⟨?_, hts⟩
      intro u hu
      obtain rfl | hu := List.mem_cons.mp hu
      · omega
      · have := hhead u hu
        omega
    · next hge =>
      rw [hless] at hge
      refine List.pairwise_cons.mpr ⟨?_, ih htail (fun u hu => htimes u (List.mem_cons_of_mem t hu))
        fun u hu => hnear u (List.mem_cons_of_mem t hu)⟩
      intro u hu
      obtain rfl | hu := List.mem_cons.mp ((insert_perm timeout ts).mem_iff.mp hu)
      · omega
      · exact hhead u hu

/-- What holds of the timeouts between two events: they are in the order of the
clock, and near enough to it for the counter of 32 bits. -/
structure Inv (s : State) : Prop where
  times : ∀ t ∈ s.timeouts, t.time = t.due % 2 ^ 32
  early : ∀ t ∈ s.timeouts, t.due ≤ s.clock + 1000
  late : ∀ t ∈ s.timeouts, s.clock ≤ t.due + 2 ^ 30
  sorted : s.nextTimeout.Pairwise fun t u => t.due ≤ u.due
  begun : ∀ b ∈ s.checking, b ≤ s.clock ∧ s.clock ≤ b + 2 ^ 30
  called : ∀ t ∈ s.handler, t.due ≤ s.clock ∧ s.currentTimeoutDueTime = t.time

def started (active : Bool) : List Work :=
  .lwipCyclicTimer .ipReassTmr :: .lwipCyclicTimer .etharpTmr :: if active then [.tcpipTcpTimer] else []

def Complete (s : State) : Prop := (s.timeouts.map SysTimeo.work).Perm (started s.tcpipTcpTimerActive)

theorem timeouts_perm {s : State} {ts : List SysTimeo} {t : SysTimeo} (h : ts.Perm (t :: s.nextTimeout)) :
    (State.timeouts { s with nextTimeout := ts }).Perm (t :: s.timeouts) :=
  (h.append_left s.handler.toList).trans List.perm_middle

theorem sysTimeoutAbs_spec {s : State} {absTime due : Nat} (work : Work) (hi : Inv s)
    (ht : absTime = due % 2 ^ 32) (h1 : s.clock ≤ due + 2 ^ 30) (h2 : due ≤ s.clock + 1000)
    (hlen : s.nextTimeout.length < mempNumSysTimeout) :
    ∃ ts, sysTimeoutAbs s absTime work due = .done { s with nextTimeout := ts } ∧
      Inv { s with nextTimeout := ts } ∧ ts.Perm (⟨absTime, work, due⟩ :: s.nextTimeout) := by
  have hperm := timeouts_perm (insert_perm ⟨absTime, work, due⟩ s.nextTimeout)
  refine ⟨insert ⟨absTime, work, due⟩ s.nextTimeout, ?_, ⟨?_, ?_, ?_, ?_, hi.begun, hi.called⟩, insert_perm _ _⟩
  · unfold sysTimeoutAbs
    rw [lwipAssert_of hlen, Outcome.done_bind, Outcome.pure_eq]
  · intro t hm
    obtain rfl | hm := List.mem_cons.mp (hperm.mem_iff.mp hm)
    · exact ht
    · exact hi.times t hm
  · intro t hm
    obtain rfl | hm := List.mem_cons.mp (hperm.mem_iff.mp hm)
    · exact h2
    · exact hi.early t hm
  · intro t hm
    obtain rfl | hm := List.mem_cons.mp (hperm.mem_iff.mp hm)
    · exact h1
    · exact hi.late t hm
  · have hmem : ∀ t ∈ s.nextTimeout, t ∈ s.timeouts := fun t hm => List.mem_append_right _ hm
    apply insert_sorted hi.sorted ht fun t hm => hi.times t (hmem t hm)
    intro t hm
    have := hi.early t (hmem t hm)
    have := hi.late t (hmem t hm)
    dsimp only
    omega

theorem sysTimeout_spec {s : State} {msecs : Nat} (work : Work) (hi : Inv s) (hm : msecs ≤ 1000)
    (hlen : s.nextTimeout.length < mempNumSysTimeout) :
    ∃ ts, sysTimeout s msecs work = .done { s with nextTimeout := ts } ∧ Inv { s with nextTimeout := ts } ∧
      ts.Perm (⟨add32 (sysNow s.clock) msecs, work, s.clock + msecs⟩ :: s.nextTimeout) := by
  obtain ⟨ts, hdone, hrest⟩ := sysTimeoutAbs_spec work hi
    (by unfold add32 sysNow; omega : add32 (sysNow s.clock) msecs = (s.clock + msecs) % 2 ^ 32) (by omega)
    (by omega) hlen
  refine ⟨ts, ?_, hrest⟩
  unfold sysTimeout
  rw [lwipAssert_of (by omega), Outcome.done_bind, hdone]

theorem less_due {s : State} {t : SysTimeo} {b : Nat} (hi : Inv s) (hb : s.checking = some b)
    (hm : t ∈ s.timeouts) : timeLessThan (sysNow b) t.time = true ↔ b < t.due := by
  have hbegun := hi.begun b hb
  have hearly := hi.early t hm
  have hlate := hi.late t hm
  rw [hi.times t hm]
  exact timeLessThan_iff (by omega) (by omega)

theorem call_due {s : State} {t : SysTimeo} {b : Nat} (hi : Inv s) (hb : s.checking = some b)
    (hm : t ∈ s.timeouts) (ht : timeLessThan (sysNow b) t.time = false) : t.due ≤ b := by
  have hless := less_due hi hb hm
  rw [ht] at hless
  rw [← Nat.not_lt, ← hless]
  exact Bool.false_ne_true

theorem length_started (active : Bool) : (started active).length = if active then 3 else 2 := by
  cases active <;> rfl

theorem Complete.length_of_called {s : State} {t : SysTimeo} (hc : Complete s) (ht : s.handler = some t) :
    s.nextTimeout.length < mempNumSysTimeout := by
  have hlen := hc.length_eq
  rw [List.length_map, State.timeouts, ht, length_started] at hlen
  simp only [Option.toList_some, List.length_append, List.length_singleton] at hlen
  unfold mempNumSysTimeout
  split at hlen <;> omega

theorem Complete.length_of_inactive {s : State} (hc : Complete s) (ha : s.tcpipTcpTimerActive = false) :
    s.nextTimeout.length < mempNumSysTimeout := by
  have hlen := hc.length_eq
  rw [List.length_map, State.timeouts, ha, length_started, if_neg Bool.false_ne_true, List.length_append] at hlen
  unfold mempNumSysTimeout
  omega

theorem Complete.work_ne {s : State} {t u : SysTimeo} (hc : Complete s) (ht : s.handler = some t)
    (hu : u ∈ s.nextTimeout) : u.work ≠ t.work := by
  have hstart : (started s.tcpipTcpTimerActive).Nodup := by cases s.tcpipTcpTimerActive <;> decide
  have hnodup := hc.nodup_iff.mpr hstart
  rw [State.timeouts, ht, Option.toList_some, List.singleton_append, List.map_cons, List.nodup_cons] at hnodup
  intro heq
  exact hnodup.1 (heq ▸ List.mem_map_of_mem hu)

theorem Inv.dropHandler {s : State} (hi : Inv s) : Inv { s with handler := none } := by
  have hmem : ∀ t ∈ State.timeouts { s with handler := none }, t ∈ s.timeouts :=
    fun t hm => List.mem_append_right _ hm
  exact ⟨fun t hm => hi.times t (hmem t hm), fun t hm => hi.early t (hmem t hm), fun t hm => hi.late t (hmem t hm),
    hi.sorted, hi.begun, by simp⟩

/-- A timer is started, if it is not there yet. The times of the new timeouts
are all that matters of them. -/
theorem tcpTimerNeeded_spec {s : State} (hi : Inv s) (hc : Complete s) :
    ∃ s' added, tcpTimerNeeded s = .done s' ∧ Inv s' ∧ Complete s' ∧ s'.clock = s.clock ∧ s'.handler = s.handler ∧
      s'.checking = s.checking ∧ s'.nextTimeout.Perm (added ++ s.nextTimeout) ∧
      ∀ u ∈ added, u.work = .tcpipTcpTimer ∧ s.clock < u.due := by
  unfold tcpTimerNeeded
  by_cases hneed : s.tcpipTcpTimerActive = false ∧ s.pcbs = true
  · rw [if_pos (by simp [hneed])]
    have hi' : Inv { s with tcpipTcpTimerActive := true } :=
      ⟨hi.times, hi.early, hi.late, hi.sorted, hi.begun, hi.called⟩
    obtain ⟨ts, hdone, hinv, hts⟩ := sysTimeout_spec .tcpipTcpTimer hi' (by decide : tcpTmrInterval ≤ 1000)
      (hc.length_of_inactive hneed.1)
    refine ⟨_, [_], hdone, hinv, ?_, rfl, rfl, rfl, hts, ?_⟩
    · have hw := (timeouts_perm hts).map SysTimeo.work
      have hc' : (s.timeouts.map SysTimeo.work).Perm (started false) := hneed.1 ▸ hc
      have hstart : (Work.tcpipTcpTimer :: started false).Perm (started true) := by decide
      have hall : (Work.tcpipTcpTimer :: s.timeouts.map SysTimeo.work).Perm (started true) :=
        (hc'.cons .tcpipTcpTimer).trans hstart
      exact hw.trans hall
    · intro u hu
      rw [List.mem_singleton.mp hu]
      exact ⟨rfl, Nat.lt_add_of_pos_right (by decide)⟩
  · rw [if_neg (by simpa using hneed)]
    exact ⟨s, [], rfl, hi, hc, rfl, rfl, rfl, List.Perm.refl _, by simp⟩

theorem tcpipTcpTimer_spec {s : State} (hi : Inv s) (hh : s.handler = none)
    (hlen : s.nextTimeout.length < mempNumSysTimeout)
    (hc : (.tcpipTcpTimer :: s.timeouts.map SysTimeo.work).Perm (started s.tcpipTcpTimerActive)) :
    ∃ s' added, tcpipTcpTimer s = .done s' ∧ Inv s' ∧ Complete s' ∧ s'.handler = none ∧ s'.checking = s.checking ∧
      s'.nextTimeout.Perm (added ++ s.nextTimeout) ∧ added.length ≤ 1 ∧
      ∀ u ∈ added, u.work = .tcpipTcpTimer ∧ s.clock < u.due := by
  unfold tcpipTcpTimer
  split
  · obtain ⟨ts, hdone, hinv, hts⟩ := sysTimeout_spec .tcpipTcpTimer hi (by decide : tcpTmrInterval ≤ 1000) hlen
    refine ⟨_, [_], hdone, hinv, ((timeouts_perm hts).map SysTimeo.work).trans hc, hh, rfl, hts, Nat.le_refl 1, ?_⟩
    intro u hu
    rw [List.mem_singleton.mp hu]
    exact ⟨rfl, Nat.lt_add_of_pos_right (by decide)⟩
  · refine ⟨_, [], rfl, ⟨hi.times, hi.early, hi.late, hi.sorted, hi.begun, hi.called⟩, ?_, hh, rfl,
      List.Perm.refl _, Nat.zero_le 1, by simp⟩
    cases ha : s.tcpipTcpTimerActive with
    | false =>
      rw [ha] at hc
      have := hc.mem_iff.mp List.mem_cons_self
      simp [started] at this
    | true =>
      rw [ha] at hc
      exact (hc.trans (by decide : (started true).Perm (.tcpipTcpTimer :: started false))).cons_inv

/-- A cyclic timer is started again: for one interval after the time it was
due, unless that is over. -/
theorem lwipCyclicTimer_spec {s : State} {c : Cyclic} {due : Nat} (hi : Inv s) (hh : s.handler = none)
    (hcur : s.currentTimeoutDueTime = due % 2 ^ 32) (hdue : due ≤ s.clock) (hlate : s.clock ≤ due + 2 ^ 30)
    (hlen : s.nextTimeout.length < mempNumSysTimeout)
    (hc : (.lwipCyclicTimer c :: s.timeouts.map SysTimeo.work).Perm (started s.tcpipTcpTimerActive)) :
    ∃ s' u, lwipCyclicTimer s c due = .done s' ∧ Inv s' ∧ Complete s' ∧ s'.handler = none ∧
      s'.checking = s.checking ∧ s'.nextTimeout.Perm (u :: s.nextTimeout) ∧ u.work = .lwipCyclicTimer c ∧
      s.clock ≤ u.due ∧ due < u.due ∧ (overload s c = false → u.due = due + 1000) := by
  have hint : c.intervalMs = 1000 := by cases c <;> rfl
  have hover : overload s c = true ↔ due + 1000 < s.clock := by
    unfold overload sysNow
    rw [hcur, hint]
    have hadd : add32 (due % 2 ^ 32) 1000 = (due + 1000) % 2 ^ 32 := by unfold add32; omega
    rw [hadd, timeLessThan_iff (by omega) (by omega)]
  have hspec : ∃ absTime next, lwipCyclicTimer s c due = sysTimeoutAbs s absTime (.lwipCyclicTimer c) next ∧
      absTime = next % 2 ^ 32 ∧ s.clock ≤ next ∧ next ≤ s.clock + 1000 ∧ due < next ∧
      (overload s c = false → next = due + 1000) := by
    unfold lwipCyclicTimer
    by_cases ho : overload s c = true
    · rw [if_pos ho]
      refine ⟨_, _, rfl, ?_, by omega, by omega, by omega, fun hno => ?_⟩
      · unfold add32 sysNow
        omega
      · rw [ho] at hno
        cases hno
    · have hge := mt hover.mpr ho
      rw [if_neg ho]
      refine ⟨_, _, rfl, ?_, by omega, by omega, by omega, fun _ => by rw [hint]⟩
      rw [hcur]
      unfold add32
      omega
  obtain ⟨absTime, next, heq, ht, h1, h2, h3, hnext⟩ := hspec
  obtain ⟨ts, hdone, hinv, hts⟩ := sysTimeoutAbs_spec (.lwipCyclicTimer c) hi ht (by omega) h2 hlen
  exact ⟨_, _, heq.trans hdone, hinv, ((timeouts_perm hts).map SysTimeo.work).trans hc, hh, rfl, hts, rfl, h1, h3,
    hnext⟩

/-- The end of a handler: the timer is started again, or it is not there any
more. -/
theorem finish_spec {s : State} {t : SysTimeo} (hi : Inv s) (hc : Complete s) (ht : s.handler = some t) :
    ∃ s' added, finish { s with handler := none } t = .done s' ∧ Inv s' ∧ Complete s' ∧ s'.handler = none ∧
      s'.checking = s.checking ∧ s'.nextTimeout.Perm (added ++ s.nextTimeout) ∧ added.length ≤ 1 ∧
      ∀ u ∈ added, u.work = t.work ∧ s.clock ≤ u.due ∧ t.due < u.due ∧
        (u.work ≠ .tcpipTcpTimer → late s t = false → u.due = t.due + 1000) := by
  have hmem : t ∈ s.timeouts := by
    rw [State.timeouts, ht]
    exact List.mem_cons_self
  obtain ⟨hdue, hcur⟩ := hi.called t ht
  have hlate := hi.late t hmem
  have htime := hi.times t hmem
  have hlen := hc.length_of_called ht
  have hc' : (t.work :: (State.timeouts { s with handler := none }).map SysTimeo.work).Perm
      (started s.tcpipTcpTimerActive) := by
    have hsplit : s.timeouts = t :: s.nextTimeout := by rw [State.timeouts, ht]; rfl
    have hcs : (s.timeouts.map SysTimeo.work).Perm (started s.tcpipTcpTimerActive) := hc
    rw [hsplit] at hcs
    exact hcs
  unfold finish late
  obtain ⟨time, work, due⟩ := t
  cases work with
  | tcpipTcpTimer =>
    obtain ⟨s', added, hdone, hinv, hcomp, hh, hcheck, hperm, hone, hnew⟩ :=
      tcpipTcpTimer_spec hi.dropHandler rfl hlen hc'
    refine ⟨s', added, hdone, hinv, hcomp, hh, hcheck, hperm, hone, ?_⟩
    intro u hu
    obtain ⟨hw, hclock⟩ := hnew u hu
    dsimp only at hclock hdue
    exact ⟨hw, by omega, by dsimp only; omega, fun hne => absurd hw hne⟩
  | lwipCyclicTimer c =>
    obtain ⟨s', u, hdone, hinv, hcomp, hh, hcheck, hperm, hw, hclock, hlt, hnext⟩ :=
      lwipCyclicTimer_spec hi.dropHandler rfl (hcur.trans htime) hdue hlate hlen hc'
    refine ⟨s', [u], hdone, hinv, hcomp, hh, hcheck, hperm, Nat.le_refl 1, ?_⟩
    intro v hv
    rw [List.mem_singleton.mp hv]
    exact ⟨hw, hclock, hlt, fun _ => hnext⟩

theorem Start.inv {clock : Nat} {s : State} (hs : Start clock s) :
    Inv s ∧ Complete s ∧ s.clock = clock ∧ ∀ t ∈ s.timeouts, t.due = clock + 1000 := by
  have hi : Inv ⟨clock, [], 0, false, false, none, none⟩ := by
    constructor <;> simp [State.timeouts]
  obtain ⟨ts, hdone, hinv, hperm⟩ := sysTimeout_spec (.lwipCyclicTimer .ipReassTmr) hi
    (by decide : Cyclic.ipReassTmr.intervalMs ≤ 1000) (by simp [mempNumSysTimeout])
  have hlen : ts.length < mempNumSysTimeout := by
    have := hperm.length_eq
    simp only [List.length_cons, List.length_nil] at this
    unfold mempNumSysTimeout
    omega
  obtain ⟨ts', hdone', hinv', hperm'⟩ := sysTimeout_spec (.lwipCyclicTimer .etharpTmr) hinv
    (by decide : Cyclic.etharpTmr.intervalMs ≤ 1000) hlen
  unfold Start sysTimeoutsInit at hs
  rw [hdone, Outcome.done_bind] at hs
  have hrun := hdone'.symm.trans hs
  injection hrun with hrun
  subst hrun
  have hall := (timeouts_perm hperm').trans ((timeouts_perm hperm).cons _)
  refine ⟨hinv', ?_, rfl, ?_⟩
  · have hstart : [Work.lwipCyclicTimer .etharpTmr, .lwipCyclicTimer .ipReassTmr].Perm (started false) := by decide
    exact (hall.map SysTimeo.work).trans hstart
  · intro t hm
    have := hall.mem_iff.mp hm
    simp only [State.timeouts, Option.toList_none, List.nil_append, List.mem_cons, List.not_mem_nil, or_false] at this
    obtain rfl | rfl := this <;> rfl

theorem Inv.step {s s' : State} {e : Event} (hi : Inv s) (hc : Complete s) (hs : Step s e s') :
    Inv s' ∧ Complete s' := by
  cases hs with
  | tick h =>
    refine ⟨⟨hi.times, ?_, h.1, hi.sorted, ?_, ?_⟩, hc⟩
    · intro t hm
      have := hi.early t hm
      dsimp only
      omega
    · intro b hb
      have := hi.begun b hb
      exact ⟨by dsimp only; omega, h.2 b hb⟩
    · intro t ht
      obtain ⟨h1, h2⟩ := hi.called t ht
      exact ⟨by dsimp only; omega, h2⟩
  | pcbs => exact ⟨⟨hi.times, hi.early, hi.late, hi.sorted, hi.begun, hi.called⟩, hc⟩
  | tcpTimerNeeded h =>
    obtain ⟨s'', -, hdone, hinv, hcomp, -⟩ := tcpTimerNeeded_spec hi hc
    rw [h] at hdone
    injection hdone with hdone
    exact hdone ▸ ⟨hinv, hcomp⟩
  | checkBegin h =>
    refine ⟨⟨hi.times, hi.early, hi.late, hi.sorted, ?_, hi.called⟩, hc⟩
    intro b hb
    obtain rfl := Option.mem_some.mp hb
    exact ⟨Nat.le_refl _, Nat.le_add_right _ _⟩
  | @call t ts b hb hh hn ht =>
    have hsame : s.timeouts = t :: ts := by rw [State.timeouts, hh, hn]; rfl
    have hmem : t ∈ s.timeouts := by rw [hsame]; exact List.mem_cons_self
    have hsorted := hi.sorted
    rw [hn] at hsorted
    refine ⟨⟨?_, ?_, ?_, (List.pairwise_cons.mp hsorted).2, hi.begun, ?_⟩, ?_⟩
    · intro u hm
      exact hi.times u (hsame ▸ hm)
    · intro u hm
      exact hi.early u (hsame ▸ hm)
    · intro u hm
      exact hi.late u (hsame ▸ hm)
    · intro u hu
      obtain rfl := Option.mem_some.mp hu
      refine ⟨?_, rfl⟩
      have hbegun := hi.begun b hb
      have hdue := call_due hi hb hmem ht
      dsimp only
      omega
    · have hcs : (s.timeouts.map SysTimeo.work).Perm (started s.tcpipTcpTimerActive) := hc
      rw [hsame] at hcs
      exact hcs
  | finish hh h =>
    obtain ⟨s'', -, hdone, hinv, hcomp, -⟩ := finish_spec hi hc hh
    rw [h] at hdone
    injection hdone with hdone
    exact hdone ▸ ⟨hinv, hcomp⟩
  | checkEnd hb hh hn =>
    exact ⟨⟨hi.times, hi.early, hi.late, hi.sorted, by simp, hi.called⟩, hc⟩

theorem Inv.run {clock : Nat} {s : State} {es : List Event} (hr : Reach (Start clock) Step es s) :
    Inv s ∧ Complete s := by
  apply hr.invariant fun _ s => Inv s ∧ Complete s
  · intro s hs
    obtain ⟨hi, hc, -⟩ := hs.inv
    exact ⟨hi, hc⟩
  · rintro h s e s' ⟨hi, hc⟩ hs
    exact hi.step hc hs

/-- In every run the timeouts are handled on time although the counter wraps
around: no handler is called before its timeout is due, none before one that is
due earlier, and when `sys_check_timeouts` returns, nothing is left that was due
at its start. -/
theorem timeouts_on_time {clock : Nat} {s s' : State} {es : List Event}
    (hr : Reach (Start clock) Step es s) :
    (∀ t, Step s (.call t) s' → t.due ≤ s.clock ∧ ∀ u ∈ s.nextTimeout, t.due ≤ u.due) ∧
    (Step s .checkEnd s' → ∀ b ∈ s.checking, ∀ u ∈ s'.timeouts, b < u.due) := by
  obtain ⟨hi, -⟩ := Inv.run hr
  constructor
  · intro t hs
    cases hs with
    | @call _ ts b hb hh hn ht =>
      have hmem : t ∈ s.timeouts := List.mem_append_right _ (by rw [hn]; exact List.mem_cons_self)
      have hdue := call_due hi hb hmem ht
      have hbegun := hi.begun b hb
      have hsorted := hi.sorted
      rw [hn] at hsorted ⊢
      refine ⟨by omega, ?_⟩
      intro u hu
      obtain rfl | hu := List.mem_cons.mp hu
      · exact Nat.le_refl _
      · exact (List.pairwise_cons.mp hsorted).1 u hu
  · intro hs
    cases hs with
    | @checkEnd b hb hh hn =>
      intro b' hb' u hu
      rw [hb] at hb'
      obtain rfl := Option.mem_some.mp hb'
      have hu : u ∈ s.nextTimeout := by simpa [State.timeouts, hh] using hu
      cases hts : s.nextTimeout with
      | nil => simp [hts] at hu
      | cons t ts =>
        have hmem : t ∈ s.timeouts := List.mem_append_right _ (by rw [hts]; exact List.mem_cons_self)
        have hless := hn t (by rw [hts]; rfl)
        have hdue : b < t.due := (less_due hi hb hmem).mp hless
        have hsorted := hi.sorted
        rw [hts] at hsorted hu
        obtain rfl | hu := List.mem_cons.mp hu
        · exact hdue
        · have := (List.pairwise_cons.mp hsorted).1 u hu
          omega

/-- The two cyclic timers, half a second before the counter wraps around, at
the clock `clock`. -/
def exampleState (clock : Nat) (checking : Option Nat) : State :=
  ⟨clock, [⟨500, .lwipCyclicTimer .ipReassTmr, 4294967796⟩, ⟨500, .lwipCyclicTimer .etharpTmr, 4294967796⟩], 0, false,
    false, checking, none⟩

theorem exampleState_start : Start 4294966796 (exampleState 4294966796 none) := rfl

theorem exampleState_reach :
    Reach (Start 4294966796) Step [.tick 1003, .checkBegin] (exampleState 4294967799 (some 4294967799)) := by
  have htime : InTime (exampleState 4294966796 none) (4294966796 + 1003) := by
    constructor <;> decide
  exact ((Reach.init exampleState_start).step (.tick htime)).step (.checkBegin rfl)

def exampleCalled : State :=
  ⟨4294967799, [⟨500, .lwipCyclicTimer .etharpTmr, 4294967796⟩], 500, false, false, some 4294967799,
    some ⟨500, .lwipCyclicTimer .ipReassTmr, 4294967796⟩⟩

theorem exampleCalled_step : Step (exampleState 4294967799 (some 4294967799))
    (.call ⟨500, .lwipCyclicTimer .ipReassTmr, 4294967796⟩) exampleCalled :=
  .call rfl rfl rfl (by decide)

theorem timeouts_on_time_wrapped :
    (⟨500, .lwipCyclicTimer .ipReassTmr, 4294967796⟩ : SysTimeo).due ≤ 4294967799 :=
  ((timeouts_on_time exampleState_reach).1 _ exampleCalled_step).1

end FlashApp.Timeouts
