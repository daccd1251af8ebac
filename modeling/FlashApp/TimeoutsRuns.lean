import FlashApp.Timeouts
import Mathlib.Algebra.Order.BigOperators.Group.List

namespace FlashApp.Timeouts

open Bytes LwipMem Machine

/-- In every run each of the timers is there once, so that the pool with its
three elements is large enough, and no assertion fails. -/
theorem timers_complete {clock : Nat} {s : State} {es : List Event} (hr : Reach (Start clock) Step es s) :
    (s.timeouts.map SysTimeo.work).Perm (started s.tcpipTcpTimerActive) ∧
    (∃ s', tcpTimerNeeded s = .done s') ∧
    ∀ t, s.handler = some t → ∃ s', finish { s with handler := none } t = .done s' := by
  obtain ⟨hi, hc⟩ := Inv.run hr
  refine ⟨hc, ?_, ?_⟩
  · obtain ⟨s', -, hdone, -⟩ := tcpTimerNeeded_spec hi hc
    exact ⟨s', hdone⟩
  · intro t ht
    obtain ⟨s', -, hdone, -⟩ := finish_spec hi hc ht
    exact ⟨s', hdone⟩

theorem timers_complete_called :
    ∃ s', finish { exampleCalled with handler := none } ⟨500, .lwipCyclicTimer .ipReassTmr, 4294967796⟩ = .done s' :=
  (timers_complete (exampleState_reach.step exampleCalled_step)).2.2 _ rfl

def Event.turn (c : Cyclic) : Event → Bool
  | .finish t _ => t.work == .lwipCyclicTimer c
  | _ => false

def Event.late : Event → Bool
  | .finish _ late => late
  | _ => false

def turns (c : Cyclic) (es : List Event) : Nat := es.countP (Event.turn c)

theorem turns_append (c : Cyclic) (es : List Event) (e : Event) :
    turns c (es ++ [e]) = turns c es + if e.turn c then 1 else 0 := by
  simp [turns, List.countP_append, List.countP_singleton]

theorem step_cyclic {s s' : State} {e : Event} (hi : Inv s) (hc : Complete s) (hs : Step s e s')
    (hlate : e.late = false) {c : Cyclic} {u : SysTimeo} (hu : u ∈ s'.timeouts)
    (hw : u.work = .lwipCyclicTimer c) :
    ∃ t ∈ s.timeouts, t.work = .lwipCyclicTimer c ∧ u.due = t.due + if e.turn c then 1000 else 0 := by
  cases hs with
  | tick h => exact ⟨u, hu, hw, rfl⟩
  | pcbs => exact ⟨u, hu, hw, rfl⟩
  | tcpTimerNeeded h =>
    obtain ⟨s'', added, hdone, -, -, -, hhandler, -, hperm, hnew⟩ := tcpTimerNeeded_spec hi hc
    rw [h] at hdone
    injection hdone with hdone
    subst hdone
    have hall : s'.timeouts.Perm (s.handler.toList ++ (added ++ s.nextTimeout)) :=
      hhandler ▸ hperm.append_left s'.handler.toList
    refine ⟨u, ?_, hw, rfl⟩
    have hm := hall.mem_iff.mp hu
    simp only [List.mem_append] at hm
    obtain hm | hm | hm := hm
    · exact List.mem_append_left _ hm
    · have := (hnew u hm).1
      rw [hw] at this
      cases this
    · exact List.mem_append_right _ hm
  | checkBegin h => exact ⟨u, hu, hw, rfl⟩
  | @call t ts b hb hh hn ht =>
    refine ⟨u, ?_, hw, rfl⟩
    rw [State.timeouts, hh, hn]
    exact hu
  | @finish _ t hh h =>
    obtain ⟨s'', added, hdone, -, -, hnone, -, hperm, -, hnew⟩ := finish_spec hi hc hh
    rw [h] at hdone
    injection hdone with hdone
    subst hdone
    have hm : u ∈ added ++ s.nextTimeout := hperm.mem_iff.mp (by simpa [State.timeouts, hnone] using hu)
    obtain hm | hm := (List.mem_append.mp hm).symm
    · have hne := hc.work_ne hh hm
      rw [hw] at hne
      refine ⟨u, List.mem_append_right _ hm, hw, ?_⟩
      rw [Event.turn, if_neg]
      · rfl
      · rw [beq_iff_eq]
        exact fun heq => hne heq.symm
    · obtain ⟨hsame, -, -, hdue⟩ := hnew u hm
      refine ⟨t, ?_, hsame ▸ hw, ?_⟩
      · rw [State.timeouts, hh]
        exact List.mem_cons_self
      · rw [Event.turn, if_pos (by rw [beq_iff_eq, ← hsame, hw])]
        exact hdue (by rw [hw]; exact Work.noConfusion) hlate
  | checkEnd hb hh hn => exact ⟨u, hu, hw, rfl⟩

/-- The cyclic timers do not drift: as long as no turn comes more than one
interval late, the turns are due at the multiples of the interval after the
start, however late the handlers were called or how long they took. The time of
the timeout is that of the 32 bit clock then. -/
theorem cyclic_no_drift {clock : Nat} {s : State} {es : List Event} (hr : Reach (Start clock) Step es s)
    (hlate : ∀ e ∈ es, e.late = false) (c : Cyclic) :
    ∀ t ∈ s.timeouts, t.work = .lwipCyclicTimer c → t.due = clock + (turns c es + 1) * 1000 ∧
      t.time = sysNow (clock + (turns c es + 1) * 1000) := by
  have hrun : (Inv s ∧ Complete s) ∧ ((∀ e ∈ es, e.late = false) →
      ∀ t ∈ s.timeouts, t.work = .lwipCyclicTimer c → t.due = clock + (turns c es + 1) * 1000) := by
    apply hr.invariant fun es s => (Inv s ∧ Complete s) ∧ ((∀ e ∈ es, e.late = false) →
      ∀ t ∈ s.timeouts, t.work = .lwipCyclicTimer c → t.due = clock + (turns c es + 1) * 1000)
    · intro s hs
      obtain ⟨hi, hc, -, hdue⟩ := hs.inv
      refine ⟨⟨hi, hc⟩, fun _ t ht _ => ?_⟩
      rw [hdue t ht]
      simp [turns]
    · rintro es s e s' ⟨⟨hi, hc⟩, ih⟩ hs
      refine ⟨hi.step hc hs, ?_⟩
      intro hl u hu hw
      obtain ⟨t, ht, htw, hdue⟩ := step_cyclic hi hc hs (hl e (by simp)) hu hw
      have := ih (fun e he => hl e (List.mem_append_left _ he)) t ht htw
      rw [hdue, this, turns_append]
      split <;> omega
  intro t ht hw
  have hdue := hrun.2 hlate t ht hw
  have htime := hrun.1.1.times t ht
  rw [hdue] at htime
  exact ⟨hdue, htime⟩

def exampleFinished : State :=
  ⟨4294967799, [⟨500, .lwipCyclicTimer .etharpTmr, 4294967796⟩, ⟨1500, .lwipCyclicTimer .ipReassTmr, 4294968796⟩], 500,
    false, false, some 4294967799, none⟩

theorem exampleFinished_step : Step exampleCalled
    (.finish ⟨500, .lwipCyclicTimer .ipReassTmr, 4294967796⟩ false) exampleFinished := by
  have hlate : late exampleCalled ⟨500, .lwipCyclicTimer .ipReassTmr, 4294967796⟩ = false := by decide +kernel
  have hover : overload { exampleCalled with handler := none } .ipReassTmr = false := by decide +kernel
  have hfinish : finish { exampleCalled with handler := none } ⟨500, .lwipCyclicTimer .ipReassTmr, 4294967796⟩ =
      .done exampleFinished := by
    have hinsert : insert ⟨add32 500 1000, .lwipCyclicTimer .ipReassTmr, 4294967796 + 1000⟩
        [⟨500, .lwipCyclicTimer .etharpTmr, 4294967796⟩] = exampleFinished.nextTimeout := by decide +kernel
    simp only [finish, lwipCyclicTimer, hover, Bool.false_eq_true, ↓reduceIte, sysTimeoutAbs]
    rw [lwipAssert_of (by decide), Outcome.done_bind, Outcome.pure_eq]
    exact congrArg (fun ts => Outcome.done { exampleFinished with nextTimeout := ts }) hinsert
  rw [← hlate]
  exact .finish rfl hfinish

def exampleTimer : SysTimeo := ⟨1500, .lwipCyclicTimer .ipReassTmr, 4294968796⟩

theorem exampleTimer_mem : exampleTimer ∈ exampleFinished.timeouts := by
  simp [exampleTimer, exampleFinished, State.timeouts]

theorem cyclic_no_drift_wrapped :
    exampleTimer.due = 4294966796 + 2 * 1000 ∧ exampleTimer.time = sysNow (4294966796 + 2 * 1000) :=
  cyclic_no_drift ((exampleState_reach.step exampleCalled_step).step exampleFinished_step) (by simp [Event.late])
    .ipReassTmr exampleTimer exampleTimer_mem rfl

def Event.isCall : Event → Bool
  | .call _ => true
  | _ => false

/-- How often a timeout can be called by a check that began at `b`: a timer that
was due before may be due again just at `b`. -/
def weight (b : Nat) (t : SysTimeo) : Nat := if t.due < b then 2 else if t.due = b then 1 else 0

/-- The calls that are left. -/
def potential (b : Nat) (s : State) : Nat :=
  (s.nextTimeout.map (weight b)).sum + (s.handler.toList.map fun t => if t.due < b then 1 else 0).sum

theorem weight_le (b : Nat) (t : SysTimeo) : weight b t ≤ 2 := by
  unfold weight
  split <;> (try split) <;> omega

theorem step_potential {s s' : State} {e : Event} {b : Nat} (hi : Inv s) (hc : Complete s) (hs : Step s e s')
    (hb : s.checking = some b) (he : e ≠ .checkEnd) :
    s'.checking = some b ∧ potential b s' + (if e.isCall then 1 else 0) ≤ potential b s := by
  have hbegun := hi.begun b hb
  cases hs with
  | tick h => exact ⟨hb, Nat.le_refl _⟩
  | pcbs => exact ⟨hb, Nat.le_refl _⟩
  | tcpTimerNeeded h =>
    obtain ⟨s'', added, hdone, -, -, -, hhandler, hcheck, hperm, hnew⟩ := tcpTimerNeeded_spec hi hc
    rw [h] at hdone
    injection hdone with hdone
    subst hdone
    refine ⟨hcheck.trans hb, ?_⟩
    have hzero : (added.map (weight b)).sum = 0 := by
      rw [List.sum_eq_zero]
      intro n hn
      obtain ⟨u, hu, rfl⟩ := List.mem_map.mp hn
      have := (hnew u hu).2
      unfold weight
      rw [if_neg (by omega), if_neg (by omega)]
    have hsum := (hperm.map (weight b)).sum_eq
    rw [List.map_append, List.sum_append, hzero] at hsum
    unfold potential
    rw [hsum, hhandler]
    simp [Event.isCall]
  | checkBegin h =>
    rw [hb] at h
    cases h
  | @call t ts b' hb' hh hn ht =>
    refine ⟨hb, ?_⟩
    rw [hb] at hb'
    obtain rfl := Option.some.inj hb'
    have hmem : t ∈ s.timeouts := List.mem_append_right _ (by rw [hn]; exact List.mem_cons_self)
    have hdue := call_due hi hb hmem ht
    unfold potential weight
    rw [hn, hh]
    simp only [List.map_cons, List.sum_cons, Option.toList_some, Option.toList_none, List.map_nil, List.sum_nil,
      Event.isCall, ↓reduceIte]
    split <;> (try split) <;> omega
  | @finish _ t hh h =>
    obtain ⟨s'', added, hdone, -, -, hnone, hcheck, hperm, hone, hnew⟩ := finish_spec hi hc hh
    rw [h] at hdone
    injection hdone with hdone
    subst hdone
    refine ⟨hcheck.trans hb, ?_⟩
    have hle : (added.map (weight b)).sum ≤ if t.due < b then 1 else 0 := by
      match added, hone with
      | [], _ => exact Nat.zero_le _
      | [u], _ =>
        obtain ⟨-, h1, h2, -⟩ := hnew u List.mem_cons_self
        simp only [List.map_cons, List.map_nil, List.sum_cons, List.sum_nil]
        unfold weight
        rw [if_neg (by omega)]
        split <;> split <;> omega
    have hsum := (hperm.map (weight b)).sum_eq
    rw [List.map_append, List.sum_append] at hsum
    unfold potential
    rw [hsum, hnone, hh]
    simp only [Option.toList_none, List.map_nil, List.sum_nil, Option.toList_some, List.map_cons, List.sum_cons,
      Event.isCall, Bool.false_eq_true, ↓reduceIte]
    omega
  | checkEnd => exact absurd rfl he

/-- The loop of `sys_check_timeouts` comes to its end: however long the handlers
take, and whatever they start, one check calls at most six of them. -/
theorem check_calls_bounded {clock b : Nat} {s s' : State} {es es' : List Event}
    (hr : Reach (Start clock) Step es s) (hb : s.checking = some b) (hr' : Reach (· = s) Step es' s')
    (he : ∀ e ∈ es', e ≠ .checkEnd) : es'.countP Event.isCall ≤ 6 := by
  obtain ⟨hi, hc⟩ := Inv.run hr
  have hrun : (Inv s' ∧ Complete s') ∧ ((∀ e ∈ es', e ≠ .checkEnd) →
      s'.checking = some b ∧ potential b s' + es'.countP Event.isCall ≤ potential b s) := by
    apply hr'.invariant fun es' s' => (Inv s' ∧ Complete s') ∧ ((∀ e ∈ es', e ≠ .checkEnd) →
      s'.checking = some b ∧ potential b s' + es'.countP Event.isCall ≤ potential b s)
    · rintro _ rfl
      exact ⟨⟨hi, hc⟩, fun _ => ⟨hb, by simp⟩⟩
    · rintro es t e t' ⟨⟨hi, hc⟩, ih⟩ hs
      refine ⟨hi.step hc hs, fun hne => ?_⟩
      obtain ⟨hcheck, hpot⟩ := ih fun e he => hne e (List.mem_append_left _ he)
      obtain ⟨hcheck', hpot'⟩ := step_potential hi hc hs hcheck (hne e (by simp))
      refine ⟨hcheck', ?_⟩
      rw [List.countP_append, List.countP_singleton]
      omega
  obtain ⟨-, hpot⟩ := hrun.2 he
  have hlen := hc.length_eq
  rw [List.length_map, length_started, State.timeouts, List.length_append] at hlen
  have h1 : (s.nextTimeout.map (weight b)).sum ≤ s.nextTimeout.length * 2 := by
    have := List.sum_le_card_nsmul (s.nextTimeout.map (weight b)) 2 (by
      intro n hn
      obtain ⟨t, -, rfl⟩ := List.mem_map.mp hn
      exact weight_le b t)
    simpa using this
  have h2 : (s.handler.toList.map fun t => if t.due < b then 1 else 0).sum ≤ s.handler.toList.length * 2 := by
    cases s.handler with
    | none => simp
    | some t =>
      simp only [Option.toList_some, List.map_cons, List.map_nil, List.sum_cons, List.sum_nil, List.length_singleton]
      split <;> omega
  unfold potential at hpot
  split at hlen <;> omega

theorem check_calls_bounded_one :
    [Event.call ⟨500, .lwipCyclicTimer .ipReassTmr, 4294967796⟩].countP Event.isCall ≤ 6 :=
  check_calls_bounded exampleState_reach rfl (Reach.single exampleCalled_step) (by simp)

end FlashApp.Timeouts
