import FlashApp.Trace

namespace FlashApp.Interaction

open Trace

/-- A program that calls its environment. A call `c` is answered by any
element of `R c`; what the program does next may depend on the answer. -/
inductive Prog (C : Type) (R : C → Type) (α : Type) where
  | pure (a : α) : Prog C R α
  | call (c : C) (k : R c → Prog C R α) : Prog C R α

abbrev Event (C : Type) (R : C → Type) := (c : C) × R c

variable {C : Type} {R : C → Type} {α β σ : Type}

namespace Prog

def bind : Prog C R α → (α → Prog C R β) → Prog C R β
  | .pure a, f => f a
  | .call c k, f => .call c (fun r => bind (k r) f)

instance : Monad (Prog C R) where
  pure := Prog.pure
  bind := Prog.bind

end Prog

def perform (c : C) : Prog C R (R c) := .call c .pure

/-- The program can make the calls of the trace, get their answers and then
return the result. Quantifying over the traces is quantifying over all
behaviours of the environment. -/
def Runs : Prog C R α → List (Event C R) → α → Prop
  | .pure a, t, b => t = [] ∧ b = a
  | .call c k, t, b => ∃ r t', t = ⟨c, r⟩ :: t' ∧ Runs (k r) t' b

@[simp] theorem runs_pure {a b : α} {t : List (Event C R)} :
    Runs (pure a : Prog C R α) t b ↔ t = [] ∧ b = a := Iff.rfl

@[simp] theorem runs_perform {c : C} {t : List (Event C R)} {r : R c} :
    Runs (perform c : Prog C R (R c)) t r ↔ t = [⟨c, r⟩] := by
  constructor
  · rintro ⟨r', t', rfl, rfl, rfl⟩
    rfl
  · rintro rfl
    exact ⟨r, [], rfl, rfl, rfl⟩

@[simp] theorem runs_bind {p : Prog C R α} {f : α → Prog C R β} {t : List (Event C R)} {b : β} :
    Runs (p >>= f) t b ↔ ∃ a t₁ t₂, t = t₁ ++ t₂ ∧ Runs p t₁ a ∧ Runs (f a) t₂ b := by
  change Runs (Prog.bind p f) t b ↔ _
  induction p generalizing t with
  | pure a =>
    constructor
    · intro h
      exact ⟨a, [], t, rfl, ⟨rfl, rfl⟩, h⟩
    · rintro ⟨_, _, t₂, rfl, ⟨rfl, rfl⟩, h⟩
      exact h
  | call c k ih =>
    constructor
    · rintro ⟨r, t', rfl, h⟩
      obtain ⟨a, t₁, t₂, rfl, h₁, h₂⟩ := (ih r).mp h
      exact ⟨a, ⟨c, r⟩ :: t₁, t₂, rfl, ⟨r, t₁, rfl, h₁⟩, h₂⟩
    · rintro ⟨a, _, t₂, rfl, ⟨r, t₁, rfl, h₁⟩, h₂⟩
      exact ⟨r, t₁ ++ t₂, rfl, (ih r).mpr ⟨a, t₁, t₂, rfl, h₁, h₂⟩⟩

theorem Runs.bind {p : Prog C R α} {f : α → Prog C R β} {t₁ t₂ : List (Event C R)} {a : α} {b : β}
    (h₁ : Runs p t₁ a) (h₂ : Runs (f a) t₂ b) : Runs (p >>= f) (t₁ ++ t₂) b :=
  runs_bind.mpr ⟨a, t₁, t₂, rfl, h₁, h₂⟩

theorem Runs.perform_bind {c : C} {f : R c → Prog C R β} {r : R c} {t : List (Event C R)} {b : β}
    (h : Runs (f r) t b) : Runs (perform c >>= f) (⟨c, r⟩ :: t) b :=
  ⟨r, t, rfl, h⟩

def Calls (P : C → Prop) : Prog C R α → Prop
  | .pure _ => True
  | .call c k => P c ∧ ∀ r, Calls P (k r)

theorem calls_pure {P : C → Prop} (a : α) : Calls P (pure a : Prog C R α) := trivial

theorem calls_perform {P : C → Prop} {c : C} (hc : P c) : Calls P (perform c : Prog C R (R c)) :=
  ⟨hc, fun _ => trivial⟩

theorem calls_bind {P : C → Prop} {p : Prog C R α} {f : α → Prog C R β} (hp : Calls P p)
    (hf : ∀ a, Calls P (f a)) : Calls P (p >>= f) := by
  change Calls P (Prog.bind p f)
  induction p with
  | pure a => exact hf a
  | call c k ih => exact ⟨hp.1, fun r => ih r (hp.2 r)⟩

theorem Calls.forall_mem {P : C → Prop} {p : Prog C R α} {t : List (Event C R)} {a : α}
    (hp : Calls P p) (hr : Runs p t a) : ∀ e ∈ t, P e.1 := by
  induction p generalizing t with
  | pure a =>
    obtain ⟨rfl, -⟩ := hr
    simp
  | call c k ih =>
    obtain ⟨r, t', rfl, hr'⟩ := hr
    rw [List.forall_mem_cons]
    exact ⟨hp.1, ih r (hp.2 r) hr'⟩

abbrev Oracle (C : Type) (R : C → Type) := List (Event C R) → (c : C) → R c

/-- Run a program against an environment that has already seen `h`. -/
def exec (o : Oracle C R) : Prog C R α → List (Event C R) → List (Event C R) × α
  | .pure a, _ => ([], a)
  | .call c k, h =>
    let e : Event C R := ⟨c, o h c⟩
    let q := exec o (k e.2) (h ++ [e])
    (e :: q.1, q.2)

/-- Every environment has a run, so a statement about all runs is not empty. -/
theorem exec_runs (o : Oracle C R) (p : Prog C R α) (h : List (Event C R)) :
    Runs p (exec o p h).1 (exec o p h).2 := by
  induction p generalizing h with
  | pure a => exact ⟨rfl, rfl⟩
  | call c k ih => exact ⟨o h c, _, rfl, ih _ _⟩

theorem exec_answers (o : Oracle C R) (p : Prog C R α) (h : List (Event C R)) :
    ∀ e ∈ (exec o p h).1, ∃ h', e.2 = o h' e.1 := by
  induction p generalizing h with
  | pure a => simp [exec]
  | call c k ih =>
    intro e he
    rcases List.mem_cons.mp he with rfl | he
    · exact ⟨h, rfl⟩
    · exact ih _ _ e he

/-- What an environment answers depends on what it has seen before. -/
theorem exec_always (o : Oracle C R) (p : Prog C R α) (h : List (Event C R)) :
    Always (fun pre e => e.2 = o (h ++ pre) e.1) (exec o p h).1 := by
  induction p generalizing h with
  | pure a => exact always_nil _
  | call c k ih =>
    refine always_cons.mpr ⟨by rw [List.append_nil], ?_⟩
    have hnext := ih (o h c) (h ++ [⟨c, o h c⟩])
    refine hnext.mono fun pre e he => ?_
    rw [he, List.append_assoc]
    rfl

/-- Repeat a step until it leaves the loop with a result. The fuel bounds the
number of steps; `none` says that the loop is still running then. -/
def loop (step : σ → Prog C R (σ ⊕ β)) : Nat → σ → Prog C R (Option β)
  | 0, _ => pure none
  | n + 1, s => do
    match ← step s with
    | .inl s' => loop step n s'
    | .inr b => pure (some b)

theorem calls_loop {P : C → Prop} {step : σ → Prog C R (σ ⊕ β)} (hs : ∀ s, Calls P (step s))
    (n : Nat) (s : σ) : Calls P (loop step n s) := by
  induction n generalizing s with
  | zero => trivial
  | succ n ih =>
    refine calls_bind (hs s) fun x => ?_
    cases x with
    | inl s' => exact ih s'
    | inr b => trivial

theorem runs_loop_succ {step : σ → Prog C R (σ ⊕ β)} {n : Nat} {s : σ} {t : List (Event C R)}
    {r : Option β} :
    Runs (loop step (n + 1) s) t r ↔
      (∃ s' t₁ t₂, t = t₁ ++ t₂ ∧ Runs (step s) t₁ (.inl s') ∧ Runs (loop step n s') t₂ r) ∨
      ∃ b, r = some b ∧ Runs (step s) t (.inr b) := by
  rw [loop, runs_bind]
  constructor
  · rintro ⟨x, t₁, t₂, rfl, h₁, h₂⟩
    cases x with
    | inl s' => exact .inl ⟨s', t₁, t₂, rfl, h₁, h₂⟩
    | inr b =>
      obtain ⟨rfl, rfl⟩ := h₂
      exact .inr ⟨b, rfl, by simpa using h₁⟩
  · rintro (⟨s', t₁, t₂, rfl, h₁, h₂⟩ | ⟨b, rfl, h⟩)
    · exact ⟨.inl s', t₁, t₂, rfl, h₁, h₂⟩
    · exact ⟨.inr b, t, [], by simp, h, rfl, rfl⟩

/-- What a loop does as a whole, from what one step does. `Inv` speaks of the
state and of the trace so far, `Q` of the result and the complete trace. -/
theorem loop_rule {step : σ → Prog C R (σ ⊕ β)} (Inv : σ → List (Event C R) → Prop)
    (Q : Option β → List (Event C R) → Prop)
    (hstop : ∀ s h, Inv s h → Q none h)
    (hstep : ∀ s h t s', Inv s h → Runs (step s) t (.inl s') → Inv s' (h ++ t))
    (hleave : ∀ s h t b, Inv s h → Runs (step s) t (.inr b) → Q (some b) (h ++ t))
    {n : Nat} {s : σ} {h t : List (Event C R)} {r : Option β} (hs : Inv s h)
    (hr : Runs (loop step n s) t r) : Q r (h ++ t) := by
  induction n generalizing s h t with
  | zero =>
    obtain ⟨rfl, rfl⟩ := hr
    simpa using hstop s h hs
  | succ n ih =>
    rcases runs_loop_succ.mp hr with ⟨s', t₁, t₂, rfl, h₁, h₂⟩ | ⟨b, rfl, hb⟩
    · rw [← List.append_assoc]
      exact ih (hstep s h t₁ s' hs h₁) h₂
    · exact hleave s h t b hs hb

/-- A loop whose steps decrease a measure leaves within as many steps. -/
theorem loop_terminates {step : σ → Prog C R (σ ⊕ β)} (Inv : σ → List (Event C R) → Prop)
    (μ : σ → Nat)
    (hstep : ∀ s h t s', Inv s h → Runs (step s) t (.inl s') → Inv s' (h ++ t) ∧ μ s' < μ s)
    {n : Nat} {s : σ} {h t : List (Event C R)} {r : Option β} (hs : Inv s h) (hn : μ s < n)
    (hr : Runs (loop step n s) t r) : r ≠ none := by
  induction n generalizing s h t with
  | zero => omega
  | succ n ih =>
    rcases runs_loop_succ.mp hr with ⟨s', t₁, t₂, rfl, h₁, h₂⟩ | ⟨b, rfl, -⟩
    · obtain ⟨hs', hlt⟩ := hstep s h t₁ s' hs h₁
      exact ih hs' (by omega) h₂
    · simp

/-- A number of rounds of a loop after which it goes on. -/
inductive Rounds (step : σ → Prog C R (σ ⊕ β)) (s : σ) : Nat → List (Event C R) → σ → Prop
  | zero : Rounds step s 0 [] s
  | succ {k : Nat} {t t' : List (Event C R)} {s' s'' : σ} (h : Rounds step s k t s')
      (hs : Runs (step s') t' (.inl s'')) : Rounds step s (k + 1) (t ++ t') s''

theorem Rounds.runs_loop {step : σ → Prog C R (σ ⊕ β)} {s s' : σ} {k n : Nat}
    {t t' : List (Event C R)} {r : Option β} (h : Rounds step s k t s')
    (hr : Runs (loop step n s') t' r) : Runs (loop step (k + n) s) (t ++ t') r := by
  induction h generalizing n t' with
  | zero => simpa using hr
  | @succ k t u s' s'' h hs ih =>
    have hrun : Runs (loop step (n + 1) s') (u ++ t') r :=
      runs_loop_succ.mpr (.inl ⟨s'', u, t', rfl, hs, hr⟩)
    have hk : k + 1 + n = k + (n + 1) := by omega
    rw [List.append_assoc, hk]
    exact ih hrun

section Embed

variable {D : Type} {S : D → Type}

/-- A program in an environment that has more calls. -/
def embed (f : C → D) : Prog C (fun c => S (f c)) α → Prog D S α
  | .pure a => .pure a
  | .call c k => .call (f c) (fun r => embed f (k r))

def Event.embed (f : C → D) (e : Event C (fun c => S (f c))) : Event D S := ⟨f e.1, e.2⟩

theorem runs_embed {f : C → D} {p : Prog C (fun c => S (f c)) α} {t : List (Event D S)} {a : α} :
    Runs (embed f p) t a ↔ ∃ t', t = t'.map (Event.embed f) ∧ Runs p t' a := by
  induction p generalizing t with
  | pure b =>
    constructor
    · rintro ⟨rfl, rfl⟩
      exact ⟨[], rfl, rfl, rfl⟩
    · rintro ⟨_, rfl, rfl, rfl⟩
      exact ⟨rfl, rfl⟩
  | call c k ih =>
    constructor
    · rintro ⟨r, t₁, rfl, h⟩
      obtain ⟨t', rfl, h'⟩ := (ih r).mp h
      exact ⟨⟨c, r⟩ :: t', rfl, r, t', rfl, h'⟩
    · rintro ⟨_, rfl, r, t', rfl, h'⟩
      exact ⟨r, _, rfl, (ih r).mpr ⟨t', rfl, h'⟩⟩

end Embed

end FlashApp.Interaction
