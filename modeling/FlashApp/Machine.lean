import Mathlib.Data.List.Basic

namespace FlashApp.Machine

variable {σ ℓ : Type}

/-- The states a component gets to, with the history of its steps. -/
inductive Reach (init : σ → Prop) (step : σ → ℓ → σ → Prop) : List ℓ → σ → Prop
  | init {s : σ} (hs : init s) : Reach init step [] s
  | step {h : List ℓ} {s s' : σ} {l : ℓ} (hr : Reach init step h s) (hs : step s l s') :
      Reach init step (h ++ [l]) s'

variable {init : σ → Prop} {step : σ → ℓ → σ → Prop}

/-- What holds at the start and is kept by every step holds in every run. -/
theorem Reach.invariant (Inv : List ℓ → σ → Prop) (hinit : ∀ s, init s → Inv [] s)
    (hstep : ∀ h s l s', Inv h s → step s l s' → Inv (h ++ [l]) s') {h : List ℓ} {s : σ}
    (hr : Reach init step h s) : Inv h s := by
  induction hr with
  | init hs => exact hinit _ hs
  | step _ hs ih => exact hstep _ _ _ _ ih hs

theorem Reach.invariant_labels (Inv : σ → Prop) (P : ℓ → Prop) (hinit : ∀ s, init s → Inv s)
    (hstep : ∀ s l s', Inv s → step s l s' → Inv s' ∧ P l) {h : List ℓ} {s : σ}
    (hr : Reach init step h s) : Inv s ∧ ∀ l ∈ h, P l := by
  apply hr.invariant (fun h s => Inv s ∧ ∀ l ∈ h, P l)
  · intro s hs
    exact ⟨hinit s hs, by simp⟩
  · rintro h s l s' ⟨hi, hp⟩ hs
    obtain ⟨hi', hl⟩ := hstep s l s' hi hs
    refine ⟨hi', ?_⟩
    intro l' hl'
    obtain hl' | hl' := List.mem_append.mp hl'
    · exact hp l' hl'
    · rw [List.mem_singleton.mp hl']
      exact hl

theorem Reach.trans {h h' : List ℓ} {s s' : σ} (hr : Reach init step h s)
    (hr' : Reach (· = s) step h' s') : Reach init step (h ++ h') s' := by
  induction hr' with
  | init hs =>
    subst hs
    rwa [List.append_nil]
  | step _ hs ih =>
    rw [← List.append_assoc]
    exact ih.step hs

theorem Reach.single {s s' : σ} {l : ℓ} (hs : step s l s') : Reach (· = s) step [l] s' := by
  have hinit : Reach (· = s) step [] s := .init rfl
  exact hinit.step hs

/-- The history determines the state if each step does. -/
theorem Reach.unique (hinit : ∀ s s', init s → init s' → s = s')
    (hstep : ∀ s l s₁ s₂, step s l s₁ → step s l s₂ → s₁ = s₂) {h : List ℓ} {s s' : σ}
    (hr : Reach init step h s) (hr' : Reach init step h s') : s = s' := by
  induction hr generalizing s' with
  | init hs =>
    generalize hnil : ([] : List ℓ) = h at hr'
    cases hr' with
    | init hs' => exact hinit _ _ hs hs'
    | step _ _ => simp at hnil
  | @step h s s₁ l _ hs ih =>
    generalize hlong : h ++ [l] = h' at hr'
    cases hr' with
    | init _ => simp at hlong
    | step hr₂ hs₂ =>
      obtain ⟨rfl, hl⟩ := List.append_inj' hlong rfl
      obtain ⟨rfl, -⟩ := List.cons.inj hl
      obtain rfl := ih hr₂
      exact hstep _ _ _ _ hs hs₂

end FlashApp.Machine
