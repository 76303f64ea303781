import Mathlib.Logic.Basic

/-! # Runs of a transition function

`Along step prop s ops` says that `prop` holds of every state of the run and the
operation taken there. -/

set_option autoImplicit false

namespace Phonograph.Lib

variable {σ ι : Type} (step : σ → ι → σ)

def Along (prop : σ → ι → Prop) : σ → List ι → Prop
  | _, [] => True
  | s, op :: ops => prop s op ∧ Along prop (step s op) ops

instance (prop : σ → ι → Prop) [∀ s op, Decidable (prop s op)] :
    ∀ (ops : List ι) (s : σ), Decidable (Along step prop s ops)
  | [], _ => inferInstanceAs (Decidable True)
  | op :: ops, s =>
      have := instDecidableAlong prop ops (step s op)
      inferInstanceAs (Decidable (prop s op ∧ Along step prop (step s op) ops))

variable {step} (inv : σ → Prop) {prop cond : σ → ι → Prop}

/-- Two properties of steps that agree in the states of an invariant, which each
step with the property keeps, agree along every run. -/
theorem along_iff (same : ∀ s op, inv s → (prop s op ↔ cond s op))
    (kept : ∀ s op, inv s → prop s op → inv (step s op)) :
    ∀ (ops : List ι) (s : σ), inv s → (Along step prop s ops ↔ Along step cond s ops) := by
  intro ops
  induction ops with
  | nil => intro s _; exact Iff.rfl
  | cons op ops ih =>
      intro s start
      constructor
      · rintro ⟨first, rest⟩
        exact ⟨(same s op start).mp first, (ih _ (kept s op start first)).mp rest⟩
      · rintro ⟨first, rest⟩
        have here := (same s op start).mpr first
        exact ⟨here, (ih _ (kept s op start here)).mpr rest⟩

/-- A condition that leads to a property in the states of an invariant leads to it along
every run. -/
theorem along_of (leads : ∀ s op, inv s → cond s op → prop s op)
    (kept : ∀ s op, inv s → prop s op → inv (step s op)) :
    ∀ (ops : List ι) (s : σ), inv s → Along step cond s ops → Along step prop s ops := by
  intro ops
  induction ops with
  | nil => exact fun _ _ _ => trivial
  | cons op ops ih =>
      rintro s start ⟨first, rest⟩
      have here := leads s op start first
      exact ⟨here, ih _ (kept s op start here) rest⟩

theorem along_and : ∀ (ops : List ι) (s : σ), Along step (fun s op => prop s op ∧ cond s op) s ops ↔
    Along step prop s ops ∧ Along step cond s ops := by
  intro ops
  induction ops with
  | nil => intro s; exact (and_self_iff (a := True)).symm
  | cons op ops ih =>
      intro s
      simp only [Along, ih]
      exact and_and_and_comm

end Phonograph.Lib
