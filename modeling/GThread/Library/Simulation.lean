import GThread.Library.Transition

/-! Simulation of one transition system by another: every step of the first is matched by at
most one step of the second. -/
namespace Transition
variable {S A T B : Type*} {step : S → A → S → Prop} {step' : T → B → T → Prop}
  {J : S → Prop} {R : S → T → Prop}

/-- Between states in which `J` is known, a step keeps `R` if the second system stays or makes
one step of its own. -/
def Simulates (step : S → A → S → Prop) (step' : T → B → T → Prop) (J : S → Prop)
    (R : S → T → Prop) : Prop :=
  ∀ s a s' t, J s → J s' → R s t → step s a s' → R s' t ∨ ∃ b t', step' t b t' ∧ R s' t'

/-- Every reachable state is related to a reachable one. -/
theorem Simulates.reachable (h : Simulates step step' J R) {s s' : S} {t : T}
    (known : ∀ u, Reachable step s u → J u) (start : R s t) (hr : Reachable step s s') :
    ∃ t', Reachable step' t t' ∧ R s' t' := by
  induction hr with
  | refl => exact ⟨t,.refl t,start⟩
  | @tail u v hu ha ih =>
    obtain ⟨y,hy,hR⟩ := ih
    obtain ⟨a,ha⟩ := ha
    obtain hR' | ⟨b,z,hb,hR'⟩ := h u a v y (known u hu) (known v (hu.tail ⟨a,ha⟩)) hR ha
    · exact ⟨y,hy,hR'⟩
    · exact ⟨z,hy.tail hb,hR'⟩

end Transition
