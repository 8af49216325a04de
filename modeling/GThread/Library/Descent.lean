import GThread.Library.Transition
import Mathlib.Logic.Hydra
import Mathlib.Order.RelClasses
import Mathlib.Algebra.BigOperators.Group.Finset.Basic
import Mathlib.Algebra.Order.Group.Multiset

/-! Termination of a system of processes. What the processes have before them is added up; a
step that replaces the part of one process by smaller ones goes down, and a run can go down
only so often. -/
namespace Descent
open Finset Relation Transition
variable {ι P M X : Type*} [DecidableEq ι]

def total [AddCommMonoid M] (I : Finset ι) (f : ι → Option P) (φ : P → M) : M :=
  ∑ i ∈ I, (f i).elim 0 φ

section Total
variable [AddCommMonoid M] {I : Finset ι} {f : ι → Option P} {φ : P → M} {i c : ι} {p p' q : P}

theorem total_update (hi : i ∈ I) (hp : f i = some p) :
    total I (Function.update f i (some p')) φ + φ p = total I f φ + φ p' := by
  have hrest : ∑ j ∈ I.erase i, (Function.update f i (some p') j).elim 0 φ =
      ∑ j ∈ I.erase i, (f j).elim 0 φ :=
    sum_congr rfl fun j hj => by rw [Function.update_of_ne (ne_of_mem_erase hj)]
  rw [total,total,← add_sum_erase I _ hi,← add_sum_erase I (fun j => (f j).elim 0 φ) hi,hrest,hp]
  simp only [Function.update_self,Option.elim]
  rw [add_comm (φ p'),add_comm (φ p),add_right_comm]

theorem total_spawn (hi : i ∈ I) (hp : f i = some p) (hc : c ∉ I) :
    total (insert c I) (Function.update (Function.update f i (some p')) c (some q)) φ + φ p =
      total I f φ + (φ p' + φ q) := by
  have hrest : ∑ j ∈ I, (Function.update (Function.update f i (some p')) c (some q) j).elim 0 φ =
      total I (Function.update f i (some p')) φ :=
    sum_congr rfl fun j hj => by rw [Function.update_of_ne (ne_of_mem_of_not_mem hj hc)]
  rw [total,sum_insert hc,hrest,Function.update_self,Option.elim,add_assoc,total_update hi hp,
    add_comm,add_assoc]

theorem total_keep (hp : f i = some p) (h : φ p' = φ p) :
    total I (Function.update f i (some p')) φ = total I f φ := by
  refine sum_congr rfl fun j _ => ?_
  by_cases hj : j = i
  · subst j
    simp [hp,h]
  · rw [Function.update_of_ne hj]

end Total

section Multiset
variable {r : X → X → Prop} {I : Finset ι} {f : ι → Option P} {φ : P → Multiset X} {i c : ι}
  {p p' q : P} {a : X}

theorem cutExpand_update (hi : i ∈ I) (hp : f i = some p) (ha : φ p = {a})
    (hb : ∀ b ∈ φ p', r b a) :
    CutExpand r (total I (Function.update f i (some p')) φ) (total I f φ) :=
  ⟨φ p',a,hb,ha ▸ total_update hi hp⟩

theorem cutExpand_spawn (hi : i ∈ I) (hp : f i = some p) (hc : c ∉ I) (ha : φ p = {a})
    (hb : ∀ b ∈ φ p', r b a) (hq : ∀ b ∈ φ q, r b a) :
    CutExpand r
      (total (insert c I) (Function.update (Function.update f i (some p')) c (some q)) φ)
      (total I f φ) :=
  ⟨φ p' + φ q,a,fun b h => (Multiset.mem_add.mp h).elim (hb b) (hq b),ha ▸ total_spawn hi hp hc⟩

end Multiset

section Runs
variable {S A B : Type*} {r : B → B → Prop} {μ : S → B} {silent : S → A → Prop}

/-- In an infinite run only silent steps are left from some point on, if all others go down
and the silent ones stay level. -/
theorem eventually_silent (wf : WellFounded r) {run : ℕ → S} {act : ℕ → A}
    (keep : ∀ n, silent (run n) (act n) → μ (run (n + 1)) = μ (run n))
    (down : ∀ n, ¬ silent (run n) (act n) → r (μ (run (n + 1))) (μ (run n))) :
    ∃ N, ∀ n, N ≤ n → silent (run n) (act n) := by
  obtain ⟨b,⟨N,rfl⟩,hmin⟩ := wf.has_min (Set.range (μ ∘ run)) ⟨_,0,rfl⟩
  have hsilent : ∀ n, μ (run n) = μ (run N) → silent (run n) (act n) := by
    intro n hlevel
    by_contra hloud
    refine hmin _ ⟨n + 1,rfl⟩ ?_
    have hdown := down n hloud
    rwa [hlevel] at hdown
  have level : ∀ n, N ≤ n → μ (run n) = μ (run N) ∧ silent (run n) (act n) := by
    intro n hn
    induction n, hn using Nat.le_induction with
    | base => exact ⟨rfl,hsilent N rfl⟩
    | succ n hn ih =>
      have hlevel := (keep n ih.2).trans ih.1
      exact ⟨hlevel,hsilent _ hlevel⟩
  exact ⟨N,fun n hn => (level n hn).2⟩

/-- From every state some run comes to one where only silent steps are left. -/
theorem exists_quiet (step : S → A → S → Prop) (wf : WellFounded r) {J : S → Prop}
    (known : ∀ s a t, J s → step s a t → J t)
    (down : ∀ s a t, J s → step s a t → ¬ silent s a → r (μ t) (μ s)) {s : S} (hs : J s) :
    ∃ t, Reachable step s t ∧ ∀ a u, step t a u → silent t a := by
  induction hb : μ s using wf.induction generalizing s with
  | _ b ih =>
    subst hb
    by_cases hquiet : ∀ a u, step s a u → silent s a
    · exact ⟨s,.refl s,hquiet⟩
    · push Not at hquiet
      obtain ⟨a,u,hu,hloud⟩ := hquiet
      obtain ⟨t,ht,hq⟩ := ih _ (down s a u hs hu hloud) (known s a u hs hu) rfl
      exact ⟨t,((Reachable.refl s).tail hu).trans ht,hq⟩

end Runs
end Descent
