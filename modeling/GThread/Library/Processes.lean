import Mathlib.Logic.Function.Basic

/-! The running processes of a system as a partial map from pids to what each holds: rules for
one of them being born, changing or ending. -/
namespace Processes
variable {P : Type*} {I : Nat → P → Prop} {procs : Nat → Option P} {pid : Nat}

theorem ne_of_none {q c : Nat} {p : P} (hq : procs q = some p) (hc : procs c = none) : q ≠ c := by
  intro h
  rw [h,hc] at hq
  cases hq

theorem forall_update_ne {o : Option P} (old : ∀ q p, q ≠ pid → procs q = some p → I q p)
    (new : ∀ p, o = some p → I pid p) :
    ∀ q p, Function.update procs pid o q = some p → I q p := by
  intro q p hp
  by_cases hq : q = pid
  · subst q
    exact new p (by simpa using hp)
  · exact old q p hq (by simpa [hq] using hp)

theorem forall_put {p : P} (old : ∀ q r, procs q = some r → I q r) (new : I pid p) :
    ∀ q r, Function.update procs pid (some p) q = some r → I q r := by
  refine forall_update_ne (fun q r _ => old q r) fun r hr => ?_
  obtain rfl := Option.some.inj hr
  exact new

theorem forall_drop (old : ∀ q r, procs q = some r → I q r) :
    ∀ q r, Function.update procs pid none q = some r → I q r :=
  forall_update_ne (fun q r _ => old q r) nofun

section Related
variable {Q : Type*} {R : P → Q → Prop} {others : Nat → Option Q}

theorem rel_some {p : P} {o : Option Q} (h : Option.Rel R (some p) o) :
    ∃ q, o = some q ∧ R p q := by
  cases h with
  | some h => exact ⟨_,rfl,h⟩

theorem rel_some_right {o : Option P} {q : Q} (h : Option.Rel R o (some q)) :
    ∃ p, o = some p ∧ R p q := by
  cases h with
  | some h => exact ⟨_,rfl,h⟩

theorem rel_none {o : Option Q} (h : Option.Rel R none o) : o = none := by
  cases h
  rfl

theorem rel_update (h : ∀ q, Option.Rel R (procs q) (others q)) {p : P} {r : Q} (hr : R p r)
    (q : Nat) : Option.Rel R (Function.update procs pid (some p) q)
      (Function.update others pid (some r) q) := by
  by_cases hq : q = pid
  · subst q
    simpa using hr
  · simpa [hq] using h q

theorem rel_update_left (h : ∀ q, Option.Rel R (procs q) (others q)) {p : P} {r : Q}
    (hpid : others pid = some r) (hr : R p r) (q : Nat) :
    Option.Rel R (Function.update procs pid (some p) q) (others q) := by
  by_cases hq : q = pid
  · subst q
    simpa [hpid] using hr
  · simpa [hq] using h q

end Related
end Processes
