import Mathlib.Logic.Relation
import Mathlib.Data.Nat.Notation

/-! Labelled transition systems: reachable states, the invariant rule, runs whose steps
all meet a guard, observers that watch a run, and the executable form of a step relation. -/
namespace Transition
variable {S A H : Type*} {step : S → A → S → Prop}

def Reachable (step : S → A → S → Prop) : S → S → Prop :=
  Relation.ReflTransGen fun s t => ∃ a, step s a t

theorem Reachable.refl (s : S) : Reachable step s s := Relation.ReflTransGen.refl

theorem Reachable.tail {s t u : S} {a : A} (h : Reachable step s t) (ha : step t a u) :
    Reachable step s u := Relation.ReflTransGen.tail h ⟨a,ha⟩

theorem Reachable.trans {s t u : S} (h : Reachable step s t) (h' : Reachable step t u) :
    Reachable step s u := Relation.ReflTransGen.trans h h'

/-- The invariant rule; `J` is what is already known of every reachable state. -/
theorem Reachable.invariant_within {J I : S → Prop} {s t : S} (h : Reachable step s t)
    (known : ∀ t, Reachable step s t → J t) (start : I s)
    (keep : ∀ t a u, J t → I t → step t a u → I u) : I t := by
  induction h with
  | refl => exact start
  | tail hr ha ih =>
    obtain ⟨a,ha⟩ := ha
    exact keep _ a _ (known _ hr) ih ha

theorem Reachable.invariant {I : S → Prop} {s t : S} (h : Reachable step s t) (start : I s)
    (keep : ∀ t a u, I t → step t a u → I u) : I t :=
  h.invariant_within (J := fun _ => True) (fun _ _ => trivial) start
    (fun t a u _ => keep t a u)

/-- The steps of `step` whose state and label meet `G`. -/
def Guarded (G : S → A → Prop) (step : S → A → S → Prop) (s : S) (a : A) (t : S) : Prop :=
  G s a ∧ step s a t

theorem Reachable.forget {G : S → A → Prop} {s t : S}
    (h : Reachable (Guarded G step) s t) : Reachable step s t :=
  Relation.ReflTransGen.mono (fun _ _ ⟨a,_,ha⟩ => ⟨a,ha⟩) _ _ h

theorem Reachable.forever {s t : S} {a : A} (h : Reachable step s t) (ha : step t a t) :
    ∃ (run : ℕ → S) (act : ℕ → A) (m : ℕ), run 0 = s ∧ run m = t ∧
      ∀ n, step (run n) (act n) (run (n + 1)) := by
  induction h using Relation.ReflTransGen.head_induction_on with
  | refl => exact ⟨fun _ => t,fun _ => a,0,rfl,rfl,fun _ => ha⟩
  | @head u v hu _ ih =>
    obtain ⟨b,hb⟩ := hu
    obtain ⟨run,act,m,hstart,hend,hrun⟩ := ih
    refine ⟨fun n => n.casesOn u run,fun n => n.casesOn b act,m + 1,rfl,hend,fun n => ?_⟩
    cases n with
    | zero =>
      show step u b (run 0)
      rw [hstart]
      exact hb
    | succ n => exact hrun n

/-- A guard that all reachable states meet does not restrict the runs. -/
theorem Reachable.guard {G : S → A → Prop} {s t : S} (h : Reachable step s t)
    (meets : ∀ u a, Reachable step s u → G u a) : Reachable (Guarded G step) s t := by
  induction h with
  | refl => exact .refl s
  | tail hu ha ih =>
    obtain ⟨a,ha⟩ := ha
    exact ih.tail (a := a) ⟨meets _ a hu,ha⟩

theorem Reachable.simulate {step' : S → A → S → Prop} {s t : S} (h : Reachable step s t)
    (meets : ∀ u a v, Reachable step s u → step u a v → step' u a v) : Reachable step' s t := by
  induction h with
  | refl => exact .refl s
  | tail hu ha ih =>
    obtain ⟨a,ha⟩ := ha
    exact ih.tail (meets _ a _ hu ha)

/-- A run together with a value that an observer computes along it. -/
def Observed (obs : S → A → S → H → H) (step : S → A → S → Prop)
    (x : S × H) (a : A) (y : S × H) : Prop :=
  step x.1 a y.1 ∧ y.2 = obs x.1 a y.1 x.2

theorem Reachable.unobserve {obs : S → A → S → H → H} {x y : S × H}
    (h : Reachable (Observed obs step) x y) : Reachable step x.1 y.1 :=
  Relation.ReflTransGen.lift Prod.fst (fun _ _ ⟨a,ha⟩ => ⟨a,ha.1⟩) _ _ h

/-- Watching a run does not restrict it. -/
theorem Reachable.observe (obs : S → A → S → H → H) {s t : S} (h : Reachable step s t)
    (o : H) : ∃ o', Reachable (Observed obs step) (s,o) (t,o') := by
  induction h with
  | refl => exact ⟨o,.refl _⟩
  | tail _ ha ih =>
    obtain ⟨o',ih⟩ := ih
    obtain ⟨a,ha⟩ := ha
    exact ⟨obs _ a _ o',ih.tail (a := a) ⟨ha,rfl⟩⟩

def execute (next : S → A → Option S) : S → List A → Option S
  | s, [] => some s
  | s, a :: as => (next s a).bind fun t => execute next t as

theorem execute_reachable {next : S → A → Option S}
    (sound : ∀ s a t, next s a = some t → step s a t) (as : List A) (s t : S)
    (h : execute next s as = some t) : Reachable step s t := by
  induction as generalizing s with
  | nil =>
    obtain rfl : s = t := Option.some.inj h
    exact .refl s
  | cons a as ih =>
    obtain ⟨u,hu,h⟩ := Option.bind_eq_some_iff.mp h
    exact ((Reachable.refl s).tail (sound s a u hu)).trans (ih u h)

theorem execute_any {next : S → A → Option S}
    (sound : ∀ s a t, next s a = some t → step s a t) {as : List A} {s : S} {f : S → Bool}
    (h : (execute next s as).any f = true) : ∃ t, Reachable step s t ∧ f t = true := by
  obtain ⟨t,ht,hf⟩ := (Option.any_eq_true _ _).mp h
  exact ⟨t,execute_reachable sound as s t ht,hf⟩

def guarded (ok : S → A → Bool) (next : S → A → Option S) (s : S) (a : A) : Option S :=
  if ok s a then next s a else none

theorem guarded_sound {G : S → A → Prop} {ok : S → A → Bool} {next : S → A → Option S}
    (meets : ∀ s a, ok s a = true → G s a)
    (sound : ∀ s a t, next s a = some t → step s a t) (s : S) (a : A) (t : S)
    (h : guarded ok next s a = some t) : Guarded G step s a t := by
  unfold guarded at h
  split at h
  · exact ⟨meets s a ‹_›,sound s a t h⟩
  · cases h

def observe (obs : S → A → S → H → H) (next : S → A → Option S) (x : S × H) (a : A) :
    Option (S × H) :=
  (next x.1 a).map fun t => (t,obs x.1 a t x.2)

theorem observe_sound {obs : S → A → S → H → H} {next : S → A → Option S}
    (sound : ∀ s a t, next s a = some t → step s a t) (x : S × H) (a : A) (y : S × H)
    (h : observe obs next x a = some y) : Observed obs step x a y := by
  obtain ⟨t,ht,rfl⟩ := Option.map_eq_some_iff.mp h
  exact ⟨sound _ _ _ ht,rfl⟩

end Transition
