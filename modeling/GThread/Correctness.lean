import GThread.JoinOrder

/-! Total correctness. A fork-join program whose code ends, that stays inside the heap, has no
data race and, on the ordered build, joins its threads in order, can be run to its end from
wherever a run has come, and what it leaves then is what the sequential program computes. -/
namespace GThread
open Replay Transition
variable {σ τ : Type}

def Proc.places (p : Proc σ) : List σ :=
  match p.pc with
  | .wait _ k => [k]
  | _ => p.points

section
variable {S : System σ} {s s' : State σ} {P : σ → Prop}

theorem places_step (closed : ∀ y z, P y → S.Next z y → P z) {x : Nat × Act} (h : Step S s x s')
    (hs : Sound S s) (hp : ∀ q p, s.procs q = some p → ∀ y ∈ p.places, P y) :
    ∀ q p, s'.procs q = some p → ∀ y ∈ p.places, P y := by
  have go {q : Nat} {p p' : Proc σ} (hq : s.procs q = some p) (sub : p'.places ⊆ p.places) :
      ∀ y ∈ p'.places, P y := fun y hy => hp q p hq y (sub hy)
  cases h with
  | @atomicBegin pid p c hq hpc hm =>
    exact forall_put hp (go hq (by simp [Proc.places,Proc.points,Proc.atomicBegin,hpc]))
  | @load pid p a k i m hq hpc hk ha hm =>
    have hold := hp pid p hq
    simp only [Proc.places,Proc.points,hpc,List.mem_cons,List.not_mem_nil,or_false,
      forall_eq_or_imp,forall_eq] at hold
    refine forall_put hp ?_
    simpa [Proc.places,Proc.points,hpc,hold.1] using closed _ _ hold.2 (S.next_load hk _)
  | @store pid p a b k i m hq hpc hk ha hm =>
    have hold := hp pid p hq
    simp only [Proc.places,Proc.points,hpc,List.mem_cons,List.not_mem_nil,or_false,
      forall_eq_or_imp,forall_eq] at hold
    refine forall_put hp ?_
    simpa [Proc.places,Proc.points,hpc,hold.1] using closed _ _ hold.2 (S.next_store hk)
  | @fault pid p t a hq hpc ha hf =>
    exact forall_put hp (go hq (by simp [Proc.places,Proc.points,hpc]))
  | @atomicEnd pid p e hq hpc he =>
    refine forall_put hp (go hq ?_)
    unfold Proc.atomicEnd
    split <;> simp [Proc.places,Proc.points,hpc]
  | @fork pid p e child f c hq hpc hf hc hn =>
    have hcur : P p.cur := hp pid p hq p.cur (by simp [Proc.places,Proc.points,hpc])
    have hend := (hs.each pid p hq).ending e (by rw [hpc]; rfl)
    have hnext : P (c child).next :=
      closed _ _ hcur (S.next_of_resumes (S.resumes_fork hend hf child))
    have hchild : P f := closed _ _ hcur (S.next_of_fork hend hf)
    exact forall_fork hp (by simpa [Proc.places,Proc.points] using hnext)
      (by simpa [Proc.places,Proc.points] using hchild)
  | @join pid p t k hq hpc =>
    have hcur : P p.cur := hp pid p hq p.cur (by simp [Proc.places,Proc.points,hpc])
    have hend := (hs.each pid p hq).ending _ (by rw [hpc]; rfl)
    have hnext : P k := closed _ _ hcur (S.next_of_resumes (S.resumes_join hend))
    exact forall_put hp (by simpa [Proc.places] using hnext)
  | memcpy | reap => exact hp
  | waited hq hpc hw | joined hq hpc hw =>
    have hput := (waitExited_procs hw).symm ▸ hp
    exact forall_put hput (go hq (by simp [Proc.places,Proc.points,hpc]))
  | @commit pid p e hq hpc hm hc =>
    exact forall_put (p := { p with pc := .commit e p.writeSetVersion.keys }) hp
      (go hq (by simp [Proc.places,Proc.points,hpc]))
  | @reject pid p e hq hpc hm hc =>
    exact forall_put (p := { p with pc := .abort }) hp
      (go hq (by simp [Proc.places,Proc.points,hpc]))
  | @publish pid p e todo page v hq hpc hv =>
    exact forall_put (s := s.write _) (p := { p with pc := .commit e todo }) hp
      (go hq (by simp [Proc.places,Proc.points,hpc]))
  | @unlock pid p e hq hpc =>
    exact forall_put (p := { p with
      toAttempt := p.toAttempt.updateHeap s.past.length
      pc := .ended e }) hp (go hq (by simp [Proc.places,Proc.points,hpc]))
  | page hq hpc | abort hq hpc =>
    exact forall_put hp (go hq (by simp [Proc.places,Proc.points,hpc]))
  | killed | signaled | forkFailed | interrupted | exit =>
    exact forall_put hp fun y hy => by simp [Proc.places,Proc.points] at hy

theorem places_reachable (closed : ∀ y z, P y → S.Next z y → P z) {root : Nat} {x : σ}
    {file : Heap} (hx : P x) (h : Reachable (Step S) (initial root x file) s) :
    ∀ q p, s.procs q = some p → ∀ y ∈ p.places, P y := by
  refine h.invariant_within (fun t ht => sound_reachable ht) (fun q p hp y hy => ?_)
    fun t a u hs hi hstep => places_step closed hstep hs hi
  have hy : y = x := by simpa [Proc.places,Proc.points,(initial_procs hp).2] using hy
  exact hy ▸ hx

end
section
variable {code : τ → Cmd τ} {S : System (τ × List Nat)} {s s' : State (τ × List Nat)} {x : τ}

theorem accesses_next (hS : S.code = forkJoin code) {y z : τ × List Nat} (h : S.Next z y)
    {a : Nat} (ha : Accesses code z.1 a) : Accesses code y.1 a := by
  unfold System.Next at h
  rw [hS] at h
  unfold forkJoin at h
  cases hc : code y.1 with
  | load b k =>
    obtain ⟨v,rfl⟩ : ∃ v, z = (k v,y.2) := by simpa [hc] using h
    exact ha.mono fun w => .load hc
  | store b v k =>
    obtain rfl : z = (k,y.2) := by simpa [hc] using h
    exact ha.mono fun w => .store hc
  | create f k =>
    obtain rfl | ⟨c,rfl⟩ : z = (f,[]) ∨ ∃ c, z = (k,y.2 ++ [c]) := by simpa [hc] using h
    · exact ha.mono fun w => .child hc
    · exact ha.mono fun w => .create hc
  | join i k =>
    obtain rfl : z = (k,y.2) := by simpa [hc] using h
    exact ha.mono fun w => .join hc
  | ret => simp [hc] at h

def State.Regular (s : State σ) : Prop :=
  ∀ q p e, s.procs q = some p → p.pc = .zombie e → e = .finished

theorem regular_step {a : Nat × Act} (h : Step S s a s') (hfail : ¬ a.2.failure)
    (hin : ∀ q p, s.procs q = some p → p.pc = .run → ∀ b, S.Touches p.cur b → S.layout.InHeap b)
    (hr : s.Regular) : s'.Regular := by
  have stay : ∀ q p, s.procs q = some p → ∀ e, p.pc = .zombie e → e = .finished :=
    fun q p hp e he => hr q p e hp he
  suffices hnew : ∀ q p, s'.procs q = some p → ∀ e, p.pc = .zombie e → e = .finished from
    fun q p e hp he => hnew q p hp e he
  cases h with
  | signaled | interrupted | forkFailed => exact absurd trivial hfail
  | @killed pid p b e hp hpc ha hf =>
    obtain ⟨t,ht⟩ := segfaultHandler_inHeap p.toAttempt
      (hin pid p hp hpc b (System.touches_of_faultAddr ha))
    cases ht.symm.trans hf
  | exit hp hpc => exact forall_put stay fun e he => (PC.zombie.inj he).symm
  | memcpy | reap => exact stay
  | waited hp hpc hw | joined hp hpc hw =>
    exact forall_put ((waitExited_procs hw).symm ▸ stay) fun e he => by cases he
  | fork => exact forall_fork stay (fun e he => by cases he) fun e he => by cases he
  | load hp hpc | store hp hpc | fault hp hpc =>
    exact forall_put stay fun e he => by cases hpc.symm.trans he
  | atomicEnd hp hpc he =>
    refine forall_put stay fun e he => ?_
    unfold Proc.atomicEnd at he
    split at he <;> cases he
  | _ => exact forall_put stay fun e he => by cases he

/-- Code that stays inside the heap ends regularly unless the system fails it. -/
theorem regular_reachable (hS : S.code = forkJoin code)
    (haddr : ∀ b, Accesses code x b → S.layout.InHeap b) {root : Nat} {file : Heap}
    (h : Reachable (Guarded (fun _ y => ¬ y.2.failure) (Step S)) (initial root (x,[]) file) s) :
    s.Regular := by
  refine h.invariant_within
    (J := fun t => ∀ q p, t.procs q = some p → ∀ y ∈ p.places, ∀ b, Accesses code y.1 b →
      S.layout.InHeap b) (fun t ht => ?_) (fun q p e hp he => ?_) fun t a u hin hr hgo => ?_
  · exact places_reachable (P := fun y => ∀ b, Accesses code y.1 b → S.layout.InHeap b)
      (fun y z hy hz b hb => hy b (accesses_next hS hz hb)) haddr ht.forget
  · cases (initial_procs hp).2.symm.trans he
  · refine regular_step hgo.2 hgo.1 (fun q p hp hpc b hb => ?_) hr
    refine hin q p hp p.cur (by simp [Proc.places,Proc.points,hpc]) b ?_
    obtain ⟨k,hk⟩ | ⟨v,k,hk⟩ := hb
    · obtain ⟨k',hk',-⟩ := forkJoin_load (hS ▸ hk)
      exact .inr ⟨p.cur.1,k',.refl,hk'⟩
    · obtain ⟨k',hk',-⟩ := forkJoin_store (hS ▸ hk)
      exact .inl ⟨p.cur.1,v,k',.refl,hk'⟩

theorem State.Over.finished {σ : Type} {t : State σ} (ho : t.Over) (hr : t.Regular) :
    ∀ q p, t.procs q = some p → p.pc = .zombie .finished := by
  intro q p hp
  obtain ⟨e,hpc⟩ := PC.exited_iff.mp (ho q p hp).1
  rw [hpc,hr q p e hp hpc]

end

/-- The ordered build needs joins in order for what the unordered build always has. -/
theorem not_deadlocked {code : τ → Cmd τ} {S : System (τ × List Nat)}
    (hS : S.code = forkJoin code) {x : τ} (hjoin : S.order = true → JoinsInOrder code x)
    {root : Nat} (hroot : root ≠ 0) {file : Heap} {s : State (τ × List Nat)}
    (h : Reachable (Step S) (initial root (x,[]) file) s) (D : Set Nat) : ¬ s.Deadlocked D := by
  cases horder : S.order with
  | true => exact (hjoin horder).not_deadlocked hS horder hroot h D
  | false => exact (descending_forkJoin hS horder hroot h).not_deadlocked D

/-- Total correctness: from wherever a run without failures of the system has come, some run leads
on to the end, every run that cannot go on is at the end, and at every end the file holds what the
sequential program computes. -/
theorem total_correctness (code : τ → Cmd τ) (S : System (τ × List Nat))
    (hS : S.code = forkJoin code) (hlive : S.live = true) (hends : WellFounded (Follows code))
    (root : Nat) (hroot : root ≠ 0) (x : τ) (hjoin : S.order = true → JoinsInOrder code x)
    (haddr : ∀ b, Accesses code x b → S.layout.InHeap b) (file : Heap)
    (hrace : ∀ a, Reachable (AtomicStep S) (.initial root (x,[]) file) a → a.RaceFree code S)
    (s : State (τ × List Nat))
    (h : Reachable (Guarded (fun _ y => ¬ y.2.failure) (Step S)) (initial root (x,[]) file) s) :
    ∃ H, Seq code x file H ∧
      (∃ t, Reachable (Guarded (fun _ y => ¬ y.2.failure) (Step S)) s t ∧ t.Over) ∧
      ∀ t, Reachable (Guarded (fun _ y => ¬ y.2.failure) (Step S)) s t →
        (S.Idle t → t.Over) ∧ (t.Over → t.now.bytes = H) := by
  have hfree {t : State (τ × List Nat)} (ht : Reachable (Step S) (initial root (x,[]) file) t) :
      ∀ D, ¬ t.Deadlocked D := not_deadlocked hS hjoin hroot ht
  have result {t : State (τ × List Nat)}
      (ht : Reachable (Guarded (fun _ y => ¬ y.2.failure) (Step S)) (initial root (x,[]) file) t)
      (ho : t.Over) : Seq code x file t.now.bytes :=
    sequential_of_independent hS hlive (fun a ha => (hrace a ha).independent) ht.forget
      (ho.finished (regular_reachable hS haddr ht))
  obtain ⟨t,ht,ho⟩ := completes hS hends (fun t ht => hfree ht) h.forget
  have hH := result (h.trans ht) ho
  refine ⟨t.now.bytes,hH,⟨t,ht,ho⟩,fun u hu => ⟨?_,fun huo => ?_⟩⟩
  · exact over_of_idle hS (h.trans hu).forget (hfree (h.trans hu).forget)
  · exact (result (h.trans hu) huo).unique hH

theorem Halves.inHeap : ∀ b, Accesses Halves.code .main b → Layout.adjacent.InHeap b := by
  intro b hb
  obtain rfl | rfl : b = 0x100000 ∨ b = 0x100001 := Halves.separated.accesses hb <;> decide

/-- On the ordered build, after a rollback. -/
theorem total_correctness_halves : ∃ s H,
    Reachable (Step (ordered Halves.code .adjacent true)) (initial 1 (.main,[]) fun _ => 0) s ∧
    s.rollbackCount = 1 ∧ ¬ s.Over ∧ Seq Halves.code .main (fun _ => 0) H ∧
    ∃ t, Reachable (Step (ordered Halves.code .adjacent true)) s t ∧ t.Over ∧
      t.now.bytes = H := by
  obtain ⟨s,hs,hv⟩ := System.run_unfailing (ordered Halves.code .adjacent true)
    (initial 1 (.main,[]) fun _ => 0) orderedHalvesRun
    (fun s => s.rollbackCount = 1 && (s.procs 3).any fun p => !p.pc.exited) (by decide +kernel)
  simp only [Bool.and_eq_true,decide_eq_true_eq,Option.any_eq_true,Bool.not_eq_true'] at hv
  obtain ⟨hr,p,hp,hlive⟩ := hv
  obtain ⟨H,hH,⟨t,ht,ho⟩,hend⟩ := total_correctness Halves.code
    (ordered Halves.code .adjacent true) rfl rfl Halves.wf_follows 1 (by decide) .main
    (fun _ => Halves.joinsInOrder) Halves.inHeap (fun _ => 0)
    (fun a ha => raceFree_of_separated Halves.separated rfl ha) s hs
  exact ⟨s,H,hs.forget,hr,fun h => absurd (h 3 p hp).1 (by simp [hlive]),hH,t,ht.forget,ho,
    (hend t ht).2 ho⟩

end GThread
