import GThread.Tracking

/-! Processes over a run: none disappears, a fork gives each its parent and its place in the
order, an exited one stays as it is, and only exited ones are reaped. -/
namespace GThread
open Replay Transition Insertion
variable {σ : Type}

theorem others_step {S : System σ} {s s' : State σ} {pid : Nat} {act : Act}
    (h : Step S s (pid,act) s') {q : Nat} (hq : q ≠ pid) (hc : act ≠ .fork q) :
    s'.procs q = s.procs q := by
  cases h with
  | waited _ _ hw | joined _ _ hw =>
    rw [← waitExited_procs hw]
    simp [State.put,hq]
  | memcpy | reap => rfl
  | @fork _ _ _ child =>
    have hne : q ≠ child := fun h => hc (h ▸ rfl)
    simp [System.forkChild,State.put,hq,hne]
  | _ => simp [State.put,State.write,hq]

theorem present_update {procs : Nat → Option (Proc σ)} {pid : Nat} {r : Proc σ}
    (hr : procs pid = some r) (p : Proc σ) (q : Nat) :
    Function.update procs pid (some p) q ≠ none ↔ procs q ≠ none := by
  by_cases hq : q = pid
  · subst q
    simp [hr]
  · simp [hq]

theorem present_step {S : System σ} {s s' : State σ} {x : Nat × Act} (h : Step S s x s')
    (q : Nat) : s'.procs q ≠ none ↔ s.procs q ≠ none ∨ x.2 = .fork q := by
  cases h with
  | waited hp hpc hw | joined hp hpc hw =>
    obtain ⟨rfl,-⟩ | ⟨rfl,-⟩ := waitExited_spec hw <;>
      exact (present_update hp _ q).trans (or_iff_left nofun).symm
  | memcpy | reap => simp [State.write]
  | @fork pid p e child f c hp hpc hf hc hn =>
    by_cases hq : q = child
    · subst q
      simp [System.forkChild,State.put]
    · have hsame : (S.forkChild s pid child p f c).procs q =
          Function.update s.procs pid
            (some { p with predecessor := child, pc := .atomicBegin (c child) }) q :=
        Function.update_of_ne hq _ _
      rw [hsame,present_update hp]
      simp [Ne.symm hq]
  | _ => exact (present_update ‹_› _ q).trans (or_iff_left nofun).symm

theorem order_step {S : System σ} {s s' : State σ} {pid : Nat} {act : Act}
    (h : Step S s (pid,act) s') : (s'.order = s.order ∧ ∀ c, act ≠ .fork c) ∨
    ∃ child, act = .fork child ∧ child ≠ 0 ∧ s.procs pid ≠ none ∧ s.procs child = none ∧
      s'.order = insertBefore pid child s.order := by
  cases h with
  | @fork _ p e child f c hp hpc hf hc hn =>
    exact .inr ⟨child,rfl,hc,by simp [hp],hn,rfl⟩
  | waited hp hpc hw | joined hp hpc hw =>
    obtain ⟨rfl,-⟩ | ⟨rfl,-⟩ := waitExited_spec hw <;> exact .inl ⟨rfl,nofun⟩
  | _ => exact .inl ⟨rfl,nofun⟩

theorem mem_order_step {S : System σ} {s s' : State σ} {x : Nat × Act} (h : Step S s x s')
    (hs : ∀ q, q ∈ s.order ↔ s.procs q ≠ none) (q : Nat) :
    q ∈ s'.order ↔ s'.procs q ≠ none := by
  obtain ⟨pid,act⟩ := x
  rw [present_step h q,← hs q]
  obtain ⟨ho,hact⟩ | ⟨child,rfl,-,hpid,-,ho⟩ := order_step h
  · rw [ho,or_iff_left (hact q)]
  · rw [ho,mem_insertBefore ((hs pid).mpr hpid),or_comm,Act.fork.injEq,eq_comm]

theorem mem_order_reachable {S : System σ} {root : Nat} {x : σ} {file : Heap} {s : State σ}
    (h : Reachable (Step S) (initial root x file) s) (q : Nat) :
    q ∈ s.order ↔ s.procs q ≠ none := by
  have start : ∀ q, q ∈ (initial root x file).order ↔ (initial root x file).procs q ≠ none := by
    intro q
    by_cases hq : q = root <;> simp [initial,hq]
  exact h.invariant (I := fun s => ∀ q, q ∈ s.order ↔ s.procs q ≠ none) start
    (fun _ _ _ hs hstep => mem_order_step hstep hs) q

theorem kin_step {S : System σ} {s s' : State σ} {x : Nat × Act} (h : Step S s x s') :
    ∀ q r', s'.procs q = some r' →
      (∃ r, s.procs q = some r ∧ r'.parent = r.parent ∧ r'.elder = r.elder ∧
        (r'.predecessor = r.predecessor ∨ x = (q,.fork r'.predecessor))) ∨
      x = (r'.parent,.fork q) ∧ s.procs q = none ∧ r'.predecessor = r'.elder ∧
        (S.order = false → r'.elder = 0) := by
  have stay : ∀ q r', s.procs q = some r' →
      (∃ r, s.procs q = some r ∧ r'.parent = r.parent ∧ r'.elder = r.elder ∧
        (r'.predecessor = r.predecessor ∨ x = (q,.fork r'.predecessor))) ∨
      x = (r'.parent,.fork q) ∧ s.procs q = none ∧ r'.predecessor = r'.elder ∧
        (S.order = false → r'.elder = 0) := fun q r' hr' => .inl ⟨r',hr',rfl,rfl,.inl rfl⟩
  cases h with
  | @fork pid p e child f c hp hpc hf hc hn =>
    exact forall_fork stay (.inl ⟨p,hp,rfl,rfl,.inr rfl⟩)
      (.inr ⟨rfl,hn,rfl,fun ho => by simp [ho]⟩)
  | waited hp hpc hw | joined hp hpc hw =>
    obtain ⟨rfl,-⟩ | ⟨rfl,-⟩ := waitExited_spec hw <;>
    exact forall_put stay (.inl ⟨_,hp,rfl,rfl,.inl rfl⟩)
  | memcpy | reap => exact stay
  | atomicEnd hp hpc he =>
    refine forall_put stay (.inl ⟨_,hp,?_⟩)
    unfold Proc.atomicEnd
    split <;> exact ⟨rfl,rfl,.inl rfl⟩
  | _ =>
    have hp := ‹s.procs _ = some _›
    exact forall_put stay (.inl ⟨_,hp,rfl,rfl,.inl rfl⟩)

theorem parent_step {S : System σ} {s s' : State σ} {x : Nat × Act} (h : Step S s x s')
    {c : Nat} {r : Proc σ} (hr : s.procs c = some r) :
    ∃ r', s'.procs c = some r' ∧ r'.parent = r.parent ∧ r'.elder = r.elder := by
  obtain ⟨r',hr'⟩ := Option.ne_none_iff_exists'.mp ((present_step h c).mpr (.inl (by simp [hr])))
  obtain ⟨r₀,hr₀,hp,he,-⟩ | ⟨-,hn,-⟩ := kin_step h c r' hr'
  · cases hr.symm.trans hr₀
    exact ⟨r',hr',hp,he⟩
  · cases hn.symm.trans hr

theorem actor_step {S : System σ} {s s' : State σ} {pid : Nat} {act : Act}
    (h : Step S s (pid,act) s') : ∃ p, s.procs pid = some p ∧
      (p.pc.exited = true → s'.procs pid = some p) := by
  cases h with
  | reap hp he ho => exact ⟨_,hp,fun _ => hp⟩
  | interrupted hp hq hu =>
    refine ⟨_,hp,fun he => ?_⟩
    obtain ⟨e,hpc,-⟩ | ⟨k,hpc⟩ := Proc.waitsFor_cases hq <;> simp [hpc,PC.exited] at he
  | atomicBegin hp hpc | load hp hpc | store hp hpc | fault hp hpc | killed hp hpc
  | signaled hp hpc | atomicEnd hp hpc | waited hp hpc | commit hp hpc | reject hp hpc | page hp hpc
  | memcpy hp hpc | publish hp hpc | unlock hp hpc | abort hp hpc | fork hp hpc
  | forkFailed hp hpc | join hp hpc | joined hp hpc | exit hp hpc =>
    exact ⟨_,hp,fun he => by simp [hpc,PC.exited] at he⟩

theorem exited_step {S : System σ} {s s' : State σ} {x : Nat × Act} (h : Step S s x s')
    {q : Nat} {p : Proc σ} (hq : s.procs q = some p) (he : p.pc.exited = true) :
    s'.procs q = some p := by
  obtain ⟨pid,act⟩ := x
  by_cases hpid : q = pid
  · subst q
    obtain ⟨p',hp',hstay⟩ := actor_step h
    cases hq.symm.trans hp'
    exact hstay he
  · refine (others_step h hpid ?_).trans hq
    intro heq
    subst heq
    cases h with
    | fork hp hpc hf hc hn => simp [hq] at hn

def State.ReapedExited (s : State σ) : Prop :=
  ∀ q ∈ s.reaped, ∃ p, s.procs q = some p ∧ p.pc.exited = true

theorem reapedExited_step {S : System σ} {s s' : State σ} {x : Nat × Act} (h : Step S s x s')
    (hr : s.ReapedExited) : s'.ReapedExited := by
  have hold : ∀ q, q ∈ s.reaped ∨ (∃ p, s.procs q = some p ∧ p.pc.exited = true) →
      ∃ p, s'.procs q = some p ∧ p.pc.exited = true := by
    intro q hq
    obtain ⟨p,hp,he⟩ := hq.elim (hr q) id
    exact ⟨p,exited_step h hp he,he⟩
  intro q hq
  refine hold q ?_
  cases h with
  | waited _ _ hw | joined _ _ hw =>
    obtain ⟨rfl,-⟩ | ⟨rfl,r,hr,-,he⟩ := waitExited_spec hw
    · exact .inl hq
    · obtain rfl | hq := Finset.mem_insert.mp hq
      · exact .inr ⟨r,hr,he⟩
      · exact .inl hq
  | reap hp he ho =>
    obtain rfl | hq := Finset.mem_insert.mp hq
    · exact .inr ⟨_,hp,he⟩
    · exact .inl hq
  | _ => exact .inl hq

theorem reapedExited_reachable {S : System σ} {root : Nat} {x : σ} {file : Heap} {s : State σ}
    (h : Reachable (Step S) (initial root x file) s) : s.ReapedExited :=
  h.invariant (fun _ hq => by simp [initial] at hq) fun _ _ _ hr hstep =>
    reapedExited_step hstep hr

theorem waitExited_exited {s s' : State σ} (hr : s.ReapedExited) {pid q : Nat}
    (h : s.waitExited pid q = some s') (hq : q ≠ 0) {r : Proc σ} (hp : s.procs q = some r) :
    r.pc.exited = true := by
  obtain ⟨-,h0 | hn | hreaped⟩ | ⟨-,r',hr',-,he⟩ := waitExited_spec h
  · exact absurd h0 hq
  · cases hp.symm.trans hn
  · obtain ⟨r',hr',he⟩ := hr q hreaped
    cases hp.symm.trans hr'
    exact he
  · cases hp.symm.trans hr'
    exact he

def State.Exited (s : State σ) (q : Nat) : Prop := ∃ r, s.procs q = some r ∧ r.pc.exited = true

theorem exited_mono {S : System σ} {s s' : State σ} {x : Nat × Act} (h : Step S s x s') {q : Nat}
    (hq : s.Exited q) : s'.Exited q := by
  obtain ⟨r,hr,he⟩ := hq
  exact ⟨r,exited_step h hr he,he⟩

theorem predecessor_exited {s s' : State σ} (hr : s.ReapedExited) {pid : Nat} {p : Proc σ}
    (present : p.predecessor = 0 ∨ s.procs p.predecessor ≠ none)
    (h : s.waitExited pid p.predecessor = some s') :
    p.predecessor = 0 ∨ s.Exited p.predecessor := by
  refine or_iff_not_imp_left.mpr fun h0 => ?_
  obtain ⟨r,hr'⟩ := Option.ne_none_iff_exists'.mp (present.resolve_left h0)
  exact ⟨r,hr',waitExited_exited hr h h0 hr'⟩

def PC.pastWait {σ : Type} : PC σ → Prop
  | .lock _ | .commit _ _ | .copy _ _ _ => True
  | _ => False

/-- A process past its wait was there before, or its left neighbour has exited. -/
theorem pastWait_step {S : System σ} {s s' : State σ} {x : Nat × Act} (h : Step S s x s')
    (hr : s.ReapedExited)
    (present : ∀ q p, s.procs q = some p → p.predecessor = 0 ∨ s.procs p.predecessor ≠ none) :
    ∀ q p', s'.procs q = some p' → p'.pc.pastWait →
    ∃ p, s.procs q = some p ∧ p'.predecessor = p.predecessor ∧
      (p.pc.pastWait ∨ p.predecessor = 0 ∨ s.Exited p.predecessor) := by
  have stay : ∀ q p', s.procs q = some p' → p'.pc.pastWait → ∃ p, s.procs q = some p ∧
      p'.predecessor = p.predecessor ∧
      (p.pc.pastWait ∨ p.predecessor = 0 ∨ s.Exited p.predecessor) :=
    fun q p' hp' hw => ⟨p',hp',rfl,.inl hw⟩
  cases h with
  | @waited pid p e s₁ hp hpc hw =>
    have hdone := predecessor_exited hr (present pid p hp) hw
    obtain ⟨rfl,-⟩ | ⟨rfl,-⟩ := waitExited_spec hw <;>
    exact forall_put stay fun _ => ⟨p,hp,rfl,.inr hdone⟩
  | joined _ _ hw =>
    obtain ⟨rfl,-⟩ | ⟨rfl,-⟩ := waitExited_spec hw <;>
    exact forall_put stay fun hw => hw.elim
  | @commit pid p e hp hpc hm hc =>
    exact forall_put (p := { p with pc := .commit e p.writeSetVersion.keys }) stay
      fun _ => ⟨p,hp,rfl,.inl (by rw [hpc]; trivial)⟩
  | @page pid p e todo page hp hpc hpage =>
    exact forall_put stay fun _ => ⟨p,hp,rfl,.inl (by rw [hpc]; trivial)⟩
  | @publish pid p e todo page v hp hpc hv =>
    exact forall_put (s := s.write _) (p := { p with pc := .commit e todo }) stay
      fun _ => ⟨p,hp,rfl,.inl (by rw [hpc]; trivial)⟩
  | memcpy | reap => exact stay
  | atomicEnd hp hpc he =>
    refine forall_put stay fun hw => ?_
    unfold Proc.atomicEnd at hw
    split at hw <;> exact hw.elim
  | @fork pid p e child f c hp hpc hf hc hn =>
    exact forall_fork stay (fun hw => hw.elim) fun hw => hw.elim
  | load hp hpc | store hp hpc | fault hp hpc =>
    exact forall_put stay fun hw => by simp [PC.pastWait,hpc] at hw
  | @unlock pid p e hp hpc =>
    exact forall_put (p := { p with
      toAttempt := p.toAttempt.updateHeap s.past.length
      pc := .ended e }) stay fun hw => hw.elim
  | @reject pid p e hp hpc hm hc =>
    exact forall_put (p := { p with pc := .abort }) stay fun hw => hw.elim
  | _ => exact forall_put stay fun hw => hw.elim

/-- A predecessor is a process of the program, which has exited when the wait for it is over. -/
structure Heeding (s : State σ) : Prop where
  present : ∀ q p, s.procs q = some p → p.predecessor = 0 ∨ s.procs p.predecessor ≠ none
  waited : ∀ q p, s.procs q = some p → p.pc.pastWait → p.predecessor = 0 ∨ s.Exited p.predecessor

theorem predecessor_step {S : System σ} {s s' : State σ} {x : Nat × Act} (h : Step S s x s')
    {q : Nat} {p' : Proc σ} (hp' : s'.procs q = some p') : p'.predecessor = 0 ∨
    (∃ r p, s.procs r = some p ∧ p'.predecessor = p.predecessor) ∨
    x.2 = .fork p'.predecessor := by
  obtain ⟨p,hp,-,-,hsame | hfork⟩ | ⟨hx,hn,-⟩ := kin_step h q p' hp'
  · exact .inr (.inl ⟨q,p,hp,hsame⟩)
  · exact .inr (.inr (congrArg Prod.snd hfork))
  · rw [hx] at h
    cases h with
    | @fork pid p e child f c hp hpc hf hc hn =>
      simp only [System.forkChild,State.put,Function.update_self,Option.some.injEq] at hp'
      rw [← congrArg Proc.predecessor hp']
      cases ho : S.order with
      | false => exact .inl rfl
      | true => exact .inr (.inl ⟨_,p,hp,rfl⟩)

theorem heeding_step {S : System σ} {s s' : State σ} {x : Nat × Act} (h : Step S s x s')
    (hr : s.ReapedExited) (hh : Heeding s) : Heeding s' := by
  have waited : ∀ q p', s'.procs q = some p' → p'.pc.pastWait →
      p'.predecessor = 0 ∨ s'.Exited p'.predecessor := by
    intro q p' hp' hw
    obtain ⟨p,hp,hpred,hpast⟩ := pastWait_step h hr hh.present q p' hp' hw
    rw [hpred]
    exact (hpast.elim (hh.waited q p hp) id).imp_right (exited_mono h)
  refine ⟨fun q p' hp' => ?_,waited⟩
  obtain h0 | ⟨r,p,hp,hpred⟩ | hfork := predecessor_step h hp'
  · exact .inl h0
  · rw [hpred]
    exact (hh.present r p hp).imp_right fun hex => (present_step h _).mpr (.inl hex)
  · exact .inr ((present_step h _).mpr (.inr hfork))

theorem heeding_reachable {S : System σ} {root : Nat} {x : σ} {file : Heap} {s : State σ}
    (h : Reachable (Step S) (initial root x file) s) : Heeding s := by
  refine h.invariant_within (fun t ht => reapedExited_reachable ht) ⟨?_,?_⟩
    fun t a u hr hh hstep => heeding_step hstep hr hh
  · intro q p hp
    have hroot : p.predecessor = 0 := by
      by_cases hq : q = root
      · subst q
        simp only [initial,Function.update_self,Option.some.injEq] at hp
        exact hp ▸ rfl
      · simp [initial,hq] at hp
    exact .inl hroot
  · intro q p hp hw
    simp [(initial_procs hp).2,PC.pastWait] at hw

end GThread
