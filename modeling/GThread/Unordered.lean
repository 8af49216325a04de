import GThread.Deadlock
import GThread.Serializability

/-! Waiting in the unordered build. A process waits for its own children only, by
`predecessor_` as by `Join`, so every wait goes down the fork tree and ends with the exit of
the child, whichever of the two reaps it. -/
namespace GThread
open Replay Transition Insertion
variable {σ : Type}

def State.Waits (s : State σ) (pid q : Nat) : Prop :=
  ∃ p, s.procs pid = some p ∧ p.waitsFor = some q

def State.Created (s : State σ) (pid q : Nat) : Prop :=
  ∃ r, s.procs q = some r ∧ r.parent = pid

def State.OwnJoins (s : State σ) (x : Nat × Act) : Prop :=
  x.2 = .join → ∀ p t, s.procs x.1 = some p → p.enters .join = some t → s.Created x.1 t

/-- Parents come after their children in the order, and nobody waits for anyone else's child. -/
structure Descending (s : State σ) : Prop where
  zero : s.procs 0 = none
  older : ∀ q r, s.procs q = some r → r.parent = 0 ∨
    s.procs r.parent ≠ none ∧ s.order.idxOf q < s.order.idxOf r.parent
  predecessor : ∀ pid p, s.procs pid = some p →
    p.predecessor = 0 ∨ s.Created pid p.predecessor
  waits : ∀ pid q, s.Waits pid q → q = 0 ∨ s.Created pid q

theorem created_step {S : System σ} {s s' : State σ} {x : Nat × Act} (h : Step S s x s')
    {pid q : Nat} (hc : s.Created pid q) : s'.Created pid q := by
  obtain ⟨r,hr,hp⟩ := hc
  obtain ⟨r',hr',hp',-⟩ := parent_step h hr
  exact ⟨r',hr',hp'.trans hp⟩

theorem created_fork {S : System σ} {s s' : State σ} {pid child : Nat}
    (h : Step S s (pid,.fork child) s') : s'.Created pid child := by
  have hpresent : s'.procs child ≠ none := (present_step h child).mpr (.inr rfl)
  obtain ⟨r',hr'⟩ := Option.ne_none_iff_exists'.mp hpresent
  obtain ⟨r,hr,-⟩ | ⟨hx,-⟩ := kin_step h child r' hr'
  · cases h with
    | fork hp hpc hf hc hn => cases hn.symm.trans hr
  · exact ⟨r',hr',(congrArg Prod.fst hx).symm⟩

theorem zero_step {S : System σ} {s s' : State σ} {x : Nat × Act} (h : Step S s x s')
    (hz : s.procs 0 = none) : s'.procs 0 = none := by
  by_contra hne
  obtain hold | hfork := (present_step h 0).mp hne
  · exact hold hz
  · obtain ⟨pid,act⟩ := x
    obtain rfl : act = .fork 0 := hfork
    cases h with
    | fork hp hpc hf hc hn => exact hc rfl

/-- A new child comes just before its parent, and old processes keep their order. -/
theorem older_step {S : System σ} {s s' : State σ} {x : Nat × Act} (h : Step S s x s')
    (hmem : ∀ q, q ∈ s.order ↔ s.procs q ≠ none)
    (ho : ∀ q r, s.procs q = some r → r.parent = 0 ∨
      s.procs r.parent ≠ none ∧ s.order.idxOf q < s.order.idxOf r.parent) :
    ∀ q r, s'.procs q = some r → r.parent = 0 ∨
      s'.procs r.parent ≠ none ∧ s'.order.idxOf q < s'.order.idxOf r.parent := by
  intro q r' hr'
  obtain ⟨pid,act⟩ := x
  obtain ⟨r,hr,hp,-⟩ | ⟨hx,hn,-⟩ := kin_step h q r' hr'
  · rw [hp]
    refine (ho q r hr).imp_right fun ⟨hpar,hlt⟩ => ⟨(present_step h _).mpr (.inl hpar),?_⟩
    obtain ⟨he,-⟩ | ⟨child,-,-,hpid,hnew,he⟩ := order_step h
    · rw [he]
      exact hlt
    · have hqc : q ≠ child := Processes.ne_of_none hr hnew
      have hpc : r.parent ≠ child := by intro hpc; exact hpar (hpc ▸ hnew)
      have hb : pid ∈ s.order := (hmem pid).mpr hpid
      rw [he,idxOf_insertBefore hb hqc,idxOf_insertBefore hb hpc]
      split <;> split <;> omega
  · obtain ⟨rfl,rfl⟩ := Prod.mk.inj hx
    obtain ⟨-,hact⟩ | ⟨child,hact,-,hpid,hnew,he⟩ := order_step h
    · exact absurd rfl (hact q)
    · cases hact
      have hb : r'.parent ∈ s.order := (hmem _).mpr hpid
      have hc : q ∉ s.order := fun hq => (hmem q).mp hq hnew
      have hne : r'.parent ≠ q := fun hpq => hpid (hpq ▸ hnew)
      refine .inr ⟨(present_step h _).mpr (.inl hpid),?_⟩
      rw [he,idxOf_insertBefore_self hb hc,idxOf_insertBefore hb hne,if_neg (lt_irrefl _)]
      exact Nat.lt_succ_self _

theorem descending_step_within {S : System σ} (horder : S.order = false) {s s' : State σ}
    {x : Nat × Act} (h : Step S s x s') (own : x.2 = .join → ∀ p t, s.procs x.1 = some p →
      p.enters .join = some t → t = 0 ∨ s.Created x.1 t)
    (hmem : ∀ q, q ∈ s.order ↔ s.procs q ≠ none) (hd : Descending s) : Descending s' := by
  refine ⟨zero_step h hd.zero,older_step h hmem hd.older,?_,?_⟩
  · intro pid p' hp'
    obtain ⟨p,hp,-,-,hsame | hfork⟩ | ⟨-,-,hel,hzero⟩ := kin_step h pid p' hp'
    · rw [hsame]
      exact (hd.predecessor pid p hp).imp_right (created_step h)
    · exact .inr (created_fork (hfork ▸ h))
    · exact .inl (hel.trans (hzero horder))
  · intro pid q hw
    obtain ⟨p',hp',hq⟩ := hw
    obtain ⟨p,hp,hold⟩ | ⟨rfl,p,hp,henter⟩ := waitsFor_step h pid p' hp' q hq
    · exact (hd.waits pid q ⟨p,hp,hold⟩).imp_right (created_step h)
    · obtain ⟨pid,act⟩ := x
      cases act with
      | atomicEnd =>
        simp only [Proc.enters] at henter
        split at henter
        · cases henter
        · obtain rfl := Option.some.inj henter
          exact (hd.predecessor pid p hp).imp_right (created_step h)
      | join => exact (own rfl p q hp henter).imp_right (created_step h)
      | _ => cases henter

theorem descending_step {S : System σ} (horder : S.order = false) {s s' : State σ}
    {x : Nat × Act} (h : Step S s x s') (own : s.OwnJoins x)
    (hmem : ∀ q, q ∈ s.order ↔ s.procs q ≠ none) (hd : Descending s) : Descending s' :=
  descending_step_within horder h (fun hx p t hp ht => .inr (own hx p t hp ht)) hmem hd

theorem descending_initial {root : Nat} (hroot : root ≠ 0) (x : σ) (file : Heap) :
    Descending (initial root x file) := by
  have hroot' : ∀ q p, (initial root x file).procs q = some p →
      p.parent = 0 ∧ p.predecessor = 0 ∧ p.waitsFor = none := by
    intro q p hp
    by_cases hq : q = root
    · subst q
      simp only [initial,Function.update_self,Option.some.injEq] at hp
      subst p
      exact ⟨rfl,rfl,rfl⟩
    · simp [initial,hq] at hp
  refine ⟨by simp [initial,Ne.symm hroot],?_,?_,?_⟩
  · exact fun q p hp => .inl (hroot' q p hp).1
  · exact fun q p hp => .inl (hroot' q p hp).2.1
  · intro pid q hw
    obtain ⟨p,hp,hq⟩ := hw
    cases (hroot' pid p hp).2.2.symm.trans hq

theorem Descending.waits_lt {s : State σ} (hd : Descending s) {pid q : Nat}
    (hw : s.Waits pid q) (hq : s.procs q ≠ none) : s.order.idxOf q < s.order.idxOf pid := by
  obtain rfl | ⟨r,hr,rfl⟩ := hd.waits pid q hw
  · exact absurd hd.zero hq
  · obtain ⟨p,hp,-⟩ := hw
    obtain h0 | ⟨-,hlt⟩ := hd.older q r hr
    · rw [h0,hd.zero] at hp
      cases hp
    · exact hlt

theorem Descending.chain_lt {s : State σ} (hd : Descending s) {pid q : Nat}
    (h : Relation.TransGen s.Waits pid q) (hq : s.procs q ≠ none) :
    s.order.idxOf q < s.order.idxOf pid := by
  induction h with
  | single hw => exact hd.waits_lt hw hq
  | tail hr hw ih =>
    obtain ⟨p,hp,hpq⟩ := hw
    exact (hd.waits_lt ⟨p,hp,hpq⟩ hq).trans (ih (by simp [hp]))

/-- `WaitExited` for an own child that has exited returns, whether it reaps the child or finds
it reaped. -/
theorem State.Created.released {s : State σ} {pid q : Nat} {r : Proc σ} (h : s.Created pid q)
    (hr : s.procs q = some r) (he : r.pc.exited = true) :
    ∃ s', s.waitExited pid q = some s' := by
  obtain ⟨r',hr',hp⟩ := h
  cases hr.symm.trans hr'
  by_cases h0 : q = 0
  · exact ⟨s,by simp [State.waitExited,h0]⟩
  · by_cases hreap : q ∈ s.reaped
    · exact ⟨s,by simp [State.waitExited,h0,hr,hreap]⟩
    · exact ⟨{ s with reaped := insert q s.reaped },by
        simp [State.waitExited,h0,hr,hreap,hp,he]⟩

/-- Nobody waits in a circle or for another's child to be reaped, nor holds the mutex while
waiting; whoever waits for an exited process can go on. -/
structure Flowing (S : System σ) (s : State σ) : Prop where
  acyclic : ∀ pid, ¬ Relation.TransGen s.Waits pid pid
  unlocked : ∀ pid q, s.mutex = some pid → ¬ s.Waits pid q
  released : ∀ pid q r, s.Waits pid q → s.procs q = some r → r.pc.exited = true →
    ∃ act s', (act = .waited ∨ act = .joined) ∧ Step S s (pid,act) s'

theorem flowing_of_descending {S : System σ} {s : State σ} (hs : Sound S s)
    (hd : Descending s) : Flowing S s := by
  refine ⟨?_,?_,?_⟩
  · intro pid hcycle
    obtain ⟨q,⟨p,hp,-⟩,-⟩ := Relation.TransGen.head'_iff.mp hcycle
    exact lt_irrefl _ (hd.chain_lt hcycle (by simp [hp]))
  · intro pid q hm hw
    obtain ⟨p,hp,hq⟩ := hw
    have hc := (hs.versions.mutex_iff hp).mp hm
    obtain ⟨e,hpc,-⟩ | ⟨k,hpc⟩ := Proc.waitsFor_cases hq <;> rw [hpc] at hc <;> exact hc
  · intro pid q r hw hr he
    obtain ⟨p,hp,hq⟩ := hw
    have hown : s.Created pid q := by
      refine (hd.waits pid q ⟨p,hp,hq⟩).resolve_left fun h0 => ?_
      subst h0
      cases hd.zero.symm.trans hr
    obtain ⟨s',hs'⟩ := hown.released hr he
    obtain ⟨e,hpc,rfl⟩ | ⟨k,hpc⟩ := Proc.waitsFor_cases hq
    · exact ⟨.waited,_,.inl rfl,.waited hp hpc hs'⟩
    · exact ⟨.joined,_,.inr rfl,.joined hp hpc hs'⟩

theorem unordered_flowing (S : System σ) (horder : S.order = false) (root : Nat)
    (hroot : root ≠ 0) (x : σ) (file : Heap) (s : State σ)
    (h : Reachable (Guarded State.OwnJoins (Step S)) (initial root x file) s) :
    Flowing S s := by
  refine flowing_of_descending (sound_reachable h.forget) ?_
  refine h.invariant_within (fun t ht => mem_order_reachable ht.forget)
    (descending_initial hroot x file) ?_
  intro t a u hmem hd hgo
  obtain ⟨hown,hstep⟩ := hgo
  exact descending_step horder hstep hown hmem hd

inductive Reaper where
  | main
  | write (t : Nat)
  | join (t : Nat)
  | done

def Reaper.code : Reaper → Instr Reaper
  | .main => .create .done .write
  | .write t => .store 0x100000 1 (.join t)
  | .join t => .join t .done
  | .done => .ret

def reaper : System Reaper := ⟨Reaper.code,.adjacent,false,true⟩

def ownJoins (s : State σ) (x : Nat × Act) : Bool :=
  match x.2 with
  | .join => ((s.procs x.1).bind fun p => p.enters .join).all fun t =>
    (s.procs t).any fun r => r.parent = x.1
  | _ => true

theorem ownJoins_of (s : State σ) (x : Nat × Act) (h : ownJoins s x = true) :
    s.OwnJoins x := by
  intro hx p t hp ht
  simp only [ownJoins,hx,hp,Option.bind_some,ht,Option.all_some,Option.any_eq_true,
    decide_eq_true_eq] at h
  exact h

/-- The thread has been reaped by the wait for the predecessor when `Join` waits for it. -/
theorem unordered_flowing_reaper : ∃ s, s.Waits 1 2 ∧ 2 ∈ s.reaped ∧ Flowing reaper s := by
  have hrun : (execute (guarded ownJoins reaper.step) (initial 1 .main fun _ => 0)
      ([(1,.atomicBegin),(1,.atomicEnd),(1,.fork 2),(2,.atomicBegin),(2,.atomicEnd),(2,.exit),
        (1,.atomicBegin),(1,.fault),(1,.fault),(1,.store 0),(1,.atomicEnd),(1,.waited)] ++
        commitActs 1 0x100000 ++ [(1,.join)])).any
      (fun s => ((s.procs 1).any fun p => p.waitsFor = some 2) && decide (2 ∈ s.reaped)) =
      true := by decide +kernel
  obtain ⟨s,hr,hv⟩ := execute_any (guarded_sound ownJoins_of reaper.step_sound) hrun
  simp only [Bool.and_eq_true,decide_eq_true_eq,Option.any_eq_true] at hv
  obtain ⟨⟨p,hp,hw⟩,hreap⟩ := hv
  exact ⟨s,⟨p,hp,hw⟩,hreap,
    unordered_flowing reaper rfl 1 (by decide) .main (fun _ => 0) s hr⟩

end GThread
