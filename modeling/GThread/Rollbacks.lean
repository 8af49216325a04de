import GThread.Family
import GThread.Snapshot
import GThread.Library.Counting
import Mathlib.Data.Set.Card

/-! Rollbacks are paid for by commits. An attempt is rejected when a page it read was written by
a transaction validated since its `AtomicBegin`, which another process made; its next attempt
starts after that transaction, so no two rollbacks of a process have the same cause. -/
namespace GThread
open Replay Transition Insertion
variable {σ : Type}

def State.rejects (s : State σ) (x : Nat × Act) : Bool :=
  match x.2 with
  | .lock => (s.procs x.1).any fun p => !isHeapConsistent p.readSetVersion s.globalPageVersion
  | _ => false

/-- A step keeps the commit history and the rollback count, validates a transaction, or rejects
one. -/
theorem verdict_step {S : System σ} {s s' : State σ} {pid : Nat} {act : Act}
    (h : Step S s (pid,act) s') :
    (s.rejects (pid,act) = false ∧ s'.txs = s.txs ∧ s'.rollbackCount = s.rollbackCount) ∨
    (∃ p e tx, s.procs pid = some p ∧ p.pc = .lock e ∧ s.rejects (pid,act) = false ∧
      tx.pid = pid ∧ s'.txs = tx :: s.txs ∧
      s'.procs pid = some { p with pc := .commit e p.writeSetVersion.keys } ∧
      s'.rollbackCount = s.rollbackCount) ∨
    ∃ p e, s.procs pid = some p ∧ p.pc = .lock e ∧ s.rejects (pid,act) = true ∧
      s.mutex = none ∧ isHeapConsistent p.readSetVersion s.globalPageVersion = false ∧
      s'.txs = s.txs ∧ s'.procs pid = some { p with pc := .abort } ∧
      s'.rollbackCount = s.rollbackCount + 1 := by
  cases h with
  | commit hp hpc hm hc =>
    exact .inr (.inl ⟨_,_,_,hp,hpc,by simp [State.rejects,hp,hc],rfl,rfl,by simp [State.put],rfl⟩)
  | reject hp hpc hm hc =>
    exact .inr (.inr ⟨_,_,hp,hpc,by simp [State.rejects,hp,hc],hm,hc,rfl,by simp [State.put],rfl⟩)
  | waited hp hpc hw | joined hp hpc hw =>
    obtain ⟨rfl,-⟩ | ⟨rfl,-⟩ := waitExited_spec hw <;> exact .inl ⟨rfl,rfl,rfl⟩
  | _ => exact .inl ⟨rfl,rfl,rfl⟩

def countRollbacks (s : State σ) (x : Nat × Act) (_ : State σ) (n : Nat → Nat) : Nat → Nat :=
  if s.rejects x then Function.update n x.1 (n x.1 + 1) else n

def updates (txs : List (Tx σ)) : List (Tx σ) := txs.filter fun tx => tx.writes ≠ ∅

def foreign (q : Nat) (txs : List (Tx σ)) : Nat := (updates txs).countP fun tx => tx.pid ≠ q

theorem foreign_append (q : Nat) (txs txs' : List (Tx σ)) :
    foreign q (txs ++ txs') = foreign q txs + foreign q txs' := by
  simp [foreign,updates]

theorem foreign_pos {q : Nat} {txs : List (Tx σ)} {tx : Tx σ} (h : tx ∈ txs) (hq : tx.pid ≠ q)
    {page : Nat} (hw : page ∈ tx.writes) : 0 < foreign q txs := by
  refine List.countP_pos_iff.mpr ⟨tx,List.mem_filter.mpr ⟨h,?_⟩,by simpa using hq⟩
  simpa using Finset.ne_empty_of_mem hw

def State.before (s : State σ) (p : Proc σ) : List (Tx σ) := s.txs.drop (s.txs.length - p.begun)

theorem since_append_before (s : State σ) (p : Proc σ) : s.since p ++ s.before p = s.txs :=
  List.take_append_drop ..

/-- Every rollback of a process is paid for by a transaction of another one, and where the
process is in an attempt, by one from before the attempt. -/
structure Charged (s : State σ) (n : Nat → Nat) : Prop where
  own : ∀ q p, s.procs q = some p → p.pc.open → ∀ tx ∈ s.since p, tx.pid ≠ q
  before : ∀ q p, s.procs q = some p → p.pc.open → n q ≤ foreign q (s.before p)
  all : ∀ q, n q ≤ foreign q s.txs
  made : ∀ tx ∈ s.txs, s.procs tx.pid ≠ none
  total : ∀ P : Finset Nat, (∀ q, s.procs q ≠ none → q ∈ P) → s.rollbackCount = ∑ q ∈ P, n q

theorem since_begun {s : State σ} {p : Proc σ} (h : p.begun = s.txs.length) :
    s.since p = [] ∧ s.before p = s.txs := by
  simp [State.since,State.before,h]

theorem Charged.attempts {S : System σ} {s s' : State σ} {x : Nat × Act} {n : Nat → Nat}
    (hc : Charged s n) (h : Step S s x s') (htxs : s'.txs = s.txs) {q : Nat} {p' : Proc σ}
    (hp' : s'.procs q = some p') (ho : p'.pc.open) :
    (∀ tx ∈ s'.since p', tx.pid ≠ q) ∧ n q ≤ foreign q (s'.before p') := by
  obtain ⟨-,p,c,-,rfl⟩ | ⟨p,hp,hop,-,-,hb⟩ := open_step h q p' hp' ho
  · obtain ⟨hnone,hall⟩ := since_begun (s := s') (p := p.atomicBegin c _ s.txs.length)
      (congrArg _ htxs.symm)
    rw [hnone,hall,htxs]
    exact ⟨List.forall_mem_nil _,hc.all q⟩
  · rw [State.since,State.before,htxs,hb]
    exact ⟨hc.own q p hp hop,hc.before q p hp hop⟩

theorem Charged.attempts_cons {S : System σ} {s s' : State σ} {pid : Nat} {act : Act}
    {n : Nat → Nat} (hc : Charged s n) (h : Step S s (pid,act) s') (hs : Sound S s) {tx : Tx σ}
    (htxs : s'.txs = tx :: s.txs) (htx : tx.pid = pid) {q : Nat} (hq : q ≠ pid) {p' : Proc σ}
    (hp' : s'.procs q = some p') (ho : p'.pc.open) :
    (∀ tx ∈ s'.since p', tx.pid ≠ q) ∧ n q ≤ foreign q (s'.before p') := by
  obtain ⟨hbegin,-⟩ | ⟨p,hp,hop,-,-,hb⟩ := open_step h q p' hp' ho
  · exact absurd (congrArg Prod.fst hbegin).symm hq
  · have hle := hs.conflicts.begun q p hp hop.active
    have hlen : s.txs.length + 1 - p.begun = s.txs.length - p.begun + 1 := by omega
    rw [since_cons htxs hb hle,State.before,htxs,hb,List.length_cons,hlen,List.drop_succ_cons]
    exact ⟨List.forall_mem_cons.mpr ⟨fun he => hq (he.symm.trans htx),hc.own q p hp hop⟩,
      hc.before q p hp hop⟩

theorem Charged.afford {S : System σ} {s : State σ} {n : Nat → Nat} (hc : Charged s n)
    (hs : Sound S s) {pid : Nat} {p : Proc σ} (hp : s.procs pid = some p) (ho : p.pc.open)
    (hm : s.mutex = none)
    (hcons : isHeapConsistent p.readSetVersion s.globalPageVersion = false) :
    n pid + 1 ≤ foreign pid s.txs := by
  have hdisturbed : ¬ s.undisturbed p := by
    rw [← consistent_iff (hs.each pid p hp) hs.versions hs.conflicts hp ho hm]
    simp [hcons]
  simp only [State.undisturbed,not_forall,not_not] at hdisturbed
  obtain ⟨tx,htx,page,hw,-⟩ := hdisturbed
  have hpos := foreign_pos htx (hc.own pid p hp ho tx htx) hw
  have hbefore := hc.before pid p hp ho
  rw [← since_append_before s p,foreign_append]
  omega

theorem charged_step {S : System σ} {s s' : State σ} {x : Nat × Act} {n : Nat → Nat}
    (h : Step S s x s') (hs : Sound S s) (hc : Charged s n) :
    Charged s' (countRollbacks s x s' n) := by
  obtain ⟨pid,act⟩ := x
  have present : ∀ q, s.procs q ≠ none → s'.procs q ≠ none :=
    fun q hq => (present_step h q).mpr (.inl hq)
  have left {p' : Proc σ} (hp' : s'.procs pid = some p') (hclosed : ¬ p'.pc.open) :
      ∀ q r', s'.procs q = some r' → r'.pc.open → q ≠ pid := by
    intro q r' hr' ho hq
    subst hq
    cases hp'.symm.trans hr'
    exact hclosed ho
  obtain ⟨hno,htxs,hcount⟩ | ⟨p,e,tx,hp,hpc,hno,htx,htxs,hp',hcount⟩ |
    ⟨p,e,hp,hpc,hyes,hm,hcons,htxs,hp',hcount⟩ := verdict_step h
  · rw [countRollbacks,hno,if_neg Bool.false_ne_true]
    refine ⟨fun q p' hp' ho => (hc.attempts h htxs hp' ho).1,
      fun q p' hp' ho => (hc.attempts h htxs hp' ho).2,?_,?_,?_⟩
    · rw [htxs]
      exact hc.all
    · rw [htxs]
      exact fun tx htx => present _ (hc.made tx htx)
    · rw [hcount]
      exact fun P hP => hc.total P fun q hq => hP q (present q hq)
  · rw [countRollbacks,hno,if_neg Bool.false_ne_true]
    have attempts := fun q r' hr' ho =>
      hc.attempts_cons h hs htxs htx (left hp' id q r' hr' ho) hr' ho
    refine ⟨fun q r' hr' ho => (attempts q r' hr' ho).1,
      fun q r' hr' ho => (attempts q r' hr' ho).2,?_,?_,?_⟩
    · intro q
      have hgrow := foreign_append q [tx] s.txs
      rw [htxs]
      exact (hc.all q).trans (hgrow ▸ Nat.le_add_left ..)
    · rw [htxs]
      refine List.forall_mem_cons.mpr ⟨?_,fun tx htx => present _ (hc.made tx htx)⟩
      rw [htx,hp']
      exact Option.some_ne_none _
    · rw [hcount]
      exact fun P hP => hc.total P fun q hq => hP q (present q hq)
  · rw [countRollbacks,if_pos hyes]
    refine ⟨fun q r' hr' ho => (hc.attempts h htxs hr' ho).1,?_,?_,?_,?_⟩
    · intro q r' hr' ho
      rw [Function.update_of_ne (left hp' id q r' hr' ho)]
      exact (hc.attempts h htxs hr' ho).2
    · intro q
      rw [htxs]
      by_cases hq : q = pid
      · subst hq
        rw [Function.update_self]
        exact hc.afford hs hp (by rw [hpc]; trivial) hm hcons
      · rw [Function.update_of_ne hq]
        exact hc.all q
    · rw [htxs]
      exact fun tx htx => present _ (hc.made tx htx)
    · intro P hP
      have hmem : pid ∈ P := hP pid (present pid (by simp [hp]))
      rw [hcount,hc.total P fun q hq => hP q (present q hq),Finset.sum_update_of_mem hmem,
        ← Finset.add_sum_erase P n hmem,Finset.sdiff_singleton_eq_erase]
      dsimp only
      omega

theorem charged_initial (root : Nat) (x : σ) (file : Heap) :
    Charged (initial root x file) fun _ => 0 := by
  refine ⟨?_,?_,fun _ => Nat.zero_le _,nofun,fun P _ => by simp [initial]⟩
  · intro q p hp ho
    simp [(initial_procs hp).2,PC.open] at ho
  · exact fun _ _ _ _ => Nat.zero_le _

theorem charged_reachable {S : System σ} {root : Nat} {x : σ} {file : Heap}
    {y : State σ × (Nat → Nat)}
    (h : Reachable (Observed countRollbacks (Step S)) (initial root x file,fun _ => 0) y) :
    Charged y.1 y.2 := by
  refine h.invariant_within (I := fun y => Charged y.1 y.2)
    (fun t ht => sound_reachable ht.unobserve) (charged_initial root x file) ?_
  intro t a u hs hc hgo
  obtain ⟨hstep,hcount⟩ := hgo
  rw [hcount]
  exact charged_step hstep hs hc

/-- The check fails exactly if another process has validated a write of a page that was read,
since the attempt began. So a process is rolled back at most once for each transaction of
another one that wrote something, and all are at most once for each such transaction and each
process but its own. -/
structure PaidFor (s : State σ) (n : Nat → Nat) : Prop where
  exact : ∀ pid p e, s.procs pid = some p → p.pc = .lock e → s.mutex = none →
    (isHeapConsistent p.readSetVersion s.globalPageVersion = false ↔
      ∃ tx ∈ s.since p, tx.pid ≠ pid ∧ ∃ page ∈ tx.writes, page ∈ p.readSetVersion)
  each : ∀ pid, n pid ≤ foreign pid s.txs
  total : s.rollbackCount ≤ ({q | s.procs q ≠ none}.ncard - 1) * (updates s.txs).length

theorem Charged.total_le {s : State σ} {n : Nat → Nat} (h : Charged s n)
    (horder : ∀ q, q ∈ s.order ↔ s.procs q ≠ none) :
    s.rollbackCount ≤ ({q | s.procs q ≠ none}.ncard - 1) * (updates s.txs).length := by
  let P := s.order.toFinset
  have hP : ∀ q, q ∈ P ↔ s.procs q ≠ none := fun q => List.mem_toFinset.trans (horder q)
  have hcard : {q | s.procs q ≠ none}.ncard = P.card := by
    have hset : {q | s.procs q ≠ none} = (P : Set Nat) := Set.ext fun q => (hP q).symm
    rw [hset,Set.ncard_coe_finset]
  have howner : ∀ tx ∈ updates s.txs, tx.pid ∈ P :=
    fun tx htx => (hP _).mpr (h.made tx (List.mem_of_mem_filter htx))
  calc s.rollbackCount = ∑ q ∈ P, n q := h.total P fun q => (hP q).mpr
    _ ≤ ∑ q ∈ P, foreign q s.txs := Finset.sum_le_sum fun q _ => h.all q
    _ = (P.card - 1) * (updates s.txs).length := Counting.sum_foreign P Tx.pid _ howner
    _ = ({q | s.procs q ≠ none}.ncard - 1) * (updates s.txs).length := by rw [hcard]

/-- The bound on the count that the processes share says nothing of who is rolled back. -/
theorem rollbackCount_le {S : System σ} {root : Nat} {x : σ} {file : Heap} {s : State σ}
    (h : Reachable (Step S) (initial root x file) s) :
    s.rollbackCount ≤ ({q | s.procs q ≠ none}.ncard - 1) * (updates s.txs).length := by
  obtain ⟨n,hn⟩ := h.observe countRollbacks fun _ => 0
  exact (charged_reachable hn).total_le (mem_order_reachable h)

theorem rollbacks_bounded (S : System σ) (root : Nat) (x : σ) (file : Heap)
    (y : State σ × (Nat → Nat))
    (h : Reachable (Observed countRollbacks (Step S)) (initial root x file,fun _ => 0) y) :
    PaidFor y.1 y.2 := by
  have charged : Charged y.1 y.2 := charged_reachable h
  have hs : Sound S y.1 := sound_reachable h.unobserve
  refine ⟨?_,charged.all,rollbackCount_le h.unobserve⟩
  intro pid p e hp hpc hm
  have ho : p.pc.open := by rw [hpc]; trivial
  rw [← Bool.not_eq_true,consistent_iff (hs.each pid p hp) hs.versions hs.conflicts hp ho hm,
    State.undisturbed]
  constructor
  · intro hd
    simp only [not_forall,not_not] at hd
    obtain ⟨tx,htx,page,hw,hr⟩ := hd
    exact ⟨tx,htx,charged.own pid p hp ho tx htx,page,hw,hr⟩
  · intro hd hu
    obtain ⟨tx,htx,-,page,hw,hr⟩ := hd
    exact hu tx htx page hw hr

theorem rollbacks_bounded_counter : ∃ (s : State Counter) (n : Nat → Nat),
    n 3 = 1 ∧ s.rollbackCount = 1 ∧ foreign 3 s.txs = 1 ∧ PaidFor s n := by
  have hrun : (execute (observe countRollbacks counter.step)
      (initial 1 .main fun _ => 0,fun _ => 0) counterRun).any (fun y =>
        y.2 3 = 1 && y.1.rollbackCount = 1 && foreign 3 y.1.txs = 1) = true := by
    decide +kernel
  obtain ⟨⟨s,n⟩,h,hv⟩ := execute_any (observe_sound counter.step_sound) hrun
  simp only [Bool.and_eq_true,decide_eq_true_eq] at hv
  obtain ⟨⟨hn,hr⟩,hf⟩ := hv
  exact ⟨s,n,hn,hr,hf,rollbacks_bounded counter 1 .main (fun _ => 0) (s,n) h⟩

end GThread
