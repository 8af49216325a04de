import GThread.AtomicMachine
import GThread.JoinedWork

/-! The runtime refines the atomic machine: whatever the scheduler does, the processes pass
through the states of a machine whose transactions are single steps. -/
namespace GThread
open Replay Transition Processes Insertion
variable {σ : Type}

/-- Thread `t` is where process `p` is. An attempt has not left the start of its transaction,
and a validated one is past it. -/
def Stands (p : Proc σ) (t : Thread σ) : Prop :=
  t.parent = p.parent ∧ t.predecessor = p.predecessor ∧ match p.pc with
  | .atomicBegin c => t.phase = .ready c ∧ t.gthreads = p.gthreads
  | .run | .waitPred _ | .lock _ =>
    t.phase = .ready p.context ∧ t.table p.context = p.gthreads
  | .abort => t.phase = .ready p.context ∧ t.gthreads = p.gthreads
  | .commit e _ | .copy e _ _ | .ended e => t.phase = .ending e ∧ t.gthreads = p.gthreads
  | .wait q k => t.phase = .waiting q k ∧ t.gthreads = p.gthreads
  | .zombie e => t.phase = .gone e

theorem Stands.open_phase {p : Proc σ} {t : Thread σ} (h : Stands p t) (ho : p.pc.open) :
    t.phase = .ready p.context ∧ t.table p.context = p.gthreads := by
  cases hpc : p.pc <;> simp only [hpc,PC.open] at ho <;> simp only [Stands,hpc] at h <;>
    exact h.2.2

theorem Stands.exited {p : Proc σ} {t : Thread σ} (h : Stands p t)
    (he : p.pc.exited = true) : ∃ e, t.phase = .gone e := by
  obtain ⟨e,hpc⟩ := PC.exited_iff.mp he
  simp only [Stands,hpc] at h
  exact ⟨e,h.2.2⟩

/-- The machine's heap is the one the validated transactions lead to. -/
structure Refines (S : System σ) (file : Heap) (s : State σ) (a : AtomicMachine σ) : Prop where
  heap : Serial S.op file (s.txs.map Tx.span) a.heap
  order : a.order = s.order
  threads : ∀ q, Option.Rel Stands (s.procs q) (a.threads q)

section
variable {S : System σ} {file : Heap} {s s' : State σ} {a : AtomicMachine σ} {pid : Nat}
  {p p' : Proc σ}

theorem Refines.stay (h : Refines S file s a) (hp : s.procs pid = some p)
    (procs : s'.procs = Function.update s.procs pid (some p')) (txs : s'.txs = s.txs)
    (order : s'.order = s.order) (stands : ∀ t, Stands p t → Stands p' t) :
    Refines S file s' a := by
  obtain ⟨t,ht,hst⟩ := rel_some (hp ▸ h.threads pid)
  exact ⟨txs ▸ h.heap,h.order.trans order.symm,procs ▸ rel_update_left h.threads ht (stands t hst)⟩

theorem Refines.move (h : Refines S file s a) {t' : Thread σ}
    (procs : s'.procs = Function.update s.procs pid (some p')) (txs : s'.txs = s.txs)
    (order : s'.order = s.order) (stands : Stands p' t') : Refines S file s' (a.put pid t') :=
  ⟨txs ▸ h.heap,h.order.trans order.symm,procs ▸ rel_update h.threads stands⟩

theorem Refines.exec (h : Refines S file s a) {tx : Tx σ} {heap : Heap}
    (hser : Serial S.op file ((tx :: s.txs).map Tx.span) heap) :
    Exec S.op tx.span.start a.heap tx.span.log tx.span.stop heap := by
  cases hser with
  | cons hold hexec _ =>
    obtain rfl := hold.unique h.heap
    exact hexec

theorem Refines.gone (h : Refines S file s a) {q : Nat} (hq : s.Exited q) : a.Gone q := by
  obtain ⟨r,hr,he⟩ := hq
  obtain ⟨t,ht,hst⟩ := rel_some (hr ▸ h.threads q)
  obtain ⟨e,hphase⟩ := hst.exited he
  exact ⟨t,e,ht,hphase⟩

/-- A validated attempt is the transaction of its thread. -/
theorem refines_commit (h : Step S s (pid,.lock) s') (hl : ∀ q p, s.procs q = some p → Local S p)
    (hh : Heeding s) (hs : Serialized S file s') (hr : Refines S file s a) :
    ∃ b a', AtomicStep S a (pid,b) a' ∧ Refines S file s' a' := by
  cases h with
  | @commit _ p e hp hpc hm hc =>
    obtain ⟨t,ht,hst⟩ := rel_some (hp ▸ hr.threads pid)
    obtain ⟨hphase,htable⟩ := hst.open_phase (by rw [hpc]; trivial)
    obtain ⟨heap,hser,-⟩ := hs.busy pid { p with pc := .commit e p.writeSetVersion.keys }
      (by simp [State.put]) trivial
    have hend : S.ends (t.table p.context) p.cur = some e :=
      htable ▸ (hl pid p hp).ending e (by rw [hpc]; rfl)
    have hwaited : t.predecessor = 0 ∨ a.Gone t.predecessor := by
      rw [hst.2.1]
      exact (hh.waited pid p hp (by rw [hpc]; trivial)).imp_right hr.gone
    exact ⟨_,_,.transact ht hphase (hr.exec hser) hend fun _ => hwaited,hser,hr.order,
      rel_update hr.threads ⟨hst.1,hst.2.1,rfl,htable⟩⟩
  | @reject _ p e hp hpc hm hc =>
    obtain ⟨t,ht,hst⟩ := rel_some (hp ▸ hr.threads pid)
    obtain ⟨hphase,htable⟩ := hst.open_phase (by rw [hpc]; trivial)
    exact ⟨_,_,.retry ht hphase,hr.heap,hr.order,
      rel_update hr.threads ⟨hst.1,hst.2.1,hphase,htable⟩⟩

theorem empty_attempt (hl : Local S p) (hs : Serialized S file s) (hp : s.procs pid = some p)
    (ho : p.pc.open) (hempty : p.readSetVersion = ∅) : p.log = [] ∧ p.cur = p.context.next := by
  have hlog : p.log = [] := by
    refine List.eq_nil_iff_forall_not_mem.mpr fun x hx => ?_
    have hmem := (hl.tracked ho.active).logged x hx
    exact absurd (hempty ▸ hmem) Finmap.notMem_empty
  have hexec := (hs.attempt pid p hp ho fun _ _ page _ hin =>
    absurd (hempty ▸ hin) Finmap.notMem_empty).exec
  rw [hlog] at hexec
  exact ⟨hlog,hexec.nil_inv.1⟩

theorem refines_atomicEnd (h : Step S s (pid,.atomicEnd) s')
    (hl : ∀ q p, s.procs q = some p → Local S p) (hs : Serialized S file s)
    (hr : Refines S file s a) :
    Refines S file s' a ∨ ∃ b a', AtomicStep S a (pid,b) a' ∧ Refines S file s' a' := by
  cases h with
  | @atomicEnd _ p e hp hpc he =>
    obtain ⟨t,ht,hst⟩ := rel_some (hp ▸ hr.threads pid)
    obtain ⟨hphase,htable⟩ := hst.open_phase (by rw [hpc]; trivial)
    unfold Proc.atomicEnd
    split
    · rename_i hempty
      obtain ⟨-,hcur⟩ := empty_attempt (hl pid p hp) hs hp (by rw [hpc]; trivial) hempty.1
      have hend : S.ends (t.table p.context) p.context.next = some e := by
        rw [htable,← hcur]
        exact he
      exact .inr ⟨_,_,.transact ht hphase .nil hend fun h => absurd rfl h,
        hr.move rfl rfl rfl ⟨hst.1,hst.2.1,rfl,htable⟩⟩
    · exact .inl (hr.stay hp rfl rfl rfl fun t ht =>
        ⟨ht.1,ht.2.1,ht.open_phase (by rw [hpc]; trivial)⟩)

theorem refines_fork {child : Nat} (h : Step S s (pid,.fork child) s')
    (hr : Refines S file s a) :
    ∃ b a', AtomicStep S a (pid,b) a' ∧ Refines S file s' a' := by
  cases h with
  | @fork _ p e _ f c hp hpc hf hc hn =>
    obtain ⟨t,ht,hst⟩ := rel_some (hp ▸ hr.threads pid)
    simp only [Stands,hpc] at hst
    have hchild : a.threads child = none := rel_none (hn ▸ hr.threads child)
    have hparent : Refines S file (s.put pid
        { p with predecessor := child, pc := .atomicBegin (c child) })
        (a.put pid { t with predecessor := child, phase := .ready (c child) }) :=
      hr.move rfl rfl rfl ⟨hst.1,rfl,rfl,hst.2.2.2⟩
    exact ⟨_,_,.fork ht hst.2.2.1 hf hc hchild,hparent.heap,
      congrArg (insertBefore pid child) hr.order,
      rel_update hparent.threads ⟨rfl,by rw [hst.2.1],rfl,hst.2.2.2⟩⟩

theorem refines_joined (h : Step S s (pid,.joined) s') (hx : s.ReapedExited)
    (hr : Refines S file s a) :
    ∃ b a', AtomicStep S a (pid,b) a' ∧ Refines S file s' a' := by
  cases h with
  | @joined _ p q k s₁ hp hpc hw =>
    obtain ⟨t,ht,hst⟩ := rel_some (hp ▸ hr.threads pid)
    simp only [Stands,hpc] at hst
    have hgone : q = 0 ∨ a.threads q = none ∨ a.Gone q := by
      cases hq : s.procs q with
      | none => exact .inr (.inl (rel_none (hq ▸ hr.threads q)))
      | some r =>
        refine or_iff_not_imp_left.mpr fun h0 => .inr ?_
        exact hr.gone ⟨r,hq,waitExited_exited hx hw h0 hq⟩
    obtain ⟨rfl,-⟩ | ⟨rfl,-⟩ := waitExited_spec hw <;>
    exact ⟨_,_,.joined ht hst.2.2.1 hgone,hr.move rfl rfl rfl ⟨hst.1,hst.2.1,rfl,hst.2.2.2⟩⟩

theorem refines_interrupted (h : Step S s (pid,.interrupted) s') (hr : Refines S file s a) :
    ∃ b a', AtomicStep S a (pid,b) a' ∧ Refines S file s' a' := by
  cases h with
  | @interrupted _ p q hp hq hu =>
    obtain ⟨t,ht,hst⟩ := rel_some (hp ▸ hr.threads pid)
    obtain ⟨-,-,r,hrq,hpar⟩ := hu
    obtain ⟨tr,htr,hstr⟩ := rel_some (hrq ▸ hr.threads q)
    have hphase : (∃ c, t.phase = .ready c) ∧ q = t.predecessor ∨
        ∃ k, t.phase = .waiting q k := by
      obtain ⟨e,hpc,rfl⟩ | ⟨k,hpc⟩ := Proc.waitsFor_cases hq <;> simp only [Stands,hpc] at hst
      · exact .inl ⟨⟨_,hst.2.2.1⟩,hst.2.1.symm⟩
      · exact .inr ⟨k,hst.2.2.1⟩
    exact ⟨_,_,.interrupted ht hphase htr (hstr.1.trans hpar),
      hr.move rfl rfl rfl ⟨hst.1,hst.2.1,rfl⟩⟩

theorem refines_killed (hp : s.procs pid = some p) (hpc : p.pc = .run) {b : Nat} {e : Exit}
    (ha : S.faultAddr p = some b) (hf : p.segfaultHandler S.layout b = .error e)
    (hpath : Path S.op p.context.next p.log p.cur) (hr : Refines S file s a) :
    ∃ b a', AtomicStep S a (pid,b) a' ∧
      Refines S file (s.put pid { p with pc := .zombie e }) a' := by
  obtain ⟨t,ht,hst⟩ := rel_some (hp ▸ hr.threads pid)
  have hout : ¬ S.layout.InHeap b := by
    intro hin
    obtain ⟨t',ht'⟩ := segfaultHandler_inHeap p.toAttempt hin
    cases hf.symm.trans ht'
  exact ⟨_,_,.killed ht (hst.open_phase (by rw [hpc]; trivial)).1 hpath
    (System.touches_of_faultAddr ha) hout (segfaultHandler_error hf),
    hr.move rfl rfl rfl ⟨hst.1,hst.2.1,rfl⟩⟩

end

structure Grounded (S : System σ) (file : Heap) (s : State σ) : Prop where
  each : ∀ q p, s.procs q = some p → Local S p
  serialized : Serialized S file s
  path : ∀ q p, s.procs q = some p → p.pc.open → Path S.op p.context.next p.log p.cur
  reaped : s.ReapedExited
  heeding : Heeding s

theorem grounded_reachable {S : System σ} (hlive : S.live = true) {root : Nat} {x : σ}
    {file : Heap} {s : State σ} (h : Reachable (Step S) (initial root x file) s) :
    Grounded S file s :=
  ⟨(sound_reachable h).each,serialized_reachable hlive h,fun _ _ => path_reachable h,
    reapedExited_reachable h,heeding_reachable h⟩

/-- One step of the runtime is at most one step of the machine. -/
theorem simulates_atomic (S : System σ) (file : Heap) :
    Simulates (Step S) (AtomicStep S) (Grounded S file) (Refines S file) := by
  intro s x s' a hs hs' hr h
  have step {pid : Nat} (hmatch : ∃ b a', AtomicStep S a (pid,b) a' ∧ Refines S file s' a') :
      Refines S file s' a ∨ ∃ y a', AtomicStep S a y a' ∧ Refines S file s' a' := by
    obtain ⟨b,a',hb,ha'⟩ := hmatch
    exact .inr ⟨(pid,b),a',hb,ha'⟩
  cases h with
  | atomicBegin hp hpc hm =>
    refine .inl (hr.stay hp rfl rfl rfl fun t ht => ?_)
    simp only [Stands,hpc] at ht
    exact ⟨ht.1,ht.2.1,ht.2.2.1,congrArg (· ++ _) ht.2.2.2⟩
  | load hp hpc | store hp hpc | fault hp hpc =>
    refine .inl (hr.stay hp rfl rfl rfl fun t ht => ?_)
    simpa only [Stands,hpc] using ht
  | killed hp hpc ha hf =>
    exact step (refines_killed hp hpc ha hf (hs.path _ _ hp (by rw [hpc]; trivial)) hr)
  | @signaled pid p _ hp hpc =>
    obtain ⟨t,ht,hst⟩ := rel_some (hp ▸ hr.threads pid)
    exact step ⟨_,_,.signaled ht (hst.open_phase (by rw [hpc]; trivial)).1,
      hr.move rfl rfl rfl ⟨hst.1,hst.2.1,rfl⟩⟩
  | @atomicEnd pid p e hp hpc he =>
    exact (refines_atomicEnd (.atomicEnd hp hpc he) hs.each hs.serialized hr).imp_right
      fun ⟨b,a',hb,ha'⟩ => ⟨(pid,b),a',hb,ha'⟩
  | @waited pid p e s₁ hp hpc hw =>
    have hstay : ∀ t, Stands p t → Stands { p with pc := .lock e } t :=
      fun t ht => ⟨ht.1,ht.2.1,ht.open_phase (by rw [hpc]; trivial)⟩
    obtain ⟨rfl,-⟩ | ⟨rfl,-⟩ := waitExited_spec hw <;>
    exact .inl (hr.stay hp rfl rfl rfl hstay)
  | commit hp hpc hm hc =>
    exact step (refines_commit (.commit hp hpc hm hc) hs.each hs.heeding hs'.serialized hr)
  | reject hp hpc hm hc =>
    exact step (refines_commit (.reject hp hpc hm hc) hs.each hs.heeding hs'.serialized hr)
  | page hp hpc hpage | publish hp hpc hv | unlock hp hpc | abort hp hpc =>
    refine .inl (hr.stay hp rfl rfl rfl fun t ht => ?_)
    simp only [Stands,hpc] at ht
    exact ht
  | memcpy hp hpc => exact .inl ⟨hr.heap,hr.order,hr.threads⟩
  | fork hp hpc hf hc hn => exact step (refines_fork (.fork hp hpc hf hc hn) hr)
  | @forkFailed pid p e y hp hpc hf =>
    obtain ⟨t,ht,hst⟩ := rel_some (hp ▸ hr.threads pid)
    simp only [Stands,hpc] at hst
    exact step ⟨_,_,.forkFailed ht hst.2.2.1 hf,hr.move rfl rfl rfl ⟨hst.1,hst.2.1,rfl⟩⟩
  | @join pid p q k hp hpc =>
    obtain ⟨t,ht,hst⟩ := rel_some (hp ▸ hr.threads pid)
    simp only [Stands,hpc] at hst
    exact step ⟨_,_,.join ht hst.2.2.1,hr.move rfl rfl rfl ⟨hst.1,hst.2.1,rfl,hst.2.2.2⟩⟩
  | joined hp hpc hw => exact step (refines_joined (.joined hp hpc hw) hs.reaped hr)
  | interrupted hp hq hu => exact step (refines_interrupted (.interrupted hp hq hu) hr)
  | @exit pid p hp hpc =>
    obtain ⟨t,ht,hst⟩ := rel_some (hp ▸ hr.threads pid)
    simp only [Stands,hpc] at hst
    exact step ⟨_,_,.exit ht hst.2.2.1,hr.move rfl rfl rfl ⟨hst.1,hst.2.1,rfl⟩⟩
  | reap hp he ho => exact .inl ⟨hr.heap,hr.order,hr.threads⟩

theorem refines_initial (S : System σ) (root : Nat) (x : σ) (file : Heap) :
    Refines S file (initial root x file) (.initial root x file) :=
  ⟨.nil,rfl,rel_update (fun _ => .none) ⟨rfl,rfl,rfl,rfl⟩⟩

theorem refines_reachable {S : System σ} (hlive : S.live = true) {root : Nat} {x : σ}
    {file : Heap} {s : State σ} (h : Reachable (Step S) (initial root x file) s) :
    ∃ a, Reachable (AtomicStep S) (.initial root x file) a ∧ Refines S file s a :=
  (simulates_atomic S file).reachable (fun _ => grounded_reachable hlive)
    (refines_initial S root x file) h

theorem Refines.file {S : System σ} {file : Heap} {s : State σ} {a : AtomicMachine σ}
    (h : Refines S file s a) (hs : Serialized S file s) (hm : s.mutex = none) :
    s.now.bytes = a.heap := (hs.idle hm).unique h.heap

/-- Wherever an interleaving of the processes leads, the machine leads there as well: each process
is where its thread is, and whenever no commit is under way the shared file is its heap. -/
theorem atomic_refinement (S : System σ) (hlive : S.live = true) (root : Nat) (x : σ)
    (file : Heap) (s : State σ) (h : Reachable (Step S) (initial root x file) s) :
    ∃ a, Reachable (AtomicStep S) (.initial root x file) a ∧
      (∀ q, Option.Rel Stands (s.procs q) (a.threads q)) ∧
      (s.mutex = none → s.now.bytes = a.heap) := by
  obtain ⟨a,ha,hr⟩ := refines_reachable hlive h
  exact ⟨a,ha,hr.threads,hr.file (serialized_reachable hlive h)⟩

/-- One of the two threads was rolled back. -/
theorem atomic_refinement_counter : ∃ (s : State Counter) (a : AtomicMachine Counter),
    s.rollbackCount = 1 ∧ Reachable (AtomicStep counter) (.initial 1 .main fun _ => 0) a ∧
    (∀ q, Option.Rel Stands (s.procs q) (a.threads q)) ∧ a.heap 0x100000 = 2 := by
  obtain ⟨s,hs,hv⟩ := System.run_any counter (initial 1 .main fun _ => 0)
    counterRun (fun s => s.now.bytes 0x100000 = 2 && s.rollbackCount = 1 && s.mutex.isNone)
    (by decide +kernel)
  simp only [Bool.and_eq_true,decide_eq_true_eq,Option.isNone_iff_eq_none] at hv
  obtain ⟨⟨hb,hr⟩,hm⟩ := hv
  obtain ⟨a,ha,hst,hheap⟩ := atomic_refinement counter rfl 1 .main (fun _ => 0) s hs
  exact ⟨s,a,hr,ha,hst,congrFun (hheap hm) _ ▸ hb⟩

end GThread
