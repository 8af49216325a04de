import GThread.Termination
import GThread.Unordered
import GThread.Separation

/-! A run that cannot go on is finished or deadlocked; in the unordered build it is finished. With
the end of all rollbacks this makes every fork-join program of the unordered build complete. -/
namespace GThread
open Replay Transition Insertion
variable {σ : Type}

/-- The system fails a process: a signal kills it or interrupts its wait, or it gets no child. -/
def Act.failure : Act → Prop
  | .signaled | .interrupted | .forkFailed => True
  | _ => False

instance : (act : Act) → Decidable act.failure
  | .signaled | .interrupted | .forkFailed => .isTrue trivial
  | .atomicBegin | .load _ | .store _ | .fault | .atomicEnd | .waited | .lock | .page _
  | .memcpy _ | .publish | .unlock | .abort | .fork _ | .join | .joined | .exit | .reap =>
    .isFalse id

theorem System.run_unfailing (S : System σ) (s : State σ) (acts : List (Nat × Act))
    (f : State σ → Bool)
    (h : (execute (guarded (fun _ y => decide ¬ y.2.failure) S.step) s acts).any f = true) :
    ∃ t, Reachable (Guarded (fun _ y => ¬ y.2.failure) (Step S)) s t ∧ f t = true :=
  execute_any (guarded_sound (fun _ _ => of_decide_eq_true) S.step_sound) h

def State.Useful (s : State σ) (x : Nat × Act) : Prop := ¬ s.Silent x ∧ ¬ x.2.failure

/-- No process joins a thread that is not in its table. -/
def System.Handled (S : System σ) (s : State σ) : Prop :=
  ∀ q p, s.procs q = some p → p.pc = .run → S.op p.cur = .leave → S.endOf p ≠ none

def System.Idle (S : System σ) (s : State σ) : Prop := ∀ x s', Step S s x s' → ¬ s.Useful x

section
variable {S : System σ} {s : State σ} {pid : Nat} {p : Proc σ}

/-- A process that is not in `WaitExited` can go on when it has the mutex or nobody has. -/
theorem useful_step (hs : Sound S s) (hmem : ∀ q, q ∈ s.order ↔ s.procs q ≠ none)
    (hvalid : S.Handled s) (hp : s.procs pid = some p) (hlive : p.pc.exited = false)
    (hm : s.mutex = none ∨ p.pc.committing) (hw : p.waitsFor = none) :
    ∃ act s', Step S s (pid,act) s' ∧ s.Useful (pid,act) := by
  have free (hc : ¬ p.pc.committing) : s.mutex = none := hm.resolve_right hc
  cases hpc : p.pc with
  | atomicBegin c =>
    exact ⟨_,_,.atomicBegin hp hpc (free (by simp [hpc,PC.committing])),id,id⟩
  | run =>
    have fault (a : Nat) (ha : S.faultAddr p = some a) :
        ∃ act s', Step S s (pid,act) s' ∧ s.Useful (pid,act) := by
      cases hf : p.segfaultHandler S.layout a with
      | error e => exact ⟨_,_,.killed hp hpc ha hf,id,id⟩
      | ok t => exact ⟨_,_,.fault hp hpc ha hf,id,id⟩
    have hshown : S.shown s p 0 = some s.now := by simp [System.shown]
    have leave (hop : S.op p.cur = .leave) :
        ∃ act s', Step S s (pid,act) s' ∧ s.Useful (pid,act) := by
      obtain ⟨e,he⟩ := Option.ne_none_iff_exists'.mp (hvalid pid p hp hpc hop)
      exact ⟨_,_,.atomicEnd hp hpc he,id,id⟩
    cases hk : S.code p.cur with
    | load a k =>
      by_cases ha : S.mayLoad p a
      · exact ⟨_,_,.load hp hpc hk ha hshown,id,id⟩
      · exact fault a (by simp [System.faultAddr,hk,ha])
    | store a b k =>
      by_cases ha : S.mayStore p a
      · exact ⟨_,_,.store hp hpc hk ha hshown,id,id⟩
      · exact fault a (by simp [System.faultAddr,hk,ha])
    | create f k | join t k | pthreadCreate f k | pthreadJoin h k | ret =>
      exact leave (by simp [System.op,hk,Instr.op])
  | waitPred e | wait t k => simp [Proc.waitsFor,hpc] at hw
  | lock e =>
    have hfree := free (by simp [hpc,PC.committing])
    cases hc : isHeapConsistent p.readSetVersion s.globalPageVersion with
    | true => exact ⟨_,_,.commit hp hpc hfree hc,id,id⟩
    | false => exact ⟨_,_,.reject hp hpc hfree hc,id,id⟩
  | commit e todo =>
    obtain rfl | ⟨page,hpage⟩ := todo.eq_empty_or_nonempty
    · exact ⟨_,_,.unlock hp hpc,id,id⟩
    · exact ⟨_,_,.page hp hpc hpage,id,id⟩
  | copy e todo page =>
    have hpage : page ∈ p.pc.pending := by simp [hpc,PC.pending]
    obtain ⟨v,hv⟩ := Finmap.mem_iff.mp ((hs.each pid p hp).heapPage hpage).2
    exact ⟨_,_,.publish hp hpc hv,id,id⟩
  | abort => exact ⟨_,_,.abort hp hpc,id,id⟩
  | ended e =>
    have fork {f : σ} {c : Nat → Context σ} (hf : e.fork = some (f,c)) :
        ∃ act s', Step S s (pid,act) s' ∧ s.Useful (pid,act) := by
      obtain ⟨child,hchild⟩ := Infinite.exists_notMem_finset (insert 0 s.order.toFinset)
      rw [Finset.mem_insert,List.mem_toFinset,not_or] at hchild
      have hn : s.procs child = none := by
        by_contra hne
        exact hchild.2 ((hmem child).mpr hne)
      exact ⟨_,_,.fork hp hpc hf hchild.1 hn,id,id⟩
    cases e with
    | create f k => exact fork rfl
    | pthreadCreate f h k => exact fork rfl
    | join t k => exact ⟨_,_,.join hp hpc,id,id⟩
    | exit => exact ⟨_,_,.exit hp hpc,id,id⟩
  | zombie e => simp [hpc,PC.exited] at hlive

theorem blocked_of_idle (hs : Sound S s) (hmem : ∀ q, q ∈ s.order ↔ s.procs q ≠ none)
    (hvalid : S.Handled s) (hidle : S.Idle s) (hp : s.procs pid = some p)
    (hlive : p.pc.exited = false) : ∃ q, p.waitsFor = some q ∧ s.waitExited pid q = none := by
  have hfree : s.mutex = none := by
    cases hm : s.mutex with
    | none => rfl
    | some q =>
      obtain ⟨r,hr,hc⟩ := hs.versions.holder q hm
      have hw : r.waitsFor = none := by
        cases hpc : r.pc <;> simp_all [PC.committing,Proc.waitsFor]
      have he : r.pc.exited = false := by
        cases hpc : r.pc <;> simp_all [PC.committing,PC.exited]
      obtain ⟨act,s',hstep,huse⟩ := useful_step hs hmem hvalid hr he (.inr hc) hw
      exact absurd huse (hidle _ s' hstep)
  cases hw : p.waitsFor with
  | none =>
    obtain ⟨act,s',hstep,huse⟩ := useful_step hs hmem hvalid hp hlive (.inl hfree) hw
    exact absurd huse (hidle _ s' hstep)
  | some q =>
    refine ⟨q,rfl,?_⟩
    by_contra hgo
    obtain ⟨s',hs'⟩ := Option.ne_none_iff_exists'.mp hgo
    obtain ⟨e,hpc,rfl⟩ | ⟨k,hpc⟩ := Proc.waitsFor_cases hw
    · exact hidle _ _ (.waited hp hpc hs') ⟨id,id⟩
    · exact hidle _ _ (.joined hp hpc hs') ⟨id,id⟩

theorem waitExited_none {q : Nat} (h : s.waitExited pid q = none) :
    q ∉ s.reaped ∧ ∃ r, s.procs q = some r ∧ (r.parent = pid → r.pc.exited = false) := by
  unfold State.waitExited at h
  split at h
  · cases h
  · split at h
    · cases h
    · rename_i r hr
      split at h
      · cases h
      · refine ⟨‹_›,r,hr,fun hpar => ?_⟩
        rw [if_pos hpar] at h
        split at h
        · cases h
        · rename_i hlive
          simpa using hlive

def State.Unexited (s : State σ) : Set Nat := {q | ∃ p, s.procs q = some p ∧ p.pc.exited = false}

def State.OrphansReaped (s : State σ) : Prop :=
  ∀ q p, s.procs q = some p → p.pc.exited = true →
    (∀ r, s.procs p.parent = some r → r.pc.exited = true) → q ∈ s.reaped

/-- Nothing is left to do exactly when all orphans have been reaped, and either every process has
exited or those that have not are deadlocked. -/
theorem idle_iff_deadlocked (hs : Sound S s) (hmem : ∀ q, q ∈ s.order ↔ s.procs q ≠ none)
    (hvalid : S.Handled s) : S.Idle s ↔
      s.OrphansReaped ∧ (s.Unexited = ∅ ∨ s.Deadlocked s.Unexited) := by
  constructor
  · intro hidle
    have horphan : s.OrphansReaped := by
      intro q p hp he hpar
      by_contra hreap
      exact hidle _ _ (.reap hp he hpar) ⟨hreap,id⟩
    refine ⟨horphan,s.Unexited.eq_empty_or_nonempty.imp_right fun hne => ⟨hne,?_⟩⟩
    intro pid hpid
    obtain ⟨p,hp,hlive⟩ := hpid
    obtain ⟨q,hq,hnone⟩ := blocked_of_idle hs hmem hvalid hidle hp hlive
    obtain ⟨hreap,r,hr,hown⟩ := waitExited_none hnone
    refine ⟨p,q,r,hp,hq,hr,hnone,?_⟩
    by_cases hpar : r.parent = pid
    · exact .inl ⟨hpar,r,hr,hown hpar⟩
    · refine .inr ⟨hpar,?_⟩
      cases he : r.pc.exited with
      | false => exact .inl ⟨r,hr,he⟩
      | true =>
        refine .inr ?_
        by_contra hout
        refine hreap (horphan q r hr he fun z hz => ?_)
        by_contra hz'
        exact hout ⟨z,hz,by simpa using hz'⟩
  · rintro ⟨horphan,hrest⟩ ⟨pid,act⟩ s' hstep ⟨hloud,hfail⟩
    have blocked {p : Proc σ} (hp : s.procs pid = some p) (hlive : p.pc.exited = false) :
        ∃ q, p.waitsFor = some q ∧ s.waitExited pid q = none := by
      have hin : pid ∈ s.Unexited := ⟨p,hp,hlive⟩
      obtain hnil | hdead := hrest
      · rw [hnil] at hin
        exact hin.elim
      · obtain ⟨p',q,r,hp',hq,-,hnone,-⟩ := hdead.2 pid hin
        cases hp.symm.trans hp'
        exact ⟨q,hq,hnone⟩
    cases hstep with
    | reap hp he ho => exact hloud (horphan _ _ hp he ho)
    | memcpy => exact hloud trivial
    | signaled | interrupted | forkFailed => exact hfail trivial
    | waited hp hpc hgo | joined hp hpc hgo =>
      obtain ⟨q,hq,hnone⟩ := blocked hp (by simp [hpc,PC.exited])
      simp only [Proc.waitsFor,hpc,Option.some.injEq] at hq
      subst hq
      cases hnone.symm.trans hgo
    | atomicBegin hp hpc | load hp hpc | store hp hpc | fault hp hpc | killed hp hpc
    | atomicEnd hp hpc | commit hp hpc | reject hp hpc | page hp hpc | publish hp hpc
    | unlock hp hpc | abort hp hpc | fork hp hpc | join hp hpc | exit hp hpc =>
      obtain ⟨q,hq,-⟩ := blocked hp (by simp [hpc,PC.exited])
      simp [Proc.waitsFor,hpc] at hq

theorem Descending.not_deadlocked (hd : Descending s) (D : Set Nat) : ¬ s.Deadlocked D := by
  intro hdead
  obtain ⟨pid,hpid,hmin⟩ := (measure s.order.idxOf).wf.has_min D hdead.1
  obtain ⟨p,q,r,hp,hq,hr,-,hin⟩ := hdead.2 pid hpid
  have hcreated : r.parent = pid := by
    obtain rfl | ⟨r',hr',hpar⟩ := hd.waits pid q ⟨p,hp,hq⟩
    · cases hd.zero.symm.trans hr
    · cases hr.symm.trans hr'
      exact hpar
  obtain ⟨-,hqD⟩ | ⟨hne,-⟩ := hin
  · exact hmin q hqD (hd.waits_lt ⟨p,hp,hq⟩ (by simp [hr]))
  · exact hne hcreated

end

section ForkJoin
variable {τ : Type} {code : τ → Cmd τ} {S : System (τ × List Nat)}

theorem handled_forkJoin (hS : S.code = forkJoin code) (s : State (τ × List Nat)) :
    S.Handled s := by
  intro q p hp hpc hop
  unfold System.op at hop
  unfold System.endOf
  rw [hS] at hop ⊢
  unfold forkJoin at hop ⊢
  cases hc : code p.cur.1 <;> simp_all [Instr.op]

theorem descending_forkJoin (hS : S.code = forkJoin code) (horder : S.order = false)
    {root : Nat} (hroot : root ≠ 0) {x : τ} {file : Heap} {s : State (τ × List Nat)}
    (h : Reachable (Step S) (initial root (x,[]) file) s) : Descending s := by
  refine h.invariant_within (J := fun s => Reachable (Step S) (initial root (x,[]) file) s)
    (fun _ ht => ht) (descending_initial hroot (x,[]) file) fun t a u ht hd hstep => ?_
  refine descending_step_within horder hstep (fun hx p t' hp henter => ?_)
    (mem_order_reachable ht) hd
  cases hpc : p.pc <;> simp only [Proc.enters,hpc] at henter <;> try cases henter
  rename_i e
  cases e <;> simp only [Option.some.injEq] at henter <;> try cases henter
  obtain ⟨f,k,-,he⟩ | ⟨i,k,-,he⟩ | ⟨-,he⟩ :=
    endOf_forkJoin hS (((sound_reachable ht).each _ p hp).ending _ (by rw [hpc]; rfl)) <;> cases he
  rw [List.getD_eq_getElem?_getD]
  cases hi : p.cur.2[i]? with
  | none => exact .inl rfl
  | some c =>
    have hc := List.mem_of_getElem? hi
    exact owned_forkJoin hS ht _ p hp c (by simp [Proc.handles,hpc,hc])

/-- Whatever the build and the program: when no step is left that would take the program further,
all orphans have been reaped, and every process has exited unless those that have not are
deadlocked. -/
theorem idle_iff (S : System σ) (root : Nat) (x : σ) (file : Heap) (s : State σ)
    (h : Reachable (Step S) (initial root x file) s) (hvalid : S.Handled s) :
    S.Idle s ↔ s.OrphansReaped ∧ (s.Unexited = ∅ ∨ s.Deadlocked s.Unexited) :=
  idle_iff_deadlocked (sound_reachable h) (mem_order_reachable h) hvalid

def poolRun : List (Nat × Act) :=
  [(1,.atomicBegin),(1,.atomicEnd),(1,.fork 2),(2,.atomicBegin),(2,.atomicEnd),(2,.exit),
    (1,.atomicBegin),(1,.atomicEnd),(1,.fork 3)] ++
  [(3,.atomicBegin),(3,.fault),(3,.fault),(3,.store 0),(3,.atomicEnd),(1,.atomicBegin),
    (1,.atomicEnd),(1,.join)]

theorem idle_iff_pool : ∃ s, Reachable (Step pool) (initial 1 (.main,[]) fun _ => 0) s ∧
    s.Unexited = {1,3} ∧ pool.Idle s := by
  obtain ⟨s,hs,hv⟩ := System.run_any pool (initial 1 (.main,[]) fun _ => 0) poolRun
    (fun s => (s.order = [2,3,1] : Bool) &&
      ((s.procs 1).any fun p => p.waitsFor = some 3) &&
      ((s.procs 2).any fun p => p.parent = 1 && p.pc.exited) &&
      ((s.procs 3).any fun p => p.waitsFor = some 2 && p.parent = 1) &&
      (s.waitExited 1 3).isNone && (s.waitExited 3 2).isNone) (by decide +kernel)
  simp only [Bool.and_eq_true,decide_eq_true_eq,Option.any_eq_true,
    Option.isNone_iff_eq_none] at hv
  obtain ⟨⟨⟨⟨⟨hord,p,hp,hpw⟩,q,hq,hqp,hqe⟩,r,hr,hrw,hrp⟩,h13⟩,h32⟩ := hv
  have hlive {y : Proc (Pool × List Nat)} {t : Nat} (hy : y.waitsFor = some t) :
      y.pc.exited = false := by
    obtain ⟨e,hpc,-⟩ | ⟨k,hpc⟩ := Proc.waitsFor_cases hy <;> rw [hpc] <;> rfl
  have hunexited : s.Unexited = {1,3} := by
    ext z
    constructor
    · rintro ⟨y,hy,hexit⟩
      have hin := (mem_order_reachable hs z).mpr (by simp [hy])
      rw [hord] at hin
      obtain rfl | hin := List.mem_cons.mp hin
      · cases hq.symm.trans hy
        simp [hqe] at hexit
      · simpa [or_comm] using hin
    · rintro (rfl | rfl)
      · exact ⟨p,hp,hlive hpw⟩
      · exact ⟨r,hr,hlive hrw⟩
  refine ⟨s,hs,hunexited,(idle_iff pool 1 (.main,[]) (fun _ => 0) s hs
    (handled_forkJoin rfl s)).mpr ⟨fun z y hy hexit hpar => ?_,.inr ?_⟩⟩
  · -- the only zombie has a living parent
    have hin : z ∉ s.Unexited := fun ⟨y',hy',he⟩ => by
      cases hy.symm.trans hy'
      simp [he] at hexit
    have hz := (mem_order_reachable hs z).mpr (by simp [hy])
    rw [hunexited] at hin
    rw [hord] at hz
    obtain rfl : z = 2 := by
      simp only [List.mem_cons,List.not_mem_nil,or_false] at hz
      simp only [Set.mem_insert_iff,Set.mem_singleton_iff] at hin
      omega
    cases hq.symm.trans hy
    have hdead := hpar p (hqp ▸ hp)
    cases hdead.symm.trans (hlive hpw)
  · rw [hunexited]
    refine ⟨⟨1,.inl rfl⟩,?_⟩
    rintro pid (rfl | rfl)
    · exact ⟨p,3,r,hp,hpw,hr,h13,.inl ⟨hrp,.inr rfl⟩⟩
    · exact ⟨r,2,q,hr,hrw,hq,h32,.inr ⟨by omega,.inr (.inl hqp)⟩⟩

def State.Over {σ : Type} (s : State σ) : Prop :=
  ∀ q p, s.procs q = some p → p.pc.exited = true ∧ q ∈ s.reaped

theorem over_of_idle (hS : S.code = forkJoin code) {root : Nat} {x : τ} {file : Heap}
    {s : State (τ × List Nat)} (h : Reachable (Step S) (initial root (x,[]) file) s)
    (hfree : ∀ D, ¬ s.Deadlocked D) (hidle : S.Idle s) : s.Over := by
  obtain ⟨horphan,hempty | hdead⟩ := (idle_iff_deadlocked (sound_reachable h)
    (mem_order_reachable h) (handled_forkJoin hS s)).mp hidle
  · have hexit : ∀ q p, s.procs q = some p → p.pc.exited = true := by
      intro q p hp
      by_contra hlive
      have hin : q ∈ s.Unexited := ⟨p,hp,by simpa using hlive⟩
      rw [hempty] at hin
      exact hin
    exact fun q p hp => ⟨hexit q p hp,horphan q p hp (hexit q p hp) fun r hr => hexit _ r hr⟩
  · exact absurd hdead (hfree _)

def Follows (code : τ → Cmd τ) (y x : τ) : Prop :=
  match code x with
  | .load _ k => ∃ b, y = k b
  | .store _ _ k => y = k
  | .create f k => y = f ∨ y = k
  | .join _ k => y = k
  | .ret => False

theorem Reaches.invariant {P : τ → Prop} (closed : ∀ x y, P x → Follows code y x → P y) {x y : τ}
    (h : Reaches code x y) (hx : P x) : P y := by
  have next {y z : τ} (hy : P y) (hz : Follows code z y) : P z := closed y z hy hz
  induction h with
  | refl => exact hx
  | load hc _ ih => exact ih (next hx (by simp [Follows,hc]))
  | store hc _ ih => exact ih (next hx (by simp [Follows,hc]))
  | child hc _ ih => exact ih (next hx (by simp [Follows,hc]))
  | create hc _ ih => exact ih (next hx (by simp [Follows,hc]))
  | join hc _ ih => exact ih (next hx (by simp [Follows,hc]))

theorem wf_next (hS : S.code = forkJoin code) (h : WellFounded (Follows code)) :
    WellFounded S.Next := by
  refine Subrelation.wf (fun {y x} hyx => ?_) (InvImage.wf Prod.fst h)
  unfold System.Next at hyx
  rw [hS] at hyx
  unfold forkJoin at hyx
  show Follows code y.1 x.1
  unfold Follows
  cases hc : code x.1 <;> simp only [hc] at hyx ⊢
  case load =>
    obtain ⟨b,rfl⟩ := hyx
    exact ⟨b,rfl⟩
  case create =>
    obtain rfl | ⟨c,rfl⟩ := hyx
    · exact .inl rfl
    · exact .inr rfl
  all_goals rw [hyx]

/-- Without deadlocks, code that ends is run to its end. -/
theorem completes (hS : S.code = forkJoin code) (hends : WellFounded (Follows code)) {root : Nat}
    {x : τ} {file : Heap} (hfree : ∀ t, Reachable (Step S) (initial root (x,[]) file) t →
      ∀ D, ¬ t.Deadlocked D) {s : State (τ × List Nat)}
    (h : Reachable (Step S) (initial root (x,[]) file) s) :
    ∃ t, Reachable (Guarded (fun _ y => ¬ y.2.failure) (Step S)) s t ∧ t.Over := by
  have hdown : ∀ (t : State (τ × List Nat)) a u,
      Reachable (Step S) (initial root (x,[]) file) t →
      Guarded (fun _ y => ¬ y.2.failure) (Step S) t a u → ¬ t.Silent a →
      S.Below (S.measure u) (S.measure t) :=
    fun t a u ht hgo hloud => measure_step hgo.2 (trailing_reachable ht) hloud
  obtain ⟨t,ht,hquiet⟩ := Descent.exists_quiet (Guarded (fun _ y => ¬ y.2.failure) (Step S))
    (S.wf_below (wf_next hS hends)) (fun t a u ht hgo => ht.tail hgo.2) hdown h
  have hidle : S.Idle t := fun y u hstep huse => huse.1 (hquiet y u ⟨huse.2,hstep⟩)
  have hr := h.trans ht.forget
  exact ⟨t,ht,over_of_idle hS hr (hfree t hr) hidle⟩

/-- The unordered build completes every fork-join program whose code ends: as long as some
process has not exited, or not been reaped, a useful step is possible, and from every state that
a run can get to some run without failures of the system goes on to the end. -/
theorem unordered_completes (code : τ → Cmd τ) (S : System (τ × List Nat))
    (hS : S.code = forkJoin code) (horder : S.order = false)
    (hends : WellFounded (Follows code)) (root : Nat) (hroot : root ≠ 0) (x : τ) (file : Heap)
    (s : State (τ × List Nat)) (h : Reachable (Step S) (initial root (x,[]) file) s) :
    (S.Idle s → s.Over) ∧
    ∃ t, Reachable (Guarded (fun _ y => ¬ y.2.failure) (Step S)) s t ∧ t.Over := by
  have hfree : ∀ t, Reachable (Step S) (initial root (x,[]) file) t → ∀ D, ¬ t.Deadlocked D :=
    fun t ht => (descending_forkJoin hS horder hroot ht).not_deadlocked
  exact ⟨over_of_idle hS h (hfree s h),completes hS hends hfree h⟩

def Halves.left : Halves → ℕ
  | .main => 5
  | .second => 4
  | .joinFirst => 3
  | .joinSecond => 2
  | .low | .high => 1
  | .done => 0

theorem Halves.wf_follows : WellFounded (Follows Halves.code) := by
  refine Subrelation.wf (r := fun y x => y.left < x.left) (fun {y x} h => ?_)
    (InvImage.wf Halves.left wellFounded_lt)
  cases x with
  | main | second => obtain rfl | rfl := h <;> exact Nat.lt_of_sub_eq_succ rfl
  | joinFirst | joinSecond | low | high =>
    cases h
    exact Nat.lt_of_sub_eq_succ rfl
  | done => cases h

/-- The second thread was rolled back, and the main program still runs. -/
theorem unordered_completes_halves : ∃ s,
    Reachable (Step halves) (initial 1 (.main,[]) fun _ => 0) s ∧
    s.rollbackCount = 1 ∧ ¬ s.Over ∧ ¬ halves.Idle s ∧
    ∃ t, Reachable (Guarded (fun _ y => ¬ y.2.failure) (Step halves)) s t ∧ t.Over := by
  obtain ⟨s,hs,hv⟩ := System.run_any halves (initial 1 (.main,[]) fun _ => 0)
    (halvesRun.take 24) (fun s => s.rollbackCount = 1 && (s.procs 1).any fun p =>
      !p.pc.exited) (by decide +kernel)
  simp only [Bool.and_eq_true,decide_eq_true_eq,Option.any_eq_true,Bool.not_eq_true'] at hv
  obtain ⟨hr,p,hp,hlive⟩ := hv
  obtain ⟨hidle,hend⟩ := unordered_completes Halves.code halves rfl rfl Halves.wf_follows 1
    (by decide) .main (fun _ => 0) s hs
  have hover : ¬ s.Over := fun h => absurd (h 1 p hp).1 (by simp [hlive])
  exact ⟨s,hs,hr,hover,fun h => hover (hidle h),hend⟩

end ForkJoin
end GThread
