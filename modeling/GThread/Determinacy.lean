import GThread.Refinement
import GThread.SequentialOrder

/-! Fork-join programs whose transactions do not disturb the code before them in the sequential
order compute what the sequential program computes, in every build and every interleaving. The
condition is one on the atomic machine; the runtime inherits the result by refinement. -/
namespace GThread
open Replay Transition Insertion
variable {τ : Type} {code : τ → Cmd τ}

def End.residual : End (τ × List Nat) → List τ
  | .create f k => [f.1,(k 0).1]
  | .pthreadCreate f _ k => [f.1,k.1]
  | .join _ k => [k.1]
  | .exit => []

def Thread.residual (t : Thread (τ × List Nat)) : List τ :=
  match t.phase with
  | .ready c => [c.next.1]
  | .ending e => e.residual
  | .waiting _ k => [k.1]
  | .gone _ => []

def AtomicMachine.residual (a : AtomicMachine (τ × List Nat)) (q : Nat) : List τ :=
  match a.threads q with
  | some t => t.residual
  | none => []

/-- What is left to do, in the order of the sequential program. -/
def AtomicMachine.residuals (a : AtomicMachine (τ × List Nat)) : List τ :=
  a.order.flatMap a.residual

structure AtomicMachine.Transacts {σ : Type} (S : System σ) (a : AtomicMachine σ) (pid : Nat)
    (t : Thread σ) (c : Context σ) (log : List (Access Nat Byte)) (y : σ) (heap : Heap) : Prop where
  thread : a.threads pid = some t
  phase : t.phase = .ready c
  exec : Exec S.op c.next a.heap log y heap
  stop : S.op y = .leave
  awaited : log ≠ [] → a.Awaited t

/-- A transaction does not disturb what its elders have left to do: that could as well run
before it, and both would come out the same. -/
def AtomicMachine.Independent (code : τ → Cmd τ) (S : System (τ × List Nat))
    (a : AtomicMachine (τ × List Nat)) : Prop :=
  ∀ pid t c log y heap, a.Transacts S pid t c log y heap → ∀ pre post,
    a.order = pre ++ pid :: post → ∀ h', Rest code (pre.flatMap a.residual) heap h' →
    ∃ g log', Rest code (pre.flatMap a.residual) a.heap g ∧ Exec S.op c.next g log' y h'

structure Listed {σ : Type} (a : AtomicMachine σ) : Prop where
  mem : ∀ q, q ∈ a.order ↔ a.threads q ≠ none
  nodup : a.order.Nodup

theorem listed_put {σ : Type} {a a' : AtomicMachine σ} {pid : Nat} {t t' : Thread σ} (h : Listed a)
    (ht : a.threads pid = some t)
    (threads : a'.threads = Function.update a.threads pid (some t'))
    (order : a'.order = a.order) : Listed a' := by
  refine ⟨fun q => ?_,order ▸ h.nodup⟩
  rw [order,h.mem,threads]
  by_cases hq : q = pid
  · subst q
    simp [ht]
  · simp [hq]

theorem listed_step {σ : Type} {S : System σ} {a a' : AtomicMachine σ} {x : Nat × AtomicAct}
    (h : AtomicStep S a x a') (hl : Listed a) : Listed a' := by
  cases h with
  | @fork pid t e child f c ht hp hf hc hn =>
    have hpar : Listed (a.put pid { t with predecessor := child, phase := .ready (c child) }) :=
      listed_put hl ht rfl rfl
    have hmem : pid ∈ a.order := (hl.mem pid).mpr (by simp [ht])
    have hfresh : child ∉ a.order := fun hc => (hl.mem child).mp hc hn
    refine ⟨fun q => ?_,nodup_insertBefore hfresh hl.nodup⟩
    have hold : q ∈ a.order ↔ _ := hpar.mem q
    by_cases hq : q = child
    · subst q
      simp [AtomicMachine.spawn,AtomicMachine.put,mem_insertBefore hmem]
    · simpa [AtomicMachine.spawn,AtomicMachine.put,mem_insertBefore hmem,hq] using hold
  | _ => exact listed_put hl ‹a.threads _ = some _› rfl rfl

theorem listed_reachable {σ : Type} {S : System σ} {root : Nat} {x : σ} {file : Heap}
    {a : AtomicMachine σ} (h : Reachable (AtomicStep S) (.initial root x file) a) : Listed a := by
  refine h.invariant ⟨fun q => ?_,List.nodup_singleton root⟩ fun _ _ _ hl hstep =>
    listed_step hstep hl
  by_cases hq : q = root <;> simp [AtomicMachine.initial,hq]

theorem Listed.split {σ : Type} {a : AtomicMachine σ} (h : Listed a) {pid : Nat} {t : Thread σ}
    (ht : a.threads pid = some t) :
    ∃ pre post, a.order = pre ++ pid :: post ∧ pid ∉ pre ∧ pid ∉ post := by
  obtain ⟨pre,post,hord,hpre⟩ := List.eq_append_cons_of_mem ((h.mem pid).mpr (by simp [ht]))
  have hnd := (List.nodup_append.mp (hord ▸ h.nodup)).2.1
  exact ⟨pre,post,hord,hpre,(List.nodup_cons.mp hnd).1⟩

theorem AtomicMachine.residual_of {a : AtomicMachine (τ × List Nat)} {q : Nat}
    {t : Thread (τ × List Nat)} (ht : a.threads q = some t) : a.residual q = t.residual := by
  simp [AtomicMachine.residual,ht]

theorem Seq.of_ends {S : System (τ × List Nat)} (hS : S.code = forkJoin code)
    {gthreads : List Nat} {y : τ × List Nat} {e : End (τ × List Nat)} {h h' : Heap}
    (he : S.ends gthreads y = some e) (hr : Rest code e.residual h h') : Seq code y.1 h h' := by
  unfold System.ends at he
  rw [hS] at he
  unfold forkJoin at he
  cases hc : code y.1 with
  | load a k => simp [hc] at he
  | store a b k => simp [hc] at he
  | create f k =>
    simp only [hc,Option.some.injEq] at he
    subst he
    cases hr with
    | cons hf hk => exact .create hc hf (Rest.single.mp hk)
  | join i k =>
    simp only [hc,Option.some.injEq] at he
    subst he
    exact .join hc (Rest.single.mp hr)
  | ret =>
    simp only [hc,Option.some.injEq] at he
    subst he
    cases hr
    exact .ret hc

theorem op_eq {S : System (τ × List Nat)} (hS : S.code = forkJoin code) (L : Layout) :
    S.op = (ordered code L true).op := by
  funext x
  simp [System.op,hS,ordered]

section Order
variable {S : System (τ × List Nat)} {a a' : AtomicMachine (τ × List Nat)} {x : τ} {file : Heap}

def Completes (code : τ → Cmd τ) (x : τ) (file : Heap) (a : AtomicMachine (τ × List Nat)) : Prop :=
  ∀ h', Rest code a.residuals a.heap h' → Seq code x file h'

theorem Completes.advance (h : Completes code x file a) {pid : Nat}
    {t t' : Thread (τ × List Nat)} (ht : a.threads pid = some t)
    (residual : ∀ h h', Rest code t'.residual h h' → Rest code t.residual h h') :
    Completes code x file (a.put pid t') := by
  intro h' hrest
  refine h h' (Rest.mono (fun q _ h h' hq => ?_) hrest)
  by_cases hqp : q = pid
  · subst q
    rw [AtomicMachine.residual_of ht]
    refine residual h h' ?_
    rwa [AtomicMachine.residual_of (t := t') (by simp [AtomicMachine.put])] at hq
  · simpa [AtomicMachine.residual,AtomicMachine.put,hqp] using hq

theorem residuals_split (pre mid post : List Nat) (order : a'.order = pre ++ (mid ++ post))
    (others : ∀ q ∉ mid, a'.threads q = a.threads q) (apart : ∀ q ∈ mid, q ∉ pre ∧ q ∉ post) :
    a'.residuals = pre.flatMap a.residual ++
      (mid.flatMap a'.residual ++ post.flatMap a.residual) := by
  have same : ∀ q ∉ mid, a'.residual q = a.residual q := by
    intro q hq
    simp only [AtomicMachine.residual,others q hq]
  rw [AtomicMachine.residuals,order,List.flatMap_append,List.flatMap_append,
    List.flatMap_congr fun q hq => same q fun hm => (apart q hm).1 hq]
  exact congrArg _ (congrArg _ (List.flatMap_congr fun q hq =>
    same q fun hm => (apart q hm).2 hq))

theorem rest_split {h h' : Heap} (hr : Rest code a'.residuals h h') (pre mid post : List Nat)
    (order : a'.order = pre ++ (mid ++ post)) (others : ∀ q ∉ mid, a'.threads q = a.threads q)
    (apart : ∀ q ∈ mid, q ∉ pre ∧ q ∉ post) : Rest code (pre.flatMap a.residual ++
      (mid.flatMap a'.residual ++ post.flatMap a.residual)) h h' :=
  residuals_split pre mid post order others apart ▸ hr

theorem completes_transact (hS : S.code = forkJoin code) {pid : Nat}
    (h : AtomicStep S a (pid,.transact) a') (hin : a.Independent code S)
    (hl : Listed a) (hc : Completes code x file a) : Completes code x file a' := by
  cases h with
  | @transact _ t c l y heap e ht hphase hexec hend hpred =>
    obtain ⟨pre,post,hord,hpre,hpost⟩ := hl.split ht
    have apart : ∀ q ∈ [pid], q ∉ pre ∧ q ∉ post := by simp [hpre,hpost]
    have hold : a.residuals = _ := residuals_split pre [pid] post hord (fun _ _ => rfl) apart
    intro h' hrest
    have hnew := rest_split (a := a) hrest pre [pid] post hord
      (fun q hq => by simp_all [AtomicMachine.put,AtomicMachine.write]) apart
    obtain ⟨h₁,hr₁,hnew⟩ := Rest.append.mp hnew
    obtain ⟨h₂,hr₂,hr₃⟩ := Rest.append.mp hnew
    have hrest₂ : Rest code e.residual h₁ h₂ := by
      simpa [AtomicMachine.residual,AtomicMachine.put,AtomicMachine.write,Thread.residual] using hr₂
    obtain ⟨g,log,hg,hexec'⟩ := hin pid t c l y heap
      ⟨ht,hphase,hexec,S.op_of_ends hend,hpred⟩ pre post hord h₁ hr₁
    rw [op_eq hS S.layout] at hexec'
    have hfirst : Rest code ([pid].flatMap a.residual) g h₂ := by
      have hseq := Seq.of_exec hexec' (Seq.of_ends hS hend hrest₂)
      simpa [AtomicMachine.residual,ht,Thread.residual,hphase] using Rest.single.mpr hseq
    exact hc h' (hold ▸ Rest.append.mpr ⟨g,hg,Rest.append.mpr ⟨h₂,hfirst,hr₃⟩⟩)

def AtomicMachine.Called {σ : Type} (S : System σ) (a : AtomicMachine σ) : Prop :=
  ∀ q t e, a.threads q = some t → t.phase = .ending e → ∃ l y, S.ends l y = some e

theorem called_step {σ : Type} {S : System σ} {a a' : AtomicMachine σ} {y : Nat × AtomicAct}
    (h : AtomicStep S a y a') (hc : a.Called S) : a'.Called S := by
  have put {pid : Nat} {t : Thread σ} (ht : ∀ e, t.phase = .ending e → ∃ l y, S.ends l y = some e) :
      (a.put pid t).Called S := fun q r e hr he =>
    Processes.forall_put (I := fun _ r => ∀ e, r.phase = .ending e → ∃ l y, S.ends l y = some e)
      (fun q r hr e he => hc q r e hr he) ht q r hr e he
  cases h with
  | transact hr hphase hexec hend hpred =>
    exact put fun e he => ⟨_,_,Phase.ending.inj he ▸ hend⟩
  | fork hr hphase hf hc hn =>
    exact fun q r e hr he => Processes.forall_put
      (I := fun _ r => ∀ e, r.phase = .ending e → ∃ l y, S.ends l y = some e)
      (fun q r hr e he => put (fun e he => by cases he) q r e hr he) (fun e he => by cases he)
      q r hr e he
  | retry hr hphase => exact put fun e he => by cases hphase.symm.trans he
  | _ => exact put fun e he => by cases he

theorem called_initial {σ : Type} (S : System σ) (root : Nat) (x : σ) (file : Heap) :
    (AtomicMachine.initial root x file).Called S := by
  intro q t e ht he
  by_cases hq : q = root
  · subst q
    simp only [AtomicMachine.initial,Function.update_self,Option.some.injEq] at ht
    subst ht
    cases he
  · simp [AtomicMachine.initial,hq] at ht

theorem ends_forkJoin (hS : S.code = forkJoin code) {l : List Nat} {y : τ × List Nat}
    {e : End (τ × List Nat)} (h : S.ends l y = some e) :
    (∃ f k, e = .create (f,[]) fun c => (k,y.2 ++ [c])) ∨ (∃ q k, e = .join q k) ∨ e = .exit := by
  unfold System.ends at h
  rw [hS] at h
  unfold forkJoin at h
  cases hc : code y.1 with
  | load a k => simp [hc] at h
  | store a b k => simp [hc] at h
  | create f k => exact .inl ⟨f,k,by simpa [hc] using h.symm⟩
  | join i k => exact .inr (.inl ⟨_,_,by simpa [hc] using h.symm⟩)
  | ret => exact .inr (.inr (by simpa [hc] using h.symm))

theorem residuals_fork (hS : S.code = forkJoin code) {pid child : Nat}
    (h : AtomicStep S a (pid,.fork child) a') (hl : Listed a) (hcall : a.Called S) :
    a'.residuals = a.residuals := by
  cases h with
  | @fork _ t e _ f c ht hphase hf hc0 hn =>
    obtain ⟨pre,post,hord,hpre,hpost⟩ := hl.split ht
    have hpc : pid ≠ child := Processes.ne_of_none ht hn
    have hfresh : child ∉ a.order := fun hc => (hl.mem child).mp hc hn
    rw [hord,List.mem_append,List.mem_cons,not_or,not_or] at hfresh
    obtain ⟨l,y,hend⟩ := hcall pid t e ht hphase
    have hends : e.residual = [f.1,(c child).next.1] := by
      obtain ⟨f',k,rfl⟩ | ⟨q,k,rfl⟩ | rfl := ends_forkJoin hS hend <;> cases hf
      rfl
    have hold : a.residuals = _ := residuals_split pre [pid] post hord (fun _ _ => rfl)
      (by simp [hpre,hpost])
    rw [hold,residuals_split (a := a) pre [child,pid] post
      (by simp [AtomicMachine.spawn,hord,insertBefore_append _ _ hpre])
      (fun q hq => by simp_all [AtomicMachine.spawn,AtomicMachine.put])
      (by simp [hpre,hpost,hfresh])]
    simp [ht,hends,AtomicMachine.residual,AtomicMachine.spawn,AtomicMachine.put,Thread.residual,
      hphase,hpc]

theorem residuals_put (a' : AtomicMachine (τ × List Nat)) {pid : Nat}
    {t t' : Thread (τ × List Nat)} (hl : Listed a)
    (ht : a.threads pid = some t) (threads : a'.threads = Function.update a.threads pid (some t'))
    (order : a'.order = a.order) : ∃ pre post, a.residuals = pre ++ (t.residual ++ post) ∧
      a'.residuals = pre ++ (t'.residual ++ post) := by
  obtain ⟨pre,post,hord,hpre,hpost⟩ := hl.split ht
  have apart : ∀ q ∈ [pid], q ∉ pre ∧ q ∉ post := by simp [hpre,hpost]
  have ht' : a'.threads pid = some t' := by simp [threads]
  refine ⟨pre.flatMap a.residual,post.flatMap a.residual,?_,?_⟩
  · rw [residuals_split (a := a) pre [pid] post hord (fun _ _ => rfl) apart]
    simp [AtomicMachine.residual_of ht]
  · rw [residuals_split (a := a) pre [pid] post (order.trans hord)
      (fun q hq => by simp_all) apart]
    simp [AtomicMachine.residual_of ht']

/-- A step leaves what is left to do as it is, or a thread drops what it has left, or a
transaction is done. -/
theorem residuals_step (hS : S.code = forkJoin code) {y : Nat × AtomicAct}
    (h : AtomicStep S a y a') (hl : Listed a) (hcall : a.Called S) :
    a'.residuals = a.residuals ∨ ∃ pre u v post, a.residuals = pre ++ (u ++ post) ∧
      a'.residuals = pre ++ (v ++ post) ∧ (v = [] ∨ ∃ z log w heap gthreads e,
        Exec S.op z a.heap log w heap ∧ S.ends gthreads w = some e ∧ u = [z.1] ∧
        v = e.residual) := by
  have same {pid : Nat} {t t' : Thread (τ × List Nat)} (ht : a.threads pid = some t)
      (hres : t'.residual = t.residual) : (a.put pid t').residuals = a.residuals := by
    obtain ⟨pre,post,hold,hnew⟩ := residuals_put (a := a) (a.put pid t') hl ht rfl rfl
    rw [hold,hnew,hres]
  have gone {pid : Nat} {t : Thread (τ × List Nat)} {x : Exit} {P : List τ → List τ → Prop}
      (ht : a.threads pid = some t) : (a.put pid { t with phase := .gone x }).residuals =
        a.residuals ∨ ∃ pre u v post, a.residuals = pre ++ (u ++ post) ∧
        (a.put pid { t with phase := .gone x }).residuals = pre ++ (v ++ post) ∧
        (v = [] ∨ P u v) := by
    obtain ⟨pre,post,hold,hnew⟩ := residuals_put (a.put pid { t with phase := .gone x }) hl ht
      rfl rfl
    exact .inr ⟨pre,_,_,post,hold,hnew,.inl rfl⟩
  cases h with
  | @transact pid t c l w heap e ht hphase hexec hend hpred =>
    obtain ⟨pre,post,hold,hnew⟩ := residuals_put ((a.put pid
      { t with gthreads := t.table c, phase := .ending e }).write heap) hl ht rfl rfl
    exact .inr ⟨pre,_,_,post,hold,hnew,.inr ⟨c.next,l,w,heap,t.table c,e,hexec,hend,
      by rw [Thread.residual,hphase],rfl⟩⟩
  | fork ht hphase hf hc hn => exact .inl (residuals_fork hS (.fork ht hphase hf hc hn) hl hcall)
  | retry ht hphase => exact .inl (same ht (by simp [Thread.residual,hphase]))
  | join ht hphase | joined ht hphase =>
    exact .inl (same ht (by simp [Thread.residual,hphase,End.residual]))
  | killed ht | signaled ht | forkFailed ht | interrupted ht | exit ht => exact gone ht

theorem gone_step {σ : Type} {S : System σ} {a a' : AtomicMachine σ} {y : Nat × AtomicAct}
    (h : AtomicStep S a y a') {q : Nat} {t : Thread σ} {e : Exit} (ht : a.threads q = some t)
    (he : t.phase = .gone e) : a'.threads q = some t := by
  have stay {pid : Nat} {r r' : Thread σ} (hr : a.threads pid = some r)
      (hne : ∀ e, r.phase ≠ .gone e) : Function.update a.threads pid (some r') q = some t := by
    have hq : q ≠ pid := by
      intro hq
      subst hq
      cases ht.symm.trans hr
      exact hne e he
    simpa [hq] using ht
  cases h with
  | interrupted hr hphase hrq hpar =>
    refine stay hr fun e he => ?_
    obtain ⟨⟨c,hc⟩,-⟩ | ⟨k,hk⟩ := hphase
    · cases hc.symm.trans he
    · cases hk.symm.trans he
  | @fork pid r e child f c hr hphase hf hc hn =>
    have hq : q ≠ child := Processes.ne_of_none ht hn
    rw [AtomicMachine.spawn,show AtomicMachine.threads _ = Function.update _ child _ from rfl,
      Function.update_of_ne hq]
    exact stay hr fun e he => by cases hphase.symm.trans he
  | transact hr hphase | retry hr hphase | killed hr hphase | signaled hr hphase
  | forkFailed hr hphase | join hr hphase | joined hr hphase | exit hr hphase =>
    exact stay hr fun e he => by cases hphase.symm.trans he

def AtomicMachine.Clean {σ : Type} (a : AtomicMachine σ) : Prop :=
  ∀ q t e, a.threads q = some t → t.phase = .gone e → e = .finished

theorem clean_step {σ : Type} {S : System σ} {a a' : AtomicMachine σ} {y : Nat × AtomicAct}
    (h : AtomicStep S a y a') (hc : a'.Clean) : a.Clean :=
  fun q t e ht he => hc q t e (gone_step h ht he) he

theorem clean_of_finished {σ : Type} {a : AtomicMachine σ}
    (hall : ∀ q t, a.threads q = some t → t.phase = .gone .finished) : a.Clean :=
  fun q t _ ht he => (Phase.gone.inj ((hall q t ht).symm.trans he)).symm

theorem residuals_of_finished
    (hall : ∀ q t, a.threads q = some t → t.phase = .gone .finished) : a.residuals = [] := by
  refine List.flatMap_eq_nil_iff.mpr fun q _ => ?_
  cases hq : a.threads q with
  | none => simp [AtomicMachine.residual,hq]
  | some t => rw [AtomicMachine.residual_of hq,Thread.residual,hall q t hq]

theorem completes_step (hS : S.code = forkJoin code) {y : Nat × AtomicAct}
    (h : AtomicStep S a y a') (hin : a.Independent code S) (hl : Listed a) (hcall : a.Called S)
    (hclean : a'.Clean) (hc : Completes code x file a) : Completes code x file a' := by
  have error {pid : Nat} {t : Thread (τ × List Nat)} {e : Exit}
      (hclean : (a.put pid { t with phase := .gone e }).Clean) (he : e ≠ .finished) :
      Completes code x file (a.put pid { t with phase := .gone e }) :=
    absurd (hclean pid _ e (by simp [AtomicMachine.put]; rfl) rfl) he
  cases h with
  | transact hr hphase hexec hend hpred =>
    exact completes_transact hS (.transact hr hphase hexec hend hpred) hin hl hc
  | fork hr hphase hf hc0 hn =>
    intro h' hrest
    rw [residuals_fork hS (.fork hr hphase hf hc0 hn) hl hcall] at hrest
    exact hc h' hrest
  | retry hr hphase => exact hc.advance hr fun h h' hrest => hrest
  | killed hr hphase hpath htouch hout he =>
    exact error hclean (by obtain rfl | rfl := he <;> simp)
  | signaled hr hphase => exact error hclean (by simp)
  | forkFailed hr hphase hf => exact error hclean (by simp)
  | interrupted hr hphase hrq hpar => exact error hclean (by simp)
  | join hr hphase | joined hr hphase | exit hr hphase =>
    refine hc.advance hr fun h h' hrest => ?_
    simpa [Thread.residual,hphase,End.residual] using hrest

/-- On the machine: if no transaction disturbs its elders and every thread ends regularly, the
threads together have run the sequential program. -/
theorem machine_sequential (hS : S.code = forkJoin code) {root : Nat}
    (h : Reachable (Guarded (fun a _ => a.Independent code S) (AtomicStep S))
      (.initial root (x,[]) file) a)
    (hall : ∀ q t, a.threads q = some t → t.phase = .gone .finished) : Seq code x file a.heap := by
  have inv : a.Called S ∧ (a.Clean → Completes code x file a) := by
    refine h.invariant_within (J := Listed)
      (I := fun a => a.Called S ∧ (a.Clean → Completes code x file a))
      (fun t ht => listed_reachable ht.forget)
      ⟨called_initial S root (x,[]) file,fun _ h' hrest => ?_⟩ fun t y u hl hinv hgo => ?_
    · have hres : (AtomicMachine.initial root (x,[]) file).residuals = [x] := by
        simp [AtomicMachine.residuals,AtomicMachine.residual,AtomicMachine.initial,Thread.residual]
      exact Rest.single.mp (hres ▸ hrest)
    · obtain ⟨hcall,hcomp⟩ := hinv
      obtain ⟨hin,hstep⟩ := hgo
      exact ⟨called_step hstep hcall,fun hclean =>
        completes_step hS hstep hin hl hcall hclean (hcomp (clean_step hstep hclean))⟩
  exact inv.2 (clean_of_finished hall) _ (residuals_of_finished hall ▸ .nil)

end Order

section Footprint

/-- What code that starts in `x` may come to, in its own thread or in one it creates, whatever
its loads return. -/
inductive Reaches (code : τ → Cmd τ) : τ → τ → Prop where
  | refl {x} : Reaches code x x
  | load {x a k b y} : code x = .load a k → Reaches code (k b) y → Reaches code x y
  | store {x a b k y} : code x = .store a b k → Reaches code k y → Reaches code x y
  | child {x f k y} : code x = .create f k → Reaches code f y → Reaches code x y
  | create {x f k y} : code x = .create f k → Reaches code k y → Reaches code x y
  | join {x i k y} : code x = .join i k → Reaches code k y → Reaches code x y

def Writes (code : τ → Cmd τ) (x : τ) (a : Nat) : Prop :=
  ∃ y b k, Reaches code x y ∧ code y = .store a b k

def Accesses (code : τ → Cmd τ) (x : τ) (a : Nat) : Prop :=
  Writes code x a ∨ ∃ y k, Reaches code x y ∧ code y = .load a k

theorem Writes.mono {x y : τ} {a : Nat} (hxy : ∀ z, Reaches code y z → Reaches code x z)
    (h : Writes code y a) : Writes code x a := by
  obtain ⟨z,b,k,hz,hc⟩ := h
  exact ⟨z,b,k,hxy z hz,hc⟩

theorem Accesses.mono {x y : τ} {a : Nat} (hxy : ∀ z, Reaches code y z → Reaches code x z)
    (h : Accesses code y a) : Accesses code x a :=
  h.imp (Writes.mono hxy) fun ⟨z,k,hz,hc⟩ => ⟨z,k,hxy z hz,hc⟩

/-- The sequential program on another heap that holds the same where it looks. Whatever the two
heaps agreed on they agree on afterwards. -/
theorem Seq.frame {x : τ} {h h' g : Heap} (hs : Seq code x h h')
    (agree : ∀ a, Accesses code x a → g a = h a) : ∃ g', Seq code x g g' ∧
      (∀ a, g a = h a → g' a = h' a) ∧ ∀ a, ¬ Writes code x a → g' a = g a := by
  induction hs generalizing g with
  | @load x a k h h' hc _ ih =>
    have hrest : ∀ z, Reaches code (k (h a)) z → Reaches code x z := fun z => .load hc
    obtain ⟨g',hg,hsame,hout⟩ := ih fun b hb => agree b (hb.mono hrest)
    have hval : g a = h a := agree a (.inr ⟨x,k,.refl,hc⟩)
    exact ⟨g',.load hc (hval ▸ hg),hsame,fun b hb => hout b fun hw => hb (hw.mono hrest)⟩
  | @store x a b k h h' hc _ ih =>
    have hrest : ∀ z, Reaches code k z → Reaches code x z := fun z => .store hc
    have hupdate : ∀ c, g c = h c → Function.update g a b c = Function.update h a b c := by
      intro c hgc
      by_cases hca : c = a
      · simp [hca]
      · simpa [hca] using hgc
    obtain ⟨g',hg,hsame,hout⟩ := ih fun c hca => hupdate c (agree c (hca.mono hrest))
    refine ⟨g',.store hc hg,fun c hgc => hsame c (hupdate c hgc),fun c hcw => ?_⟩
    have hne : c ≠ a := fun h => hcw (h ▸ ⟨x,b,k,.refl,hc⟩)
    rw [hout c fun hw => hcw (hw.mono hrest),Function.update_of_ne hne]
  | @create x f k h h₁ h' hc _ _ ihf ihk =>
    have hchild : ∀ z, Reaches code f z → Reaches code x z := fun z => .child hc
    have hrest : ∀ z, Reaches code k z → Reaches code x z := fun z => .create hc
    obtain ⟨g₁,hg₁,hsame₁,hout₁⟩ := ihf fun a ha => agree a (ha.mono hchild)
    obtain ⟨g',hg,hsame,hout⟩ := ihk fun a ha => hsame₁ a (agree a (ha.mono hrest))
    exact ⟨g',.create hc hg₁ hg,fun a ha => hsame a (hsame₁ a ha),fun a ha =>
      (hout a fun hw => ha (hw.mono hrest)).trans (hout₁ a fun hw => ha (hw.mono hchild))⟩
  | @join x i k h h' hc _ ih =>
    have hrest : ∀ z, Reaches code k z → Reaches code x z := fun z => .join hc
    obtain ⟨g',hg,hsame,hout⟩ := ih fun a ha => agree a (ha.mono hrest)
    exact ⟨g',.join hc hg,hsame,fun a ha => hout a fun hw => ha (hw.mono hrest)⟩
  | @ret x h hc => exact ⟨g,.ret hc,fun _ ha => ha,fun _ _ => rfl⟩

theorem Rest.frame {l : List τ} {h h' g : Heap} (hr : Rest code l h h')
    (agree : ∀ a, (∃ x ∈ l, Accesses code x a) → g a = h a) : ∃ g', Rest code l g g' ∧
      (∀ a, g a = h a → g' a = h' a) ∧ ∀ a, (∀ x ∈ l, ¬ Writes code x a) → g' a = g a := by
  induction hr generalizing g with
  | nil => exact ⟨g,.nil,fun _ ha => ha,fun _ _ => rfl⟩
  | @cons x l h h₁ h' hs _ ih =>
    obtain ⟨g₁,hg₁,hsame₁,hout₁⟩ := hs.frame fun a ha => agree a ⟨x,List.mem_cons_self,ha⟩
    obtain ⟨g',hg,hsame,hout⟩ := ih (g := g₁) fun a ⟨y,hy,ha⟩ =>
      hsame₁ a (agree a ⟨y,List.mem_cons_of_mem _ hy,ha⟩)
    exact ⟨g',.cons hg₁ hg,fun a ha => hsame a (hsame₁ a ha),fun a ha =>
      (hout a fun y hy => ha y (List.mem_cons_of_mem _ hy)).trans
        (hout₁ a (ha x List.mem_cons_self))⟩

theorem Rest.unique {l : List τ} {h h₁ h₂ : Heap} (r₁ : Rest code l h h₁)
    (r₂ : Rest code l h h₂) : h₁ = h₂ := by
  induction r₁ generalizing h₂ with
  | nil =>
    cases r₂
    rfl
  | cons hs _ ih =>
    cases r₂ with
    | cons hs' hr' =>
      obtain rfl := hs.unique hs'
      exact ih hr'

theorem Rest.unwritten {l : List τ} {h h' : Heap} (hr : Rest code l h h') {a : Nat}
    (ha : ∀ x ∈ l, ¬ Writes code x a) : h' a = h a := by
  obtain ⟨g,hg,-,hout⟩ := hr.frame (g := h) fun _ _ => rfl
  rw [hr.unique hg]
  exact hout a ha

def Apart (code : τ → Cmd τ) (log : List (Access Nat Byte)) (l : List τ) : Prop :=
  ∀ z ∈ log, ∀ x ∈ l, match z with
    | .load a _ => ¬ Writes code x a
    | .store a _ => ¬ Accesses code x a

theorem Apart.unwritten {log : List (Access Nat Byte)} {l : List τ} (h : Apart code log l)
    {z : Access Nat Byte} (hz : z ∈ log) {x : τ} (hx : x ∈ l) : ¬ Writes code x z.addr := by
  have hzx := h z hz x hx
  cases z with
  | load a b => exact hzx
  | store a b => exact fun hw => hzx (.inl hw)

theorem Apart.mover {op : τ × List Nat → Op Nat Byte (τ × List Nat)} {x y : τ × List Nat}
    {l : List τ} {h g h' : Heap} {log : List (Access Nat Byte)} (hexec : Exec op x h log y g)
    (hr : Rest code l g h') (hapart : Apart code log l) :
    ∃ g' log', Rest code l h g' ∧ Exec op x g' log' y h' := by
  have hkept : ∀ a, (∃ x ∈ l, Accesses code x a) → h a = g a := by
    intro a hacc
    obtain ⟨x,hx,hacc⟩ := hacc
    exact (hexec.unstored fun b hb => hapart _ hb x hx hacc).symm
  obtain ⟨g',hg,hsame,hout⟩ := hr.frame hkept
  have hinside : ∀ a ∈ {a | ∃ z ∈ log, z.addr = a}, g' a = h a := by
    intro a hz
    obtain ⟨z,hz,rfl⟩ := hz
    exact hout _ fun x hx => hapart.unwritten hz hx
  obtain ⟨k,hk,hin,hoff⟩ := hexec.frame (A := {a | ∃ z ∈ log, z.addr = a})
    (fun z hz => ⟨z,hz,rfl⟩) hinside
  have hend : k = h' := by
    funext a
    by_cases hz : ∃ z ∈ log, z.addr = a
    · rw [hin a hz]
      obtain ⟨z,hz,rfl⟩ := hz
      exact (hr.unwritten fun x hx => hapart.unwritten hz hx).symm
    · rw [hoff a hz]
      refine hsame a (hexec.unstored fun b hb => hz ⟨_,hb,rfl⟩).symm
  exact ⟨g',log,hg,hend ▸ hk⟩

/-- No transaction conflicts with what its elders may still come to do. -/
def AtomicMachine.RaceFree (code : τ → Cmd τ) (S : System (τ × List Nat))
    (a : AtomicMachine (τ × List Nat)) : Prop :=
  ∀ pid t c log y heap, a.Transacts S pid t c log y heap → ∀ pre post,
    a.order = pre ++ pid :: post → Apart code log (pre.flatMap a.residual)

theorem AtomicMachine.RaceFree.independent {S : System (τ × List Nat)}
    {a : AtomicMachine (τ × List Nat)} (h : a.RaceFree code S) : a.Independent code S :=
  fun pid t c log y heap htx pre post hord _ hrest =>
    Apart.mover htx.exec hrest (h pid t c log y heap htx pre post hord)

end Footprint

theorem free_of_exited {σ : Type} {S : System σ} {s : State σ} (hs : Sound S s)
    (he : ∀ q p, s.procs q = some p → p.pc.exited = true) : s.mutex = none := by
  cases hm : s.mutex with
  | none => rfl
  | some q =>
    obtain ⟨p,hp,hcom⟩ := hs.versions.holder q hm
    obtain ⟨e,hpc⟩ := PC.exited_iff.mp (he q p hp)
    simp [hpc,PC.committing] at hcom

theorem refines_finished {σ : Type} {S : System σ} (hlive : S.live = true) {root : Nat} {x : σ}
    {file : Heap} {s : State σ} (h : Reachable (Step S) (initial root x file) s)
    (hall : ∀ q p, s.procs q = some p → p.pc = .zombie .finished) :
    ∃ a, Reachable (AtomicStep S) (.initial root x file) a ∧
      (∀ q t, a.threads q = some t → t.phase = .gone .finished) ∧ s.now.bytes = a.heap := by
  obtain ⟨a,ha,hr⟩ := refines_reachable hlive h
  have hfree : s.mutex = none :=
    free_of_exited (sound_reachable h) fun q p hp => PC.exited_iff.mpr ⟨_,hall q p hp⟩
  refine ⟨a,ha,fun q t ht => ?_,hr.file (serialized_reachable hlive h) hfree⟩
  obtain ⟨p,hp,hst⟩ := Processes.rel_some_right (ht ▸ hr.threads q)
  simp only [Stands,hall q p hp] at hst
  exact hst.2.2

theorem sequential_of_independent {S : System (τ × List Nat)} (hS : S.code = forkJoin code)
    (hlive : S.live = true) {root : Nat} {x : τ} {file : Heap}
    (hin : ∀ a, Reachable (AtomicStep S) (.initial root (x,[]) file) a → a.Independent code S)
    {s : State (τ × List Nat)} (h : Reachable (Step S) (initial root (x,[]) file) s)
    (hall : ∀ q p, s.procs q = some p → p.pc = .zombie .finished) :
    Seq code x file s.now.bytes := by
  obtain ⟨a,ha,hgone,hheap⟩ := refines_finished hlive h hall
  rw [hheap]
  exact machine_sequential hS (ha.guard fun b _ hb => hin b hb) hgone

end GThread
