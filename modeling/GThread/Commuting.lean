import GThread.Determinacy
import Mathlib.Logic.Function.Iterate

/-! Programs that race and still have one result: wherever a transaction runs, it does the same to
the heap, some number of times. Then the transactions commute, and the runtime, which makes them
atomic, counts right. -/
namespace GThread
open Replay Transition Insertion Relation
variable {τ : Type} {code : τ → Cmd τ} {f F : Heap → Heap}

def Cmd.op : Cmd τ → Op Nat Byte τ
  | .load a k => .load a k
  | .store a b k => .store a b k
  | .create _ _ | .join _ _ | .ret => .leave

/-- Alone the code at `x` comes to `y` and has done `F` to the heap, whatever that was. -/
def Transforms (code : τ → Cmd τ) (x : τ) (F : Heap → Heap) (y : τ) : Prop :=
  ∀ h, ReflTransGen (Moves fun z => (code z).op) (x,h) (y,F h)

theorem Transforms.trans {x y z : τ} {G : Heap → Heap} (h : Transforms code x F y)
    (h' : Transforms code y G z) : Transforms code x (G ∘ F) z :=
  fun m => (h m).trans (h' (F m))

theorem runs_forkJoin {S : System (τ × List Nat)} (hS : S.code = forkJoin code) {x y : τ × Heap}
    (l : List Nat) (h : ReflTransGen (Moves fun z => (code z).op) x y) :
    ReflTransGen (Moves S.op) ((x.1,l),x.2) ((y.1,l),y.2) := by
  refine ReflTransGen.lift (fun z : τ × Heap => ((z.1,l),z.2)) (fun u v huv => ?_) _ _ h
  show Moves S.op ((u.1,l),u.2) ((v.1,l),v.2)
  unfold Moves System.op at *
  rw [hS]
  unfold forkJoin
  cases hc : code u.1 <;> simp_all [Cmd.op,Instr.op]

theorem Seq.of_runs {x y : τ × Heap} {h' : Heap}
    (h : ReflTransGen (Moves fun z => (code z).op) x y) (hs : Seq code y.1 y.2 h') :
    Seq code x.1 x.2 h' := by
  induction h using ReflTransGen.head_induction_on with
  | refl => exact hs
  | @head u v hmove _ ih =>
    unfold Moves at hmove
    cases hc : code u.1 <;> simp only [hc,Cmd.op] at hmove
    all_goals subst hmove
    · exact .load hc ih
    · exact .store hc ih

/-- Run alone the code at `x` does `f` to the heap `n` times, and each of its transactions does
`f` some number of times. -/
inductive Counts (code : τ → Cmd τ) (f : Heap → Heap) : τ → ℕ → Prop where
  | ret {x y d} : Transforms code x f^[d] y → code y = .ret → Counts code f x d
  | join {x y d i k n} : Transforms code x f^[d] y → code y = .join i k → Counts code f k n →
      Counts code f x (n + d)
  | create {x y d g k m n} : Transforms code x f^[d] y → code y = .create g k →
      Counts code f g m → Counts code f k n → Counts code f x (n + (m + d))

theorem Counts.seq {x : τ} {n : ℕ} (h : Counts code f x n) (m : Heap) :
    Seq code x m (f^[n] m) := by
  induction h generalizing m with
  | @ret x y d ht hc => exact .of_runs (ht m) (.ret hc)
  | @join x y d i k n ht hc _ ih =>
    rw [Function.iterate_add_apply]
    exact .of_runs (ht m) (.join hc (ih _))
  | @create x y d g k l n ht hc _ _ ihg ihk =>
    rw [Function.iterate_add_apply,Function.iterate_add_apply]
    exact .of_runs (ht m) (.create hc (ihg _) (ihk _))

theorem Counts.after {x y : τ} {n d : ℕ} (h : Counts code f y n)
    (ht : Transforms code x f^[d] y) : Counts code f x (n + d) := by
  have joined {z : τ} {e : ℕ} (hz : Transforms code y f^[e] z) :
      Transforms code x f^[e + d] z := by
    rw [Function.iterate_add]
    exact ht.trans hz
  cases h with
  | ret hz hc => exact .ret (joined hz) hc
  | join hz hc hk =>
    rw [Nat.add_assoc]
    exact .join (joined hz) hc hk
  | create hz hc hg hk =>
    rw [Nat.add_assoc,Nat.add_assoc]
    exact .create (joined hz) hc hg hk

def AllCount (code : τ → Cmd τ) (f : Heap → Heap) (l : List τ) : Prop :=
  ∀ z ∈ l, ∃ n, Counts code f z n

theorem rest_of_counts {l : List τ} (h : AllCount code f l) :
    ∃ n, ∀ m, Rest code l m (f^[n] m) := by
  induction l with
  | nil => exact ⟨0,fun _ => .nil⟩
  | cons x l ih =>
    obtain ⟨n,hn⟩ := h x List.mem_cons_self
    obtain ⟨k,hk⟩ := ih fun y hy => h y (List.mem_cons_of_mem _ hy)
    refine ⟨k + n,fun m => ?_⟩
    rw [Function.iterate_add_apply]
    exact .cons (hn.seq m) (hk _)

section
variable {S : System (τ × List Nat)} {a a' : AtomicMachine (τ × List Nat)} {x y : τ} {n : ℕ}

theorem Counts.transaction (h : Counts code f x n) : ∃ y d, Transforms code x f^[d] y ∧
    (code y).op = .leave ∧ ∀ S : System (τ × List Nat), S.code = forkJoin code →
      ∀ gthreads l e, S.ends gthreads (y,l) = some e → AllCount code f e.residual := by
  have ends {S : System (τ × List Nat)} (hS : S.code = forkJoin code) {y : τ}
      {gthreads l : List Nat} {e : End (τ × List Nat)} (he : S.ends gthreads (y,l) = some e) :
      ∀ z ∈ e.residual, (∃ g k, code y = .create g k ∧ (z = g ∨ z = k)) ∨
        ∃ i k, code y = .join i k ∧ z = k := by
    intro z hz
    unfold System.ends at he
    rw [hS] at he
    unfold forkJoin at he
    cases hc : code y <;> simp only [hc,Option.some.injEq,reduceCtorEq] at he <;> subst he <;>
      simp_all [End.residual]
  cases h with
  | @ret _ y _ ht hc =>
    refine ⟨y,n,ht,by rw [hc]; rfl,fun S hS gthreads l e he z hz => ?_⟩
    obtain ⟨g,k,hk,-⟩ | ⟨i,k,hk,-⟩ := ends hS he z hz <;> cases hc.symm.trans hk
  | @join _ y d i k m ht hc hk =>
    refine ⟨y,d,ht,by rw [hc]; rfl,fun S hS gthreads l e he z hz => ?_⟩
    obtain ⟨g,k',hk',-⟩ | ⟨i',k',hk',rfl⟩ := ends hS he z hz <;> cases hc.symm.trans hk'
    exact ⟨m,hk⟩
  | @create _ y d g k m m' ht hc hg hk =>
    refine ⟨y,d,ht,by rw [hc]; rfl,fun S hS gthreads l e he z hz => ?_⟩
    obtain ⟨g',k',hk',hz⟩ | ⟨i',k',hk',-⟩ := ends hS he z hz <;> cases hc.symm.trans hk'
    obtain rfl | rfl := hz
    · exact ⟨m,hg⟩
    · exact ⟨m',hk⟩

theorem Transforms.exec (h : Transforms code x F y) (hy : (code y).op = .leave)
    (hS : S.code = forkJoin code) {l : List Nat} {m g : Heap} {log : List (Access Nat Byte)}
    {w : τ × List Nat} (hexec : Exec S.op (x,l) m log w g) (hw : S.op w = .leave) :
    w = (y,l) ∧ g = F m := by
  have hleave : S.op (y,l) = .leave := by
    unfold System.op
    rw [hS]
    unfold forkJoin
    cases hc : code y <;> simp_all [Cmd.op,Instr.op]
  have hsame := runs_unique hexec.runs (runs_forkJoin hS l (h m)) hw hleave
  exact ⟨congrArg Prod.fst hsame,congrArg Prod.snd hsame⟩

theorem allCount_step (hS : S.code = forkJoin code) (hprep : Transforms code x F y)
    (hy : Counts code f y n) {w : Nat × AtomicAct} (hstep : AtomicStep S a w a')
    (hl : Listed a) (hcall : a.Called S) (h : a.residuals = [x] ∨ AllCount code f a.residuals) :
    a'.residuals = [x] ∨ AllCount code f a'.residuals := by
  obtain hsame | ⟨pre,u,v,post,hold,hnew,hv⟩ := residuals_step hS hstep hl hcall
  · rwa [hsame]
  rw [hold] at h
  rw [hnew]
  obtain rfl | ⟨z,log,w,heap,gthreads,e,hexec,hend,rfl,rfl⟩ := hv
  · have hsub : (pre ++ ([] ++ post)).Sublist (pre ++ (u ++ post)) :=
      (List.Sublist.refl pre).append (List.sublist_append_right u post)
    obtain hx | hc := h
    · obtain hnil | hx := List.sublist_singleton.mp (hx ▸ hsub)
      · rw [hnil]
        exact .inr fun z hz => absurd hz List.not_mem_nil
      · exact .inl hx
    · exact .inr fun z hz => hc z (hsub.subset hz)
  · have done {G : Heap → Heap} {y' : τ} (ht : Transforms code z.1 G y')
        (hleave : (code y').op = .leave)
        (hrest : ∀ gthreads l e, S.ends gthreads (y',l) = some e →
          AllCount code f e.residual) : AllCount code f e.residual := by
      obtain ⟨rfl,-⟩ := ht.exec hleave hS hexec (S.op_of_ends hend)
      exact hrest gthreads _ e hend
    obtain hx | hc := h
    · obtain ⟨rfl,hx⟩ | ⟨-,hx⟩ := List.append_eq_singleton_iff.mp hx
      · obtain ⟨rfl,rfl⟩ := List.cons.inj hx
        obtain ⟨y',d,ht,hleave,hrest⟩ := hy.transaction
        refine .inr ?_
        simpa using done (hprep.trans ht) hleave (hrest S hS)
      · simp at hx
    · obtain ⟨m,hz⟩ := hc z.1 (by simp)
      obtain ⟨y',d,ht,hleave,hrest⟩ := hz.transaction
      have hres := done ht hleave (hrest S hS)
      refine .inr fun r hr => ?_
      simp only [List.mem_append] at hr
      obtain hr | hr | hr := hr
      · exact hc r (by simp [hr])
      · exact hres r hr
      · exact hc r (by simp [hr])

theorem allCount_reachable (hS : S.code = forkJoin code) (hprep : Transforms code x F y)
    (hy : Counts code f y n) {root : Nat} {file : Heap}
    (hr : Reachable (AtomicStep S) (.initial root (x,[]) file) a) :
    a.residuals = [x] ∨ AllCount code f a.residuals := by
  suffices hboth : a.Called S ∧ (a.residuals = [x] ∨ AllCount code f a.residuals) from hboth.2
  refine hr.invariant_within (J := Listed)
    (I := fun a => a.Called S ∧ (a.residuals = [x] ∨ AllCount code f a.residuals))
    (fun _ => listed_reachable) ⟨called_initial S root (x,[]) file,.inl ?_⟩
    fun t y u hl hinv hstep => ?_
  · simp [AtomicMachine.residuals,AtomicMachine.residual,AtomicMachine.initial,Thread.residual]
  · exact ⟨called_step hstep hinv.1,allCount_step hS hprep hy hstep hl hinv.1 hinv.2⟩

/-- What comes first in the order may as well have come first in time. -/
theorem independent_of_allCount (hS : S.code = forkJoin code)
    (h : a.residuals = [x] ∨ AllCount code f a.residuals) : a.Independent code S := by
  intro pid t c log w heap htx pre post hord h' hrest
  have hres : a.residuals = pre.flatMap a.residual ++ ([c.next.1] ++ post.flatMap a.residual) := by
    rw [AtomicMachine.residuals,hord,List.flatMap_append,List.flatMap_cons,
      AtomicMachine.residual_of htx.thread,Thread.residual,htx.phase]
  rw [hres] at h
  obtain hx | hc := h
  · obtain ⟨hnil,-⟩ | ⟨-,hx⟩ := List.append_eq_singleton_iff.mp hx
    · rw [hnil] at hrest ⊢
      cases hrest
      exact ⟨a.heap,log,.nil,htx.exec⟩
    · simp at hx
  · obtain ⟨m,hm⟩ := hc c.next.1 (by simp)
    obtain ⟨y,d,ht,hleave,-⟩ := hm.transaction
    obtain ⟨rfl,rfl⟩ := ht.exec hleave hS htx.exec htx.stop
    obtain ⟨k,hk⟩ := rest_of_counts fun z hz => hc z (List.mem_append_left _ hz)
    obtain rfl := hrest.unique (hk _)
    obtain ⟨log',hexec⟩ := exists_exec (runs_forkJoin hS c.next.2 (ht (f^[k] a.heap)))
    refine ⟨f^[k] a.heap,log',hk _,?_⟩
    rwa [← Function.iterate_add_apply,Nat.add_comm,Function.iterate_add_apply] at hexec

end

/-- A program that prepares the heap and then counts arrives at the sum, in either build and
whatever its threads overwrite of each other's. -/
theorem sum_of_counts {S : System (τ × List Nat)} (hS : S.code = forkJoin code)
    (hlive : S.live = true) {x y : τ} {n : ℕ} (hprep : Transforms code x F y)
    (hy : Counts code f y n) {root : Nat} {file : Heap} {s : State (τ × List Nat)}
    (h : Reachable (Step S) (initial root (x,[]) file) s)
    (hall : ∀ q p, s.procs q = some p → p.pc = .zombie .finished) :
    s.now.bytes = f^[n] (F file) := by
  have hseq := sequential_of_independent hS hlive
    (fun a ha => independent_of_allCount hS (allCount_reachable hS hprep hy ha)) h hall
  exact hseq.unique (.of_runs (hprep file) (hy.seq (F file)))

end GThread
