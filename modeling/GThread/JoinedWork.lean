import GThread.Family
import GThread.Execute

/-! What the return of `Join` says about the work of the thread. An observer follows the
committed transactions of each process from the start of its thread function. -/
namespace GThread
open Replay Transition
variable {σ : Type}

structure Work (σ : Type) where
  body : Nat → Option σ
  spans : Nat → List (Span Nat Byte σ)

def Work.start (root : Nat) (x : σ) : Work σ :=
  ⟨Function.update (fun _ => none) root (some x),fun _ => []⟩

def Work.commit (w : Work σ) (pid : Nat) (p : Proc σ) : Work σ :=
  { w with
    spans := Function.update w.spans pid (⟨p.context.next,p.log,p.cur⟩ :: w.spans pid) }

def Work.fork (w : Work σ) (child : Nat) (f : σ) : Work σ :=
  { w with body := Function.update w.body child (some f) }

/-- The observer. An empty transaction commits in `AtomicEnd`, any other under the mutex. -/
def follow (s : State σ) (x : Nat × Act) (s' : State σ) (w : Work σ) : Work σ :=
  match x.2, s.procs x.1, s'.procs x.1 with
  | .atomicEnd, some p, some p' => match p'.pc with
    | .ended _ => w.commit x.1 p
    | _ => w
  | .lock, some p, some p' => match p'.pc with
    | .commit _ _ => w.commit x.1 p
    | _ => w
  | .fork c, some p, _ => match p.pc with
    | .ended e => match e.fork with
      | some (f,_) => w.fork c f
      | none => w
    | _ => w
  | _, _, _ => w

def System.Resumes (S : System σ) (x y : σ) : Prop :=
  match S.code x with
  | .create _ k | .pthreadCreate _ k => ∃ c, y = k c
  | .join _ k | .pthreadJoin _ k => y = k
  | .load _ _ | .store _ _ _ | .ret => False

/-- The committed transactions `l` take the code from `x` to `y`, each going on where the
one before it ended. -/
inductive Done (S : System σ) (x : σ) : List (Span Nat Byte σ) → σ → Prop where
  | nil : Done S x [] x
  | cons {l y log z u} : Done S x l y → Path S.op y log z → S.Resumes z u →
      Done S x (⟨y,log,z⟩ :: l) u

def Ended (S : System σ) (x : σ) (l : List (Span Nat Byte σ)) (z : σ) : Prop :=
  ∃ y log l', l = ⟨y,log,z⟩ :: l' ∧ Done S x l' y ∧ Path S.op y log z

def Complete (S : System σ) (x : σ) (l : List (Span Nat Byte σ)) : Prop :=
  ∃ z, Ended S x l z ∧ S.code z = .ret

theorem Ended.resume {S : System σ} {x z u : σ} {l : List (Span Nat Byte σ)}
    (h : Ended S x l z) (hr : S.Resumes z u) : Done S x l u := by
  obtain ⟨y,log,l',rfl,hd,hp⟩ := h
  exact hd.cons hp hr

theorem System.resumes_fork {S : System σ} {p : Proc σ} {e : End σ} {f : σ}
    {c : Nat → Context σ} (he : S.endOf p = some e) (hf : e.fork = some (f,c)) (child : Nat) :
    S.Resumes p.cur (c child).next := by
  unfold System.endOf at he
  unfold System.Resumes
  split at he
  · rename_i hk
    obtain rfl := Option.some.inj he
    simp only [End.fork,Option.some.injEq,Prod.mk.injEq] at hf
    rw [hk,← hf.2]
    exact ⟨child,rfl⟩
  · obtain rfl := Option.some.inj he
    cases hf
  · rename_i hk
    obtain rfl := Option.some.inj he
    simp only [End.fork,Option.some.injEq,Prod.mk.injEq] at hf
    rw [hk,← hf.2]
    exact ⟨_,rfl⟩
  · obtain ⟨t,-,rfl⟩ := Option.map_eq_some_iff.mp he
    cases hf
  · obtain rfl := Option.some.inj he
    cases hf
  · cases he
  · cases he

theorem System.resumes_join {S : System σ} {p : Proc σ} {t : Nat} {k : σ}
    (he : S.endOf p = some (.join t k)) : S.Resumes p.cur k := by
  unfold System.endOf at he
  unfold System.Resumes
  split at he <;> simp_all

theorem System.ret_of_exit {S : System σ} {p : Proc σ} (he : S.endOf p = some .exit) :
    S.code p.cur = .ret := by
  unfold System.endOf at he
  split at he <;> simp_all

def Progress (S : System σ) (x : σ) (l : List (Span Nat Byte σ)) (p : Proc σ) : Prop :=
  match p.pc with
  | .atomicBegin c => Done S x l c.next
  | .run | .waitPred _ | .lock _ =>
    Done S x l p.context.next ∧ Path S.op p.context.next p.log p.cur
  | .abort => Done S x l p.context.next
  | .commit _ _ | .copy _ _ _ | .ended _ => Ended S x l p.cur
  | .wait _ k => Done S x l k
  | .zombie e => e = .finished → Complete S x l

def Worked (S : System σ) (s : State σ) (w : Work σ) : Prop :=
  (∀ q p, s.procs q = some p → ∃ x, w.body q = some x ∧ Progress S x (w.spans q) p) ∧
  ∀ q, s.procs q = none → w.spans q = []

theorem Worked.put {S : System σ} {s s' : State σ} {w w' : Work σ} {pid : Nat} {r p : Proc σ}
    (h : Worked S s w) (hr : s.procs pid = some r)
    (procs : s'.procs = Function.update s.procs pid (some p)) (body : w'.body = w.body)
    (others : ∀ q, q ≠ pid → w'.spans q = w.spans q)
    (hp : ∀ x, Progress S x (w.spans pid) r → Progress S x (w'.spans pid) p) :
    Worked S s' w' := by
  constructor
  · rw [procs,body]
    refine forall_put_ne (s := s) (fun q t hq ht => ?_) ?_
    · rw [others q hq]
      exact h.1 q t ht
    · obtain ⟨x,hx,hprog⟩ := h.1 pid r hr
      exact ⟨x,hx,hp x hprog⟩
  · intro q hq
    by_cases hpid : q = pid
    · subst q; simp [procs] at hq
    · rw [others q hpid]
      exact h.2 q (by simpa [procs,hpid] using hq)

theorem Worked.move {S : System σ} {s s' : State σ} {w : Work σ} {pid : Nat} {r p : Proc σ}
    (h : Worked S s w) (hr : s.procs pid = some r)
    (procs : s'.procs = Function.update s.procs pid (some p))
    (hp : ∀ x, Progress S x (w.spans pid) r → Progress S x (w.spans pid) p) : Worked S s' w :=
  h.put hr procs rfl (fun _ _ => rfl) hp

theorem Worked.commit {S : System σ} {s s' : State σ} {w : Work σ} {pid : Nat} {r p : Proc σ}
    (h : Worked S s w) (hr : s.procs pid = some r)
    (procs : s'.procs = Function.update s.procs pid (some p))
    (hp : ∀ x, Progress S x (w.spans pid) r →
      Progress S x (⟨r.context.next,r.log,r.cur⟩ :: w.spans pid) p) :
    Worked S s' (w.commit pid r) :=
  h.put hr procs rfl (fun q hq => by simp [Work.commit,hq]) (by simpa [Work.commit] using hp)

theorem worked_atomicEnd {S : System σ} {s s' : State σ} {pid : Nat} {w : Work σ}
    (h : Step S s (pid,.atomicEnd) s') (hw : Worked S s w) :
    Worked S s' (follow s (pid,.atomicEnd) s' w) := by
  cases h with
  | @atomicEnd _ p e hp hpc he =>
    unfold Proc.atomicEnd
    split
    · have hfollow : follow s (pid,.atomicEnd) (s.put pid { p with
          toAttempt := p.toAttempt.updateHeap s.past.length
          pc := .ended e }) w = w.commit pid p := by simp [follow,hp,State.put]
      rw [hfollow]
      refine hw.commit hp rfl fun x hx => ?_
      simp only [Progress,hpc] at hx
      exact ⟨_,_,_,rfl,hx⟩
    · have hfollow : follow s (pid,.atomicEnd) (s.put pid { p with pc := .waitPred e }) w = w := by
        simp [follow,hp,State.put]
      rw [hfollow]
      exact hw.move hp rfl fun x hx => by simpa only [Progress,hpc] using hx

theorem worked_fork {S : System σ} {s s' : State σ} {pid child : Nat} {w : Work σ}
    (h : Step S s (pid,.fork child) s') (hl : ∀ q p, s.procs q = some p → Local S p)
    (hw : Worked S s w) : Worked S s' (follow s (pid,.fork child) s' w) := by
  cases h with
  | @fork _ p e _ f c hp hpc hf hc hn =>
    have hresume := S.resumes_fork ((hl pid p hp).ending e (by rw [hpc]; rfl)) hf child
    have hparent : Worked S (s.put pid
        { p with predecessor := child, pc := .atomicBegin (c child) }) w :=
      hw.move hp rfl fun x hx => by
        simp only [Progress,hpc] at hx ⊢
        exact hx.resume hresume
    simp only [follow,hp,hpc,hf]
    constructor
    · refine forall_put_ne (fun q t hq ht => ?_) ⟨f,by simp [Work.fork],?_⟩
      · simpa [Work.fork,hq] using hparent.1 q t ht
      · rw [show (w.fork child f).spans child = [] from hw.2 child hn]
        exact .nil
    · intro q hq
      have hqc : q ≠ child := by
        intro heq
        subst heq
        simp [System.forkChild,State.put] at hq
      exact hparent.2 q (by simpa [System.forkChild,State.put,hqc] using hq)

theorem worked_step {S : System σ} {s s' : State σ} {x : Nat × Act} {w : Work σ}
    (h : Step S s x s') (hl : ∀ q p, s.procs q = some p → Local S p) (hw : Worked S s w) :
    Worked S s' (follow s x s' w) := by
  cases h with
  | @atomicBegin pid p c hp hpc hm =>
    refine hw.move hp rfl fun x hx => ?_
    simp only [Progress,hpc] at hx
    exact ⟨hx,.nil⟩
  | @load pid p a k i m hp hpc hk ha hm =>
    refine hw.move hp rfl fun x hx => ?_
    simp only [Progress,hpc] at hx ⊢
    exact ⟨hx.1,hx.2.load (by simp [System.op,hk,Instr.op])⟩
  | @store pid p a b k i m hp hpc hk ha hm =>
    refine hw.move hp rfl fun x hx => ?_
    simp only [Progress,hpc] at hx ⊢
    exact ⟨hx.1,hx.2.store (by simp [System.op,hk,Instr.op])⟩
  | @fault pid p t a hp hpc ha hf =>
    refine hw.move hp rfl fun x hx => ?_
    simp only [Progress,hpc] at hx ⊢
    obtain ⟨-,⟨-,rfl⟩ | ⟨-,rfl⟩⟩ := segfaultHandler_ok hf <;> exact hx
  | @killed pid p a e hp hpc ha hf =>
    refine hw.move hp rfl fun x hx => ?_
    intro heq
    subst heq
    obtain he | he := segfaultHandler_error hf <;> cases he
  | @signaled pid p _ hp hpc => exact hw.move hp rfl fun x hx heq => by cases heq
  | @atomicEnd pid p e hp hpc he => exact worked_atomicEnd (.atomicEnd hp hpc he) hw
  | @waited pid p e s₁ hp hpc hw' =>
    obtain ⟨rfl,-⟩ | ⟨rfl,-⟩ := waitExited_spec hw' <;>
    exact hw.move hp rfl fun x hx => by simpa only [Progress,hpc] using hx
  | @commit pid p e hp hpc hm hc =>
    simp only [follow,hp,State.put,Function.update_self]
    refine hw.commit (p := { p with pc := .commit e p.writeSetVersion.keys }) hp rfl
      fun x hx => ?_
    simp only [Progress,hpc] at hx
    exact ⟨_,_,_,rfl,hx⟩
  | @reject pid p e hp hpc hm hc =>
    simp only [follow,hp,State.put,Function.update_self]
    refine hw.move (p := { p with pc := .abort }) hp rfl fun x hx => ?_
    simp only [Progress,hpc] at hx
    exact hx.1
  | @page pid p e todo page hp hpc hpage =>
    exact hw.move hp rfl fun x hx => by simpa only [Progress,hpc] using hx
  | @memcpy pid p e todo page part hp hpc => exact hw
  | @publish pid p e todo page v hp hpc hv =>
    exact hw.move (p := { p with pc := .commit e todo }) hp rfl fun x hx => by
      simpa only [Progress,hpc] using hx
  | @unlock pid p e hp hpc =>
    exact hw.move (p := { p with
      toAttempt := p.toAttempt.updateHeap s.past.length
      pc := .ended e }) hp rfl fun x hx => by simpa only [Progress,hpc] using hx
  | @abort pid p hp hpc =>
    exact hw.move hp rfl fun x hx => by simpa only [Progress,hpc] using hx
  | @fork pid p e child f c hp hpc hf hc hn => exact worked_fork (.fork hp hpc hf hc hn) hl hw
  | @forkFailed pid p e y hp hpc hf =>
    exact hw.move hp rfl fun x hx => by simp [Progress]
  | @join pid p t k hp hpc =>
    refine hw.move hp rfl fun x hx => ?_
    simp only [Progress,hpc] at hx ⊢
    exact hx.resume (S.resumes_join ((hl pid p hp).ending _ (by rw [hpc]; rfl)))
  | @joined pid p t k s₁ hp hpc hw' =>
    obtain ⟨rfl,-⟩ | ⟨rfl,-⟩ := waitExited_spec hw' <;>
    exact hw.move hp rfl fun x hx => by simpa only [Progress,hpc] using hx
  | @interrupted pid p q hp hq hu =>
    exact hw.move hp rfl fun x hx => by simp [Progress]
  | @exit pid p hp hpc =>
    refine hw.move hp rfl fun x hx => ?_
    simp only [Progress,hpc] at hx ⊢
    exact fun _ => ⟨p.cur,hx,S.ret_of_exit ((hl pid p hp).ending _ (by rw [hpc]; rfl))⟩
  | @reap pid p hp he ho => exact hw

theorem worked_initial (S : System σ) (root : Nat) (x : σ) (file : Heap) :
    Worked S (initial root x file) (.start root x) := by
  refine ⟨fun q p hp => ?_,fun _ _ => rfl⟩
  obtain ⟨rfl,hpc⟩ := initial_procs hp
  refine ⟨x,by simp [Work.start],?_⟩
  simp only [Progress,hpc]
  exact .nil

theorem worked_reachable {S : System σ} {root : Nat} {x : σ} {file : Heap} {s : State σ}
    (h : Reachable (Step S) (initial root x file) s) : ∃ w, Worked S s w := by
  refine h.invariant_within (J := fun s => ∀ q p, s.procs q = some p → Local S p)
    (I := fun s => ∃ w, Worked S s w) (fun t ht => ?_)
    ⟨.start root x,worked_initial S root x file⟩ ?_
  · exact ht.invariant (local_initial S root x file)
      fun _ _ _ hl hstep => local_step hstep hl
  · intro t y u hl hw hstep
    obtain ⟨w,hw⟩ := hw
    exact ⟨follow t y u w,worked_step hstep hl hw⟩

theorem path_reachable {S : System σ} {root : Nat} {x : σ} {file : Heap} {s : State σ}
    (h : Reachable (Step S) (initial root x file) s) {q : Nat} {p : Proc σ}
    (hp : s.procs q = some p) (ho : p.pc.open) : Path S.op p.context.next p.log p.cur := by
  obtain ⟨w,hw⟩ := worked_reachable h
  obtain ⟨y,-,hprog⟩ := hw.1 q p hp
  cases hpc : p.pc <;> simp only [hpc,PC.open] at ho <;> simp only [Progress,hpc] at hprog <;>
    exact hprog.2

inductive Child where
  | main
  | wait (t : Nat)
  | thread
  | last
  | done
  deriving DecidableEq

def Child.code (good : Bool) : Child → Instr Child
  | .main => .create .thread .wait
  | .wait t => .join t .done
  | .thread => .store 0x100000 1 .last
  | .last => if good then .ret else .load 0 fun _ => .done
  | .done => .ret

def child (good : Bool) : System Child := ⟨Child.code good,.adjacent,true,true⟩

end GThread
