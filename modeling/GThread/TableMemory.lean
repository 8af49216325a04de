import GThread.ThreadVector
import GThread.Tracking

/-! The thread tables of the processes in memory. An observer gives each process its vector:
a return of `AtomicBegin` into `pthread_create` appends to it, and a fork copies it. Up to
`limit` entries it holds what the model of the system calls `gthreads`. -/
namespace GThread
open Transition
variable {σ α : Type} {G : Growth}

/-- The observer; `mmap pid n` is what `mmap` returns to process `pid` after `n` others. -/
def appendThread (G : Growth) (mmap : Nat → Nat → PageAddr) (s : State σ) (x : Nat × Act)
    (_ : State σ) (w : Nat → ThreadVector Nat) : Nat → ThreadVector Nat :=
  match x.2, s.procs x.1 with
  | .atomicBegin, some p => match p.pc with
    | .atomicBegin ⟨some t,_⟩ => Function.update w x.1 ((w x.1).pushBack G (mmap x.1) t)
    | _ => w
  | .fork c, _ => Function.update w c (w x.1)
  | _, _ => w

def InheritsPages (mmap : Nat → Nat → PageAddr) (y : State σ × (Nat → ThreadVector Nat))
    (x : Nat × Act) : Prop :=
  ∀ c, x.2 = .fork c → ∀ i < (y.2 x.1).run.pages.length, mmap c i = mmap x.1 i

theorem ThreadVector.pages_pushBack {mmap : Nat → PageAddr} (v : ThreadVector α) (t : α) :
    v.run.pages.length ≤ (v.pushBack G mmap t).run.pages.length := by
  by_cases hroom : v.size < v.capacity
  · rw [ThreadVector.pushBack_room hroom]
  · rw [ThreadVector.pushBack_full hroom rfl]
    by_cases hf : v.run.alloc.Full (gthreadSize * G.next v.capacity)
    · rw [pageRun_full hf]
      exact Nat.le_succ _
    · rw [pageRun_room hf]

theorem ThreadVector.pushBack_congr {mmap mmap' : Nat → PageAddr} {v : ThreadVector α} {t : α}
    (h : ∀ i < (v.pushBack G mmap t).run.pages.length, mmap' i = mmap i) :
    v.pushBack G mmap' t = v.pushBack G mmap t := by
  by_cases hroom : v.size < v.capacity
  · rw [ThreadVector.pushBack_room hroom,ThreadVector.pushBack_room hroom]
  · rw [ThreadVector.pushBack_full hroom rfl] at h
    rw [ThreadVector.pushBack_full hroom rfl,ThreadVector.pushBack_full hroom rfl]
    by_cases hf : v.run.alloc.Full (gthreadSize * G.next v.capacity)
    · rw [pageRun_full hf] at h
      have hnew : mmap' v.run.pages.length = mmap v.run.pages.length :=
        h _ (Nat.lt_succ_self _)
      rw [pageRun_full hf,pageRun_full hf,hnew]
    · rw [pageRun_room hf,pageRun_room hf]
      simp only [PageAllocator.allocate,hf,if_false]

theorem after_congr {mmap mmap' : Nat → PageAddr} (mem : Nat → α) {ts : List α}
    (h : ∀ i < (ThreadVector.after G mmap mem ts).run.pages.length, mmap' i = mmap i) :
    ThreadVector.after G mmap' mem ts = ThreadVector.after G mmap mem ts := by
  induction ts using List.reverseRecOn with
  | nil =>
    have hfirst : mmap' 0 = mmap 0 := h 0 Nat.zero_lt_one
    simp only [ThreadVector.after,List.foldl_nil,ThreadVector.init,PageRun.init,hfirst]
  | append_singleton ts t ih =>
    rw [after_append] at h
    have hold := ih fun i hi => h i (hi.trans_le (ThreadVector.pages_pushBack _ t))
    rw [after_append,after_append,hold]
    exact ThreadVector.pushBack_congr h

def InMemory (G : Growth) (mmap : Nat → Nat → PageAddr) (mem : Nat → Nat)
    (s : State σ) (w : Nat → ThreadVector Nat) : Prop :=
  ∀ q p, s.procs q = some p → w q = ThreadVector.after G (mmap q) mem p.gthreads

theorem inMemory_step {S : System σ} {mmap : Nat → Nat → PageAddr} {mem : Nat → Nat}
    {s s' : State σ} {w : Nat → ThreadVector Nat} {x : Nat × Act} (h : Step S s x s')
    (hpages : InheritsPages mmap (s,w) x) (stay : InMemory G mmap mem s w) :
    InMemory G mmap mem s' (appendThread G mmap s x s' w) := by
  have same : ∀ {q} {p p' : Proc σ}, s.procs q = some p → p'.gthreads = p.gthreads →
      w q = ThreadVector.after G (mmap q) mem p'.gthreads := fun hp he => he ▸ stay _ _ hp
  cases h with
  | @atomicBegin pid p c hp hpc hm =>
    obtain ⟨push,k⟩ := c
    cases push with
    | none =>
      simp only [appendThread,hp,hpc]
      refine forall_put stay ?_
      simpa [Proc.atomicBegin] using stay pid p hp
    | some t =>
      simp only [appendThread,hp,hpc]
      refine forall_put_ne (fun q r hq hr => ?_) ?_
      · rw [Function.update_of_ne hq]
        exact stay q r hr
      · rw [Function.update_self,stay pid p hp]
        exact (after_append mem p.gthreads t).symm
  | @fork pid p e child f c hp hpc hf hc hn =>
    simp only [appendThread]
    refine forall_put_ne (fun q r hq hr => ?_) ?_
    · rw [Function.update_of_ne hq]
      exact forall_put (p := { p with predecessor := child, pc := .atomicBegin (c child) })
        stay (same hp rfl) q r hr
    · rw [Function.update_self]
      refine (same hp rfl).trans (after_congr mem fun i hi => ?_).symm
      refine hpages child rfl i ?_
      change i < (w pid).run.pages.length
      rwa [stay pid p hp]
  | @atomicEnd pid p e hp hpc he =>
    refine forall_put stay (same hp ?_)
    unfold Proc.atomicEnd
    split <;> rfl
  | @waited pid p e s₁ hp hpc hw | @joined pid p t k s₁ hp hpc hw =>
    obtain ⟨rfl,-⟩ | ⟨rfl,-⟩ := waitExited_spec hw <;> exact forall_put stay (same hp rfl)
  | memcpy | reap => exact stay
  | _ =>
    have hp := ‹s.procs _ = some _›
    exact forall_put stay (same hp rfl)

/-- In every run the memory of each process holds its table, in memory of its own, for as long
as the table has at most `limit` entries. -/
theorem table_in_memory (S : System σ) (G : Growth) (mmap : Nat → Nat → PageAddr) (mem : Nat → Nat)
    (root : Nat) (x : σ) (file : Heap) (s : State σ) (w : Nat → ThreadVector Nat)
    (h : Reachable (Guarded (InheritsPages mmap) (Observed (appendThread G mmap) (Step S)))
      (initial root x file,fun _ => .init (mmap root) mem) (s,w))
    (pid : Nat) (p : Proc σ) (hp : s.procs pid = some p)
    (hmmap : Set.InjOn (mmap pid) (Set.Iio (p.gthreads.length + 1)))
    (few : p.gthreads.length ≤ G.limit) : (w pid).Housed p.gthreads := by
  have hmem : InMemory G mmap mem s w := by
    refine h.invariant (I := fun y => InMemory G mmap mem y.1 y.2) ?_ fun y a z hy hgo => ?_
    · intro q r hr
      obtain ⟨rfl,-⟩ := initial_procs hr
      obtain rfl : _ = r := by simpa [initial] using hr
      rfl
    · obtain ⟨hpages,hstep,hw⟩ := hgo
      rw [hw]
      exact inMemory_step hstep hpages hy
  rw [hmem pid p hp]
  exact (housed_iff_fits mem hmmap).mpr (fits_iff_limit.mpr few) p.gthreads []
    (List.append_nil _).symm

end GThread
