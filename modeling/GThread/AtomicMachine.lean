import GThread.Opacity
import GThread.Library.Simulation

/-! What the runtime is for. The threads of a program work on one heap, and all that a thread
does between two calls of the library is one step: nobody else comes in between, nothing is
rolled back, and there are no pages, versions, private copies or locks. -/
namespace GThread
open Replay Transition Insertion
variable {σ : Type}

inductive Phase (σ : Type) where
  | ready (c : Context σ)
  | ending (e : End σ)
  | waiting (t : Nat) (k : σ)
  | gone (e : Exit)

structure Thread (σ : Type) where
  parent : Nat
  predecessor : Nat
  gthreads : List Nat
  phase : Phase σ

/-- The threads stand in `order` as a program that runs each `pthread_create` as a call would
complete them. -/
structure AtomicMachine (σ : Type) where
  threads : Nat → Option (Thread σ)
  heap : Heap
  order : List Nat

def AtomicMachine.put (a : AtomicMachine σ) (pid : Nat) (t : Thread σ) : AtomicMachine σ :=
  { a with threads := Function.update a.threads pid (some t) }

def AtomicMachine.write (a : AtomicMachine σ) (heap : Heap) : AtomicMachine σ :=
  { a with heap := heap }

def AtomicMachine.spawn (a : AtomicMachine σ) (pid child : Nat) (t c : Thread σ) :
    AtomicMachine σ :=
  { (a.put pid t).put child c with order := insertBefore pid child a.order }

def AtomicMachine.Gone (a : AtomicMachine σ) (q : Nat) : Prop :=
  ∃ t e, a.threads q = some t ∧ t.phase = .gone e

def AtomicMachine.Awaited (a : AtomicMachine σ) (t : Thread σ) : Prop :=
  t.predecessor = 0 ∨ a.Gone t.predecessor

def System.ends (S : System σ) (gthreads : List Nat) (x : σ) : Option (End σ) :=
  match S.code x with
  | .create f k => some (.create f k)
  | .join t k => some (.join t k)
  | .pthreadCreate f k => some (.pthreadCreate f gthreads.length (k gthreads.length))
  | .pthreadJoin h k => gthreads[h]?.map fun t => .join t k
  | .ret => some .exit
  | .load _ _ | .store _ _ _ => none

theorem System.op_of_ends {S : System σ} {l : List Nat} {x : σ} {e : End σ}
    (h : S.ends l x = some e) : S.op x = .leave := by
  unfold System.ends at h
  unfold System.op
  cases hk : S.code x <;> simp_all [Instr.op]

def Thread.table (t : Thread σ) (c : Context σ) : List Nat := t.gthreads ++ c.push.toList

inductive AtomicAct where
  | transact
  | retry
  | killed
  | signaled
  | fork (child : Nat)
  | forkFailed
  | join
  | joined
  | interrupted
  | exit

/-- One step of thread `pid`. A transaction that touches the heap comes after all those of the
thread's predecessor. A thread that is rolled back loses its stores to the heap but not the entry
that `pthread_create` made in its table, and a bad address may be one that only a thread that
is about to be rolled back comes to. -/
inductive AtomicStep (S : System σ) (a : AtomicMachine σ) :
    Nat × AtomicAct → AtomicMachine σ → Prop where
  | transact {pid t c l y heap e} : a.threads pid = some t → t.phase = .ready c →
      Exec S.op c.next a.heap l y heap → S.ends (t.table c) y = some e →
      (l ≠ [] → a.Awaited t) →
      AtomicStep S a (pid,.transact)
        ((a.put pid { t with gthreads := t.table c, phase := .ending e }).write heap)
  | retry {pid t c} : a.threads pid = some t → t.phase = .ready c →
      AtomicStep S a (pid,.retry) (a.put pid { t with gthreads := t.table c })
  | killed {pid t c l y b e} : a.threads pid = some t → t.phase = .ready c →
      Path S.op c.next l y → S.Touches y b → ¬ S.layout.InHeap b → e = .segv ∨ e = .abort →
      AtomicStep S a (pid,.killed) (a.put pid { t with phase := .gone e })
  | signaled {pid t c} : a.threads pid = some t → t.phase = .ready c →
      AtomicStep S a (pid,.signaled) (a.put pid { t with phase := .gone .signaled })
  | fork {pid t e child f c} : a.threads pid = some t → t.phase = .ending e →
      e.fork = some (f,c) → child ≠ 0 → a.threads child = none →
      AtomicStep S a (pid,.fork child)
        (a.spawn pid child { t with predecessor := child, phase := .ready (c child) }
          ⟨pid,if S.order then t.predecessor else 0,t.gthreads,.ready ⟨none,f⟩⟩)
  | forkFailed {pid t e x} : a.threads pid = some t → t.phase = .ending e →
      e.fork = some x →
      AtomicStep S a (pid,.forkFailed) (a.put pid { t with phase := .gone .forkFailed })
  | join {pid t q k} : a.threads pid = some t → t.phase = .ending (.join q k) →
      AtomicStep S a (pid,.join) (a.put pid { t with phase := .waiting q k })
  | joined {pid t q k} : a.threads pid = some t → t.phase = .waiting q k →
      q = 0 ∨ a.threads q = none ∨ a.Gone q →
      AtomicStep S a (pid,.joined) (a.put pid { t with phase := .ready ⟨none,k⟩ })
  /-- The wait for a child, in `pthread_join` or before a commit, fails. -/
  | interrupted {pid t q r} : a.threads pid = some t →
      (∃ c, t.phase = .ready c) ∧ q = t.predecessor ∨ (∃ k, t.phase = .waiting q k) →
      a.threads q = some r → r.parent = pid →
      AtomicStep S a (pid,.interrupted) (a.put pid { t with phase := .gone .interrupted })
  | exit {pid t} : a.threads pid = some t → t.phase = .ending .exit →
      AtomicStep S a (pid,.exit) (a.put pid { t with phase := .gone .finished })

def AtomicMachine.initial (root : Nat) (x : σ) (file : Heap) : AtomicMachine σ where
  threads := Function.update (fun _ => none) root (some ⟨0,0,[],.ready ⟨none,x⟩⟩)
  heap := file
  order := [root]

end GThread
