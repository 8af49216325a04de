import GThread.Process
import GThread.Library.Transition
import GThread.Library.Insertion

/-! The processes of the runtime over one shared file: every interleaving of their steps.
A step is as small as another process can tell: the bytes of a page arrive in the file in
any number of portions and any order while the others keep reading it. -/
namespace GThread
open Replay Transition Insertion

/-- A program on one build of the runtime. `order` says that `NO_ORDER` is not defined;
`live` that a page without private copy shows the current bytes of the file. Otherwise it
may show those of any moment since the last `mmap` or `MADV_DONTNEED`. -/
structure System (σ : Type) where
  code : σ → Instr σ
  layout : Layout
  order : Bool
  live : Bool

structure Tx (σ : Type) where
  pid : Nat
  span : Span Nat Byte σ
  writes : Finset Nat

/-- The last three fields are history: the earlier moments of the file and the validated
transactions, both the latest first, and the threads in the order in which a program that
runs each `pthread_create` as a call would complete them. -/
structure State (σ : Type) where
  procs : Nat → Option (Proc σ)
  reaped : Finset Nat
  mutex : Option Nat
  globalPageVersion : VersionMap
  rollbackCount : Nat
  now : Moment
  past : List Moment
  txs : List (Tx σ)
  order : List Nat

variable {σ : Type}

def State.put (s : State σ) (pid : Nat) (p : Proc σ) : State σ :=
  { s with procs := Function.update s.procs pid (some p) }

def State.write (s : State σ) (m : Moment) : State σ :=
  { s with now := m, past := s.now :: s.past }

/-- What page without private copy may show `p`: the file as it was `i` changes ago. -/
def System.shown (S : System σ) (s : State σ) (p : Proc σ) (i : Nat) : Option Moment :=
  if (S.live = true → i = 0) ∧ i ≤ s.past.length - p.mapped then (s.now :: s.past)[i]?
  else none

def System.op (S : System σ) (x : σ) : Op Nat Byte σ := (S.code x).op

def System.mayLoad (S : System σ) (p : Proc σ) (a : Nat) : Prop :=
  S.layout.InHeap a ∧ p.prot (pageOf a) ≠ .none

def System.mayStore (S : System σ) (p : Proc σ) (a : Nat) : Prop :=
  S.layout.InHeap a ∧ p.prot (pageOf a) = .readWrite

instance (S : System σ) (p : Proc σ) (a : Nat) : Decidable (S.mayLoad p a) :=
  inferInstanceAs (Decidable (_ ∧ _))
instance (S : System σ) (p : Proc σ) (a : Nat) : Decidable (S.mayStore p a) :=
  inferInstanceAs (Decidable (_ ∧ _))

/-- The address at which the next instruction faults. -/
def System.faultAddr (S : System σ) (p : Proc σ) : Option Nat :=
  match S.code p.cur with
  | .load a _ => if S.mayLoad p a then none else some a
  | .store a _ _ => if S.mayStore p a then none else some a
  | _ => none

def System.endOf (S : System σ) (p : Proc σ) : Option (End σ) :=
  match S.code p.cur with
  | .create f k => some (.create f k)
  | .join t k => some (.join t k)
  | .pthreadCreate f k => some (.pthreadCreate f p.gthreads.length (k p.gthreads.length))
  | .pthreadJoin h k => p.gthreads[h]?.map fun t => .join t k
  | .ret => some .exit
  | .load _ _ | .store _ _ _ => none

/-- The thread function of a fork, and the context of the parent's next `AtomicBegin`. -/
def End.fork : End σ → Option (σ × (Nat → Context σ))
  | .create f k => some (f,fun c => ⟨none,k c⟩)
  | .pthreadCreate f _ k => some (f,fun c => ⟨some c,k⟩)
  | _ => none

def Proc.waitsFor (p : Proc σ) : Option Nat :=
  match p.pc with
  | .waitPred _ => some p.predecessor
  | .wait t _ => some t
  | _ => none

theorem Proc.waitsFor_cases {p : Proc σ} {q : Nat} (h : p.waitsFor = some q) :
    (∃ e, p.pc = .waitPred e ∧ q = p.predecessor) ∨ ∃ k, p.pc = .wait q k := by
  unfold Proc.waitsFor at h
  split at h
  · rename_i e hpc
    exact .inl ⟨e,hpc,(Option.some.inj h).symm⟩
  · rename_i t k hpc
    exact .inr ⟨k,hpc.trans (by rw [Option.some.inj h])⟩
  · cases h

/-- `WaitExited(q)` of process `pid` returns: at once for `0`; with the status of a child
that exited, which reaps it; or after `ECHILD` once `kill(q, 0)` fails, that is once no
process `q` is left, not even a zombie. -/
def State.waitExited (s : State σ) (pid q : Nat) : Option (State σ) :=
  if q = 0 then some s
  else match s.procs q with
    | none => some s
    | some r =>
      if q ∈ s.reaped then some s
      else if r.parent = pid then
        if r.pc.exited then some { s with reaped := insert q s.reaped } else none
      else none

/-- A `waitpid(q)` of `pid` that blocks, and so may be interrupted. -/
def State.unreapedChild (s : State σ) (pid q : Nat) : Prop :=
  q ≠ 0 ∧ q ∉ s.reaped ∧ ∃ r, s.procs q = some r ∧ r.parent = pid

/-- The fork of process `pid`, which stands at the return of `AtomicEnd` in `Create`. -/
def System.forkChild (S : System σ) (s : State σ) (pid child : Nat) (p : Proc σ) (f : σ)
    (c : Nat → Context σ) : State σ :=
  let elder := if S.order then p.predecessor else 0
  let s := s.put pid { p with predecessor := child, pc := .atomicBegin (c child) }
  { s.put child { p with
      parent := pid
      predecessor := elder
      elder := elder
      pc := .atomicBegin ⟨none,f⟩ } with
    order := insertBefore pid child s.order }

inductive Act where
  | atomicBegin
  | load (moment : Nat)
  | store (moment : Nat)
  | fault
  | signaled
  | atomicEnd
  | waited
  | lock
  | page (page : Nat)
  | memcpy (part : Nat → Bool)
  | publish
  | unlock
  | abort
  | fork (child : Nat)
  | forkFailed
  | join
  | joined
  | interrupted
  | exit
  | reap

inductive Step (S : System σ) (s : State σ) : Nat × Act → State σ → Prop where
  /-- The critical section of `AtomicBegin` copies the version table. -/
  | atomicBegin {pid p c} : s.procs pid = some p → p.pc = .atomicBegin c → s.mutex = none →
      Step S s (pid,.atomicBegin)
        (s.put pid (p.atomicBegin c s.globalPageVersion s.txs.length))
  | load {pid p a k i m} : s.procs pid = some p → p.pc = .run → S.code p.cur = .load a k →
      S.mayLoad p a → S.shown s p i = some m →
      Step S s (pid,.load i)
        (s.put pid { p with toAttempt := p.toAttempt.load m a, cur := k (p.view m.bytes a) })
  | store {pid p a b k i m} : s.procs pid = some p → p.pc = .run →
      S.code p.cur = .store a b k → S.mayStore p a → S.shown s p i = some m →
      Step S s (pid,.store i)
        (s.put pid { p with toAttempt := p.toAttempt.store m a b, cur := k })
  /-- The handler returns and the instruction is tried again. -/
  | fault {pid p t a} : s.procs pid = some p → p.pc = .run → S.faultAddr p = some a →
      p.segfaultHandler S.layout a = .ok t →
      Step S s (pid,.fault) (s.put pid { p with toAttempt := t })
  | killed {pid p a e} : s.procs pid = some p → p.pc = .run → S.faultAddr p = some a →
      p.segfaultHandler S.layout a = .error e →
      Step S s (pid,.fault) (s.put pid { p with pc := .zombie e })
  /-- A signal kills the process in the handler, as where that faults itself. -/
  | signaled {pid p a} : s.procs pid = some p → p.pc = .run → S.faultAddr p = some a →
      Step S s (pid,.signaled) (s.put pid { p with pc := .zombie .signaled })
  | atomicEnd {pid p e} : s.procs pid = some p → p.pc = .run → S.endOf p = some e →
      Step S s (pid,.atomicEnd) (s.put pid (p.atomicEnd e s.past.length))
  | waited {pid p e s'} : s.procs pid = some p → p.pc = .waitPred e →
      s.waitExited pid p.predecessor = some s' →
      Step S s (pid,.waited) (s'.put pid { p with pc := .lock e })
  /-- Under the mutex the read set is consistent, and `CommitHeap` starts. -/
  | commit {pid p e} : s.procs pid = some p → p.pc = .lock e → s.mutex = none →
      isHeapConsistent p.readSetVersion s.globalPageVersion = true →
      Step S s (pid,.lock)
        { s.put pid { p with pc := .commit e p.writeSetVersion.keys } with
          mutex := some pid
          txs := ⟨pid,⟨p.context.next,p.log,p.cur⟩,p.writeSetVersion.keys⟩ :: s.txs }
  | reject {pid p e} : s.procs pid = some p → p.pc = .lock e → s.mutex = none →
      isHeapConsistent p.readSetVersion s.globalPageVersion = false →
      Step S s (pid,.lock)
        { s.put pid { p with pc := .abort } with rollbackCount := s.rollbackCount + 1 }
  /-- The loop of `CommitHeap` takes the pages of the write set in any order. -/
  | page {pid p e todo page} : s.procs pid = some p → p.pc = .commit e todo → page ∈ todo →
      Step S s (pid,.page page) (s.put pid { p with pc := .copy e (todo.erase page) page })
  | memcpy {pid p e todo page part} : s.procs pid = some p → p.pc = .copy e todo page →
      Step S s (pid,.memcpy part)
        (s.write ⟨S.layout.memcpy (S.layout.globalPos page) page part
          (p.view s.now.bytes) s.now.bytes,s.now.commits⟩)
  /-- The last bytes of the page arrive, and then its new version. -/
  | publish {pid p e todo page v} : s.procs pid = some p → p.pc = .copy e todo page →
      p.writeSetVersion.lookup page = some v →
      Step S s (pid,.publish)
        { (s.write ⟨S.layout.memcpy (S.layout.globalPos page) page (fun _ => true)
            (p.view s.now.bytes) s.now.bytes,
            Function.update s.now.commits page (s.now.commits page + 1)⟩).put pid
            { p with pc := .commit e todo } with
          globalPageVersion := s.globalPageVersion.insert page v }
  | unlock {pid p e} : s.procs pid = some p → p.pc = .commit e ∅ →
      Step S s (pid,.unlock)
        { s.put pid { p with
            toAttempt := p.toAttempt.updateHeap s.past.length
            pc := .ended e } with
          mutex := none }
  /-- `AtomicAbort` drops the private copies and resumes the saved continuation. -/
  | abort {pid p} : s.procs pid = some p → p.pc = .abort →
      Step S s (pid,.abort) (s.put pid { p with
        toAttempt := p.toAttempt.discard s.past.length
        pc := .atomicBegin p.context })
  | fork {pid p e child f c} : s.procs pid = some p → p.pc = .ended e →
      e.fork = some (f,c) → child ≠ 0 → s.procs child = none →
      Step S s (pid,.fork child) (S.forkChild s pid child p f c)
  | forkFailed {pid p e x} : s.procs pid = some p → p.pc = .ended e → e.fork = some x →
      Step S s (pid,.forkFailed) (s.put pid { p with pc := .zombie .forkFailed })
  | join {pid p t k} : s.procs pid = some p → p.pc = .ended (.join t k) →
      Step S s (pid,.join) (s.put pid { p with pc := .wait t k })
  | joined {pid p t k s'} : s.procs pid = some p → p.pc = .wait t k →
      s.waitExited pid t = some s' →
      Step S s (pid,.joined) (s'.put pid { p with pc := .atomicBegin ⟨none,k⟩ })
  /-- `waitpid` fails with `EINTR`. -/
  | interrupted {pid p q} : s.procs pid = some p → p.waitsFor = some q →
      s.unreapedChild pid q →
      Step S s (pid,.interrupted) (s.put pid { p with pc := .zombie .interrupted })
  | exit {pid p} : s.procs pid = some p → p.pc = .ended .exit →
      Step S s (pid,.exit) (s.put pid { p with pc := .zombie .finished })
  /-- A zombie whose parent has exited, or is not part of the program, is reaped. -/
  | reap {pid p} : s.procs pid = some p → p.pc.exited = true →
      (∀ r, s.procs p.parent = some r → r.pc.exited = true) →
      Step S s (pid,.reap) { s with reaped := insert pid s.reaped }

def initial (root : Nat) (x : σ) (file : Heap) : State σ where
  procs := Function.update (fun _ => none) root (some
    { parent := 0
      predecessor := 0
      gthreads := []
      readSetVersion := ∅
      writeSetVersion := ∅
      localPageVersion := ∅
      prot := fun _ => .readWrite
      copies := fun _ => none
      log := []
      seen := []
      begun := 0
      mapped := 0
      context := ⟨none,x⟩
      cur := x
      pc := .atomicBegin ⟨none,x⟩
      elder := 0 })
  reaped := ∅
  mutex := none
  globalPageVersion := ∅
  rollbackCount := 0
  now := ⟨file,fun _ => 0⟩
  past := []
  txs := []
  order := [root]

end GThread
