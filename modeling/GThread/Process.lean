import GThread.Util
import GThread.Library.Replay
import Mathlib.Data.Finmap

/-! What one process of the runtime holds and does on its own: the maps of `Gstm` and their
fault handler (`gstm.cc`), the private mapping of the heap, and the control points of
`GThread` (`gthread.cc`) and of the interposed pthread calls (`libgthread.hh`). -/
namespace GThread
open Replay

/-- What user code does next at a local state (its stack): touch a byte, call `GThread` or
one of the interposed pthread functions, or return from `start_routine`. -/
inductive Instr (σ : Type) where
  | load (a : Nat) (k : Byte → σ)
  | store (a : Nat) (b : Byte) (k : σ)
  | create (f : σ) (k : Nat → σ)
  | join (t : Nat) (k : σ)
  | pthreadCreate (f : σ) (k : Nat → σ)
  | pthreadJoin (h : Nat) (k : σ)
  | ret

def Instr.op {σ : Type} : Instr σ → Op Nat Byte σ
  | .load a k => .load a k
  | .store a b k => .store a b k
  | _ => .leave

/-- What `AtomicEnd` was called for: the fork of `Create` with what follows it in the
parent, called directly or from `pthread_create` with the handle already stored, the wait
of `Join`, or the `_exit(0)` of `Create`'s child branch. -/
inductive End (σ : Type) where
  | create (f : σ) (k : Nat → σ)
  | pthreadCreate (f : σ) (handle : Nat) (k : σ)
  | join (t : Nat) (k : σ)
  | exit

/-- The continuation `SaveContext` keeps: what is left to do once `AtomicBegin` returns, a
`gthreads.push_back` of the rest of `pthread_create` and then user code. -/
structure Context (σ : Type) where
  push : Option Nat
  next : σ

/-- How a process ended: `_exit(0)` after its last `AtomicEnd`, `_exit(1)` of the fault
handler, `abort()` of a failed `REQUIRE`, a signal, `_exit(0)` of `WaitExited` on a failed
`waitpid`, `exit(1)` of `Create` on a failed `fork`. -/
inductive Exit where
  | finished
  | segv
  | abort
  | signaled
  | interrupted
  | forkFailed
  deriving DecidableEq

inductive PC (σ : Type) where
  | atomicBegin (c : Context σ)
  | run
  | waitPred (e : End σ)
  | lock (e : End σ)
  | commit (e : End σ) (todo : Finset Nat)
  | copy (e : End σ) (todo : Finset Nat) (page : Nat)
  | abort
  | ended (e : End σ)
  | wait (t : Nat) (k : σ)
  | zombie (e : Exit)

/-- Between the end of `AtomicBegin` and the verdict of `AtomicCommit`. -/
def PC.open {σ : Type} : PC σ → Prop
  | .run | .waitPred _ | .lock _ => True
  | _ => False

instance {σ : Type} : (pc : PC σ) → Decidable pc.open
  | .run | .waitPred _ | .lock _ => .isTrue trivial
  | .atomicBegin _ | .commit _ _ | .copy _ _ _ | .abort | .ended _ | .wait _ _ | .zombie _ =>
    .isFalse id

def PC.committing {σ : Type} : PC σ → Prop
  | .commit _ _ | .copy _ _ _ => True
  | _ => False

def PC.exited {σ : Type} : PC σ → Bool
  | .zombie _ => true
  | _ => false

def PC.exit {σ : Type} : PC σ → Option Exit
  | .zombie e => some e
  | _ => none

theorem PC.exit_eq {σ : Type} {pc : PC σ} {e : Exit} : pc.exit = some e ↔ pc = .zombie e := by
  cases pc <;> simp [PC.exit]

theorem PC.exited_iff {σ : Type} {pc : PC σ} : pc.exited = true ↔ ∃ e, pc = .zombie e := by
  cases pc <;> simp [PC.exited]

/-- `private_mapping_t` and `share_mapping_t`: finite maps from pages to versions. -/
abbrev VersionMap := Finmap fun _ : Nat => Nat

def version (m : VersionMap) (page : Nat) : Nat := (m.lookup page).getD 0

inductive Prot where
  | none
  | read
  | readWrite
  deriving DecidableEq

/-- A private copy of a page: its bytes, and how many commits of the page had reached the
shared file when it was taken. -/
structure PrivatePage where
  bytes : Heap
  commits : Nat

structure Seen where
  addr : Nat
  value : Byte
  commits : Nat

/-- The shared file at one moment, and for each page how many copies of it by `CommitHeap`
were complete. -/
structure Moment where
  bytes : Heap
  commits : Nat → Nat

/-- The tracking state and the private mapping of a process. The last four fields are
history: what the attempt accessed and what it read from the shared file, the number of
transactions validated before its `AtomicBegin`, and the number of moments of the file
before the last `mmap` or `MADV_DONTNEED`. -/
structure Attempt where
  readSetVersion : VersionMap
  writeSetVersion : VersionMap
  localPageVersion : VersionMap
  prot : Nat → Prot
  copies : Nat → Option PrivatePage
  log : List (Access Nat Byte)
  seen : List Seen
  begun : Nat
  mapped : Nat

def Attempt.mapped₀ : Attempt where
  readSetVersion := ∅
  writeSetVersion := ∅
  localPageVersion := ∅
  prot := fun _ => .readWrite
  copies := fun _ => none
  log := []
  seen := []
  begun := 0
  mapped := 0

/-- The pages of a process that are mapped, those of the local heap among them. -/
structure Memory (L : Layout) where
  mapped : Nat → Bool
  heap : ∀ page, L.HeapPage page → mapped page = true

def Memory.heapOnly (L : Layout) : Memory L :=
  ⟨fun page => decide (L.HeapPage page),fun _ h => decide_eq_true h⟩

/-- `mprotect` on one page, with the state of the process when the `REQUIRE` around it aborts. -/
def Attempt.mprotectIn {L : Layout} (M : Memory L) (t : Attempt) (page : Nat) (prot : Prot) :
    Attempt × Option Exit :=
  if M.mapped page then ({ t with prot := Function.update t.prot page prot },none)
  else (t,some .abort)

def Attempt.handleReadsIn {L : Layout} (M : Memory L) (t : Attempt) (page : Nat) :
    Attempt × Option Exit :=
  let versionNum := match t.localPageVersion.lookup page with
    | some v => v
    | none => 0
  { t with readSetVersion := t.readSetVersion.insert page versionNum }.mprotectIn M page .read

def Attempt.handleWritesIn {L : Layout} (M : Memory L) (t : Attempt) (page : Nat) :
    Attempt × Option Exit :=
  let versionNum := match t.localPageVersion.lookup page with
    | some v => v + 1
    | none => 1
  { t with writeSetVersion := t.writeSetVersion.insert page versionNum }.mprotectIn M page
    .readWrite

/-- `SegfaultHandler`, with the state of the process when it ends it. Both branches of its second
test return, so the test for a third fault that stands after it is never reached. -/
def Attempt.segfaultHandlerIn {L : Layout} (M : Memory L) (t : Attempt) (addr : Nat) :
    Attempt × Option Exit :=
  let page := roundDown addr pageSize
  if page < L.localHeap ∨ page > L.localHeap + heapSize then (t,some .segv)
  else if page ∈ t.readSetVersion then t.handleWritesIn M page
  else t.handleReadsIn M page

/-- `SegfaultHandler` of the processes of the system, which have nothing but the heap mapped. -/
def Attempt.segfaultHandler (L : Layout) (t : Attempt) (addr : Nat) : Except Exit Attempt :=
  match t.segfaultHandlerIn (.heapOnly L) addr with
  | (t',none) => .ok t'
  | (_,some e) => .error e

def Attempt.view (t : Attempt) (file : Heap) : Heap := fun a =>
  match t.copies (pageOf a) with
  | some c => c.bytes a
  | none => file a

def Attempt.load (t : Attempt) (m : Moment) (a : Nat) : Attempt :=
  let b := t.view m.bytes a
  { t with
    log := .load a b :: t.log
    seen := match t.copies (pageOf a) with
      | some _ => t.seen
      | none => ⟨a,b,m.commits (pageOf a)⟩ :: t.seen }

/-- A store at `a` that does not fault. The first one to a page takes the private copy. -/
def Attempt.store (t : Attempt) (m : Moment) (a : Nat) (b : Byte) : Attempt :=
  let c := (t.copies (pageOf a)).getD ⟨m.bytes,m.commits (pageOf a)⟩
  { t with
    log := .store a b :: t.log
    copies := Function.update t.copies (pageOf a)
      (some { c with bytes := Function.update c.bytes a b }) }

/-- `AtomicBegin` after `SaveContext`, with the versions copied while `Gstm::mutex` was
held and `n` transactions validated so far. -/
def Attempt.atomicBegin (t : Attempt) (globalPageVersion : VersionMap) (n : Nat) : Attempt :=
  { t with
    readSetVersion := ∅
    writeSetVersion := ∅
    localPageVersion := globalPageVersion
    prot := fun _ => .none
    log := []
    seen := []
    begun := n }

/-- `MADV_DONTNEED` on the heap after `n` earlier moments of the file. -/
def Attempt.discard (t : Attempt) (n : Nat) : Attempt :=
  { t with copies := fun _ => none, mapped := n }

def Attempt.updateHeap (t : Attempt) (n : Nat) : Attempt :=
  { t.discard n with prot := fun _ => .readWrite }

/-- A process. The field `elder` is history: the value of `predecessor_` at birth. -/
structure Proc (σ : Type) extends Attempt where
  parent : Nat
  predecessor : Nat
  gthreads : List Nat
  context : Context σ
  cur : σ
  pc : PC σ
  elder : Nat

variable {σ : Type}

def Proc.atomicBegin (p : Proc σ) (c : Context σ) (globalPageVersion : VersionMap)
    (n : Nat) : Proc σ :=
  { p with
    toAttempt := p.toAttempt.atomicBegin globalPageVersion n
    context := c
    gthreads := p.gthreads ++ c.push.toList
    cur := c.next
    pc := .run }

/-- `AtomicEnd` up to the wait for the predecessor: the empty transaction remaps the heap
and is done. -/
def Proc.atomicEnd (p : Proc σ) (e : End σ) (n : Nat) : Proc σ :=
  if p.readSetVersion = ∅ ∧ p.writeSetVersion = ∅ then
    { p with toAttempt := p.toAttempt.updateHeap n, pc := .ended e }
  else { p with pc := .waitPred e }

def isHeapConsistent (readSetVersion globalPageVersion : VersionMap) : Bool :=
  decide (∀ page ∈ readSetVersion.keys, page ∈ globalPageVersion →
    globalPageVersion.lookup page = readSetVersion.lookup page)

end GThread
