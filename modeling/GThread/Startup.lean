import GThread.BumpAllocator
import GThread.Execute
import GThread.Tracking

/-! Start-up (`libgthread.hh`). What runs between `GlobalHeapInit` and the first `AtomicBegin`
writes to private copies of heap pages and is in no write set. The first transaction is empty,
so that the `Create` in `wrapped_main` maps the heap anew and the writes are gone. -/
namespace GThread
open Transition

variable {σ : Type}

inductive EarlyOp (L : Layout) where
  | xxmalloc (size : Nat)
  | write (a : { a : Nat // L.InHeap a }) (b : Byte)

structure Early where
  subheaps : Subheaps
  attempt : Attempt

def Early.step {L : Layout} (pid : Nat) (file : Heap) (s : Early) : EarlyOp L → Early
  | .xxmalloc size => { s with subheaps := (xxmalloc pid size s.subheaps).2 }
  | .write a b => { s with attempt := s.attempt.store ⟨file,fun _ => 0⟩ a b }

def Early.run {L : Layout} (pid : Nat) (file : Heap) (ops : List (EarlyOp L)) : Early :=
  ops.foldl (Early.step pid file) ⟨globalHeapInit L,.mapped₀⟩

def written {L : Layout} (file : Heap) (ops : List (EarlyOp L)) : Heap :=
  ops.foldl (fun h op => match op with
    | .xxmalloc _ => h
    | .write a b => Function.update h a b) file

/-- Local states of `wrapped_main`, whose thread is the program's `main`. -/
inductive Wrapped (σ : Type) where
  | start
  | created (t : Nat)
  | joined
  | user (x : σ)

def Instr.map {τ : Type} (f : σ → τ) : Instr σ → Instr τ
  | .load a k => .load a fun b => f (k b)
  | .store a b k => .store a b (f k)
  | .create g k => .create (f g) fun t => f (k t)
  | .join t k => .join t (f k)
  | .pthreadCreate g k => .pthreadCreate (f g) fun t => f (k t)
  | .pthreadJoin h k => .pthreadJoin h (f k)
  | .ret => .ret

/-- `wrapped_main`, and `program`, whose `AtomicEnd` and `_exit(0)` are those of a thread. -/
def wrappedMain (code : σ → Instr σ) (main : σ) : Wrapped σ → Instr (Wrapped σ)
  | .start => .create (.user main) .created
  | .created t => .join t .joined
  | .joined => .ret
  | .user x => (code x).map .user

def first (x : σ) (t : Attempt) (pc : PC σ) : Proc σ :=
  { toAttempt := t
    parent := 0
    predecessor := 0
    gthreads := []
    context := ⟨none,x⟩
    cur := x
    pc := pc
    elder := 0 }

def onlyFirst (root : Nat) (x : σ) (file : Heap) (t : Attempt) (pc : PC σ) : State σ :=
  { initial root x file with
    procs := Function.update (fun _ => none) root (some (first x t pc)) }

def startup (root : Nat) (x : σ) (file : Heap) (t : Attempt) : State σ :=
  onlyFirst root x file t (.atomicBegin ⟨none,x⟩)

theorem startup_mapped (root : Nat) (x : σ) (file : Heap) :
    startup root x file .mapped₀ = initial root x file := rfl

def accesses (s : Option (State σ)) (q : Nat) : Option (List (Replay.Access Nat Byte)) :=
  (s.bind fun s => s.procs q).map fun p => p.log

/-- Every later run reads, in `main` and in all threads, as the same run does when the early
writes are in the shared file. -/
def EarlyKept (L : Layout) (root : Nat) (file : Heap) (ops : List (EarlyOp L)) : Prop :=
  ∀ (σ : Type) (code : σ → Instr σ) (main : σ) (order live : Bool) (acts : List (Nat × Act))
    (q : Nat), q ≠ root →
    let S : System (Wrapped σ) := ⟨wrappedMain code main,L,order,live⟩
    accesses (S.run (startup root .start file (Early.run root file ops).attempt) acts) q =
      accesses (S.run (initial root .start (written file ops)) acts) q

section Steps
variable {S : System σ} {root : Nat} {x : σ} {file : Heap} {t : Attempt} {a : Nat × Act}
  {s' : State σ}

theorem onlyFirst_procs {pc : PC σ} {q : Nat} {p : Proc σ}
    (h : (onlyFirst root x file t pc).procs q = some p) : q = root ∧ p = first x t pc := by
  by_cases hq : q = root
  · subst q
    exact ⟨rfl,by simpa [onlyFirst] using h.symm⟩
  · simp [onlyFirst,hq] at h

theorem onlyFirst_put {pc : PC σ} (p : Proc σ) : (onlyFirst root x file t pc).put root p =
    { initial root x file with procs := Function.update (fun _ => none) root (some p) } := by
  simp [onlyFirst,State.put]

theorem startup_step (h : Step S (startup root x file t) a s') :
    a = (root,.atomicBegin) ∧ s' = onlyFirst root x file (t.atomicBegin ∅ 0) .run := by
  cases h with
  | atomicBegin hp hpc hm =>
    obtain ⟨rfl,rfl⟩ := onlyFirst_procs hp
    cases hpc
    exact ⟨rfl,onlyFirst_put _⟩
  | interrupted hp hq =>
    obtain ⟨rfl,rfl⟩ := onlyFirst_procs hp
    cases hq
  | reap hp he =>
    obtain ⟨rfl,rfl⟩ := onlyFirst_procs hp
    cases he
  | load hp hpc | store hp hpc | fault hp hpc | killed hp hpc | signaled hp hpc
  | atomicEnd hp hpc | waited hp hpc | commit hp hpc | reject hp hpc | page hp hpc | memcpy hp hpc
  | publish hp hpc | unlock hp hpc | abort hp hpc | fork hp hpc | forkFailed hp hpc
  | join hp hpc | joined hp hpc | exit hp hpc =>
    obtain ⟨rfl,rfl⟩ := onlyFirst_procs hp
    cases hpc

theorem startup_begin (S : System σ) (root : Nat) (x : σ) (file : Heap) (t : Attempt) :
    Step S (startup root x file t) (root,.atomicBegin)
      (onlyFirst root x file (t.atomicBegin ∅ 0) .run) := by
  have hp : (startup root x file t).procs root = some (first x t (.atomicBegin ⟨none,x⟩)) := by
    simp [startup,onlyFirst]
  have h := Step.atomicBegin (S := S) hp rfl rfl
  obtain ⟨-,hs⟩ := startup_step h
  exact hs ▸ h

theorem begun_step {f : σ} {k : Nat → σ} (hx : S.code x = .create f k)
    (h : Step S (onlyFirst root x file (t.atomicBegin ∅ 0) .run) a s') :
    a = (root,.atomicEnd) ∧ s' = onlyFirst root x file .mapped₀ (.ended (.create f k)) := by
  cases h with
  | atomicEnd hp hpc he =>
    obtain ⟨rfl,rfl⟩ := onlyFirst_procs hp
    have hend : S.endOf (first x (t.atomicBegin ∅ 0) .run) = some (.create f k) := by
      simp [System.endOf,first,hx]
    cases hend.symm.trans he
    refine ⟨rfl,?_⟩
    rw [onlyFirst_put]
    simp [Proc.atomicEnd,first,Attempt.atomicBegin]
    rfl
  | load hp hpc hk =>
    obtain ⟨rfl,rfl⟩ := onlyFirst_procs hp
    cases hx.symm.trans hk
  | store hp hpc hk =>
    obtain ⟨rfl,rfl⟩ := onlyFirst_procs hp
    cases hx.symm.trans hk
  | fault hp hpc ha | killed hp hpc ha | signaled hp hpc ha =>
    obtain ⟨rfl,rfl⟩ := onlyFirst_procs hp
    simp [System.faultAddr,first,hx] at ha
  | interrupted hp hq =>
    obtain ⟨rfl,rfl⟩ := onlyFirst_procs hp
    cases hq
  | reap hp he =>
    obtain ⟨rfl,rfl⟩ := onlyFirst_procs hp
    cases he
  | atomicBegin hp hpc | waited hp hpc | commit hp hpc | reject hp hpc | page hp hpc
  | memcpy hp hpc | publish hp hpc | unlock hp hpc | abort hp hpc | fork hp hpc
  | forkFailed hp hpc | join hp hpc | joined hp hpc | exit hp hpc =>
    obtain ⟨rfl,rfl⟩ := onlyFirst_procs hp
    cases hpc

theorem begun_end {f : σ} {k : Nat → σ} (hx : S.code x = .create f k) :
    Step S (onlyFirst root x file (t.atomicBegin ∅ 0) .run) (root,.atomicEnd)
      (onlyFirst root x file .mapped₀ (.ended (.create f k))) := by
  have hend : S.endOf (first x (t.atomicBegin ∅ 0) .run) = some (.create f k) := by
    simp [System.endOf,first,hx]
  have hp : (onlyFirst root x file (t.atomicBegin ∅ 0) .run).procs root =
      some (first x (t.atomicBegin ∅ 0) .run) := by simp [onlyFirst]
  have h := Step.atomicEnd hp rfl hend
  obtain ⟨-,hs⟩ := begun_step hx h
  exact hs ▸ h

/-- Runs from two start-up states are the same once the first transaction is over. -/
theorem run_startup {f : σ} {k : Nat → σ} (hx : S.code x = .create f k) (t t' : Attempt)
    (acts : List (Nat × Act)) {q : Nat} (hq : q ≠ root) :
    accesses (S.run (startup root x file t) acts) q =
      accesses (S.run (startup root x file t') acts) q := by
  have only : ∀ t pc, accesses (some (onlyFirst root x file t pc)) q = none := by
    intro t pc
    simp [accesses,onlyFirst,hq]
  cases acts with
  | nil => exact (only t _).trans (only t' _).symm
  | cons a acts =>
    by_cases ha : a = (root,.atomicBegin)
    · subst a
      rw [S.run_cons (startup_begin ..),S.run_cons (startup_begin ..)]
      cases acts with
      | nil => exact (only _ _).trans (only _ _).symm
      | cons b acts =>
        by_cases hb : b = (root,.atomicEnd)
        · subst b
          rw [S.run_cons (begun_end hx),S.run_cons (begun_end hx)]
        · rw [S.run_stuck fun _ h => hb (begun_step hx h).1,
            S.run_stuck fun _ h => hb (begun_step hx h).1]
    · rw [S.run_stuck fun _ h => ha (startup_step h).1,
        S.run_stuck fun _ h => ha (startup_step h).1]

theorem first_load {s : State σ} {q : Nat} {p : Proc σ} {c : Context σ} {b : Nat} {k : Byte → σ}
    (hp : s.procs q = some p) (hpc : p.pc = .atomicBegin c) (hm : s.mutex = none)
    (hc : p.copies = fun _ => none) (hk : S.code c.next = .load b k) (hb : S.layout.InHeap b) :
    accesses (S.run s [(q,.atomicBegin),(q,.fault),(q,.load 0)]) q =
      some [.load b (s.now.bytes b)] := by
  let p₁ := p.atomicBegin c s.globalPageVersion s.txs.length
  obtain ⟨t,ht⟩ := segfaultHandler_inHeap p₁.toAttempt hb
  obtain ⟨-,⟨hmem,-⟩ | ⟨-,rfl⟩⟩ := segfaultHandler_ok ht
  · exact absurd hmem Finmap.notMem_empty
  have hfault : S.faultAddr p₁ = some b := by
    simp [System.faultAddr,p₁,Proc.atomicBegin,hk,System.mayLoad,Attempt.atomicBegin]
  rw [S.run_cons (.atomicBegin hp hpc hm),
    S.run_cons (.fault (by simp [State.put]; rfl) rfl hfault ht),
    S.run_cons (.load (by simp [State.put]; rfl) rfl hk ⟨hb,by simp⟩
      (by simp [System.shown]; rfl))]
  simp [System.run,execute,accesses,State.put,Attempt.load,p₁,Proc.atomicBegin,
    Attempt.atomicBegin,Attempt.view,hc]

end Steps

theorem written_outside {L : Layout} {a : Nat} (ha : ¬ L.InHeap a) (file : Heap)
    (ops : List (EarlyOp L)) : written file ops a = file a := by
  unfold written
  induction ops generalizing file with
  | nil => rfl
  | cons op ops ih =>
    rw [List.foldl_cons,ih]
    cases op with
    | xxmalloc size => rfl
    | write w b =>
      have hne : a ≠ w.1 := fun h => ha (h ▸ w.2)
      simp [hne]

def probe (a : Nat) : Bool → Instr Bool
  | true => .load a fun _ => false
  | false => .ret

def probeActs (root : Nat) : List (Nat × Act) :=
  [(root,.atomicBegin),(root,.atomicEnd),(root,.fork (root + 1)),(root + 1,.atomicBegin),
    (root + 1,.fault),(root + 1,.load 0)]

theorem probe_reads (L : Layout) (root : Nat) (file : Heap) {a : Nat} (ha : L.InHeap a) :
    accesses (System.run ⟨wrappedMain (probe a) true,L,true,true⟩ (initial root .start file)
      (probeActs root)) (root + 1) = some [.load a (file a)] := by
  let S : System (Wrapped Bool) := ⟨wrappedMain (probe a) true,L,true,true⟩
  let e : End (Wrapped Bool) := .create (.user true) .created
  have hfree : (onlyFirst root Wrapped.start file .mapped₀ (.ended e)).procs (root + 1) = none := by
    simp [onlyFirst]
  have hp : (onlyFirst root Wrapped.start file .mapped₀ (.ended e)).procs root =
      some (first .start .mapped₀ (.ended e)) := by simp [onlyFirst]
  have hfork := Step.fork (S := S) hp rfl rfl (Nat.succ_ne_zero root) hfree
  rw [← startup_mapped,probeActs,S.run_cons (startup_begin ..),S.run_cons (begun_end rfl),
    S.run_cons hfork]
  exact first_load (by simp [System.forkChild,State.put]; rfl) rfl rfl rfl rfl ha

theorem unchanged_of_kept {L : Layout} {root : Nat} {file : Heap} {ops : List (EarlyOp L)}
    (h : EarlyKept L root file ops) {a : Nat} (ha : L.InHeap a) : written file ops a = file a := by
  have hkept := h Bool (probe a) true true true (probeActs root) (root + 1)
    (Nat.succ_ne_self root)
  dsimp only at hkept
  rw [probe_reads L root _ ha,run_startup rfl _ .mapped₀ _ (Nat.succ_ne_self root),
    startup_mapped,probe_reads L root _ ha] at hkept
  simpa using hkept.symm

/-- Early writes are kept exactly when they change nothing. -/
theorem early_kept_iff (L : Layout) (root : Nat) (file : Heap) (ops : List (EarlyOp L)) :
    EarlyKept L root file ops ↔ ∀ a, L.InHeap a → written file ops a = file a := by
  constructor
  · intro h a ha
    exact unchanged_of_kept h ha
  · intro h σ code main order live acts q hq
    have hsame : written file ops = file := by
      funext a
      by_cases ha : L.InHeap a
      · exact h a ha
      · exact written_outside ha file ops
    rw [hsame,← startup_mapped]
    exact run_startup rfl _ _ acts hq

/-- One byte written by a static initialiser. -/
theorem early_kept_fails : ¬ EarlyKept .adjacent 1 (fun _ => 0)
    [.write ⟨0x100000,by decide⟩ 1] := by
  intro h
  have hbyte := unchanged_of_kept h (a := 0x100000) (by decide)
  revert hbyte
  decide

end GThread
