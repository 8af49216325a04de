import GThread.Subheap
import GThread.Process
import Mathlib.Data.Nat.ModEq

/-! What an aborted attempt leaves behind for the next one. `AtomicAbort` drops the private
copies and restores the stack, `AtomicBegin` clears the maps; the cursors of the subheaps are
plain variables of the process and stay where the attempt moved them. -/
namespace GThread
variable {L : Layout} {pid : Nat}

/-- A transaction body: what it does next may depend on all it has read and on the addresses it
got. -/
inductive Body (L : Layout) where
  | load (a : { a // L.InHeap a }) (k : Byte → Body L)
  | store (a : { a // L.InHeap a }) (b : Byte) (k : Body L)
  | malloc (size : Nat) (k : Nat → Body L)
  | done

/-- One process in a transaction. The last three fields are history: the addresses that
`xxmalloc` returned in this attempt, the sizes asked for, and those asked for in the attempts
rolled back. -/
structure Retry where
  attempt : Attempt
  subheaps : Subheaps
  addrs : List Nat
  sizes : List Nat
  lost : List Nat

def Attempt.fault (L : Layout) (t : Attempt) (a : Nat) : Attempt :=
  match t.segfaultHandler L a with
  | .ok t' => t'
  | .error _ => t

def Attempt.readable (L : Layout) (t : Attempt) (a : Nat) : Attempt :=
  if t.prot (pageOf a) = .none then t.fault L a else t

def Attempt.writable (L : Layout) (t : Attempt) (a : Nat) : Attempt :=
  let t := t.readable L a
  if t.prot (pageOf a) = .readWrite then t else t.fault L a

/-- An attempt at the body; access `n` finds the file at moment `shown n`. -/
def Body.exec (pid : Nat) (shown : Nat → Moment) : Body L → Retry → Retry
  | .load a k, r =>
    let t := r.attempt.readable L a
    let m := shown t.log.length
    (k (t.view m.bytes a)).exec pid shown { r with attempt := t.load m a }
  | .store a b k, r =>
    let t := r.attempt.writable L a
    let m := shown t.log.length
    k.exec pid shown { r with attempt := t.store m a b }
  | .malloc size k, r =>
    let (ret,h) := xxmalloc pid size r.subheaps
    (k ret).exec pid shown
      { r with subheaps := h, addrs := r.addrs ++ [ret], sizes := r.sizes ++ [size] }
  | .done, r => r

structure Past where
  globalPageVersion : VersionMap
  begun : Nat
  shown : Nat → Moment

def Retry.atomicBegin (r : Retry) (globalPageVersion : VersionMap) (n : Nat) : Retry :=
  { r with attempt := r.attempt.atomicBegin globalPageVersion n }

def Retry.atomicAbort (r : Retry) : Retry :=
  { r with attempt := r.attempt.discard 0, addrs := [], sizes := [], lost := r.lost ++ r.sizes }

def Retry.rolledBack (body : Body L) (pid : Nat) (r : Retry) (p : Past) : Retry :=
  (body.exec pid p.shown (r.atomicBegin p.globalPageVersion p.begun)).atomicAbort

def Retry.start (t : Attempt) (h : Subheaps) : Retry := ⟨t.updateHeap 0,h,[],[],[]⟩

def Retry.after (body : Body L) (pid : Nat) (t : Attempt) (h : Subheaps) (past : List Past) :
    Retry := past.foldl (Retry.rolledBack body pid) (.start t h)

def Retry.commits (body : Body L) (pid : Nat) (t : Attempt) (h : Subheaps) (past : List Past)
    (globalPageVersion : VersionMap) (n : Nat) (m : Moment) : Retry :=
  body.exec pid (fun _ => m) ((Retry.after body pid t h past).atomicBegin globalPageVersion n)

/-- The attempts got the same addresses, read and wrote the same bytes and leave the same
cursors. -/
def Retry.Same (r r' : Retry) : Prop :=
  r.addrs = r'.addrs ∧ r.attempt.log = r'.attempt.log ∧ r.subheaps = r'.subheaps

def lostTotal (body : Body L) (pid : Nat) (t : Attempt) (h : Subheaps) (past : List Past) : Nat :=
  allignedTotal (Retry.after body pid t h past).lost

section Exec
variable {shown : Nat → Moment} {r r' : Retry}

theorem exec_addrs (body : Body L) (r : Retry) :
    ∃ l, (body.exec pid shown r).addrs = r.addrs ++ l := by
  induction body generalizing r with
  | load a k ih => exact ih _ _
  | store a b k ih => exact ih _
  | malloc size k ih =>
    obtain ⟨l,hl⟩ := ih (xxmalloc pid size r.subheaps).1 { r with
      subheaps := (xxmalloc pid size r.subheaps).2
      addrs := r.addrs ++ [(xxmalloc pid size r.subheaps).1]
      sizes := r.sizes ++ [size] }
    exact ⟨_,hl.trans (List.append_assoc ..)⟩
  | done => exact ⟨[],(List.append_nil _).symm⟩

theorem exec_malloc_addrs (size : Nat) (k : Nat → Body L) (r : Retry) : ∃ l,
    ((Body.malloc size k).exec pid shown r).addrs =
      r.addrs ++ [r.subheaps (subheapIndex pid)] ++ l :=
  exec_addrs (k _) _

theorem exec_lost (pid : Nat) (shown : Nat → Moment) (body : Body L) (r : Retry) (l : List Nat) :
    body.exec pid shown { r with lost := l } = { body.exec pid shown r with lost := l } := by
  induction body generalizing r with
  | load a k ih => exact ih _ { r with attempt := _ }
  | store a b k ih => exact ih { r with attempt := _ }
  | malloc size k ih => exact ih _ { r with subheaps := _, addrs := _, sizes := _ }
  | done => rfl

theorem exec_cursor (pid : Nat) (shown : Nat → Moment) (body : Body L) (r : Retry) : ∃ l,
    (body.exec pid shown r).sizes = r.sizes ++ l ∧ (body.exec pid shown r).lost = r.lost ∧
    (body.exec pid shown r).subheaps (subheapIndex pid) ≡
      r.subheaps (subheapIndex pid) + allignedTotal l [MOD 2^64] ∧
    ∀ i, i ≠ subheapIndex pid → (body.exec pid shown r).subheaps i = r.subheaps i := by
  induction body generalizing r with
  | load a k ih => exact ih _ _
  | store a b k ih => exact ih _
  | malloc size k ih =>
    obtain ⟨l,hsizes,hlost,hcur,hother⟩ := ih (xxmalloc pid size r.subheaps).1 { r with
      subheaps := (xxmalloc pid size r.subheaps).2
      addrs := r.addrs ++ [(xxmalloc pid size r.subheaps).1]
      sizes := r.sizes ++ [size] }
    refine ⟨size :: l,?_,hlost,?_,?_⟩
    · rw [Body.exec]
      exact hsizes.trans (List.append_assoc ..)
    · have hnext : (xxmalloc pid size r.subheaps).2 (subheapIndex pid) ≡
          r.subheaps (subheapIndex pid) + roundUp size minAlignedSize [MOD 2^64] := by
        simp only [xxmalloc,Function.update_self]
        exact Nat.mod_modEq ..
      have htotal : allignedTotal (size :: l) = roundUp size minAlignedSize + allignedTotal l := by
        simp [allignedTotal]
      rw [htotal,← Nat.add_assoc]
      exact hcur.trans (hnext.add_right _)
    · intro i hi
      rw [Body.exec]
      exact (hother i hi).trans (by simp [xxmalloc,hi])
  | done => exact ⟨[],by simp [Body.exec],rfl,.refl _,fun _ _ => rfl⟩

theorem exec_bound (body : Body L) (r : Retry) (hr : ∀ i, r.subheaps i < 2^64) :
    ∀ i, (body.exec pid shown r).subheaps i < 2^64 := by
  induction body generalizing r with
  | load a k ih => exact ih _ _ hr
  | store a b k ih => exact ih _ hr
  | malloc size k ih =>
    apply ih
    intro i
    by_cases hi : i = subheapIndex pid
    · subst hi
      simp only [Function.update_self]
      exact Nat.mod_lt _ (by decide)
    · simpa [xxmalloc,hi] using hr i
  | done => exact hr

/-- Attempts that differ at the start in their cursors only, and not at the end, do not differ:
the first address tells the cursor. -/
theorem exec_start (body : Body L) (hattempt : r.attempt = r'.attempt) (haddrs : r.addrs = r'.addrs)
    (hend : (body.exec pid shown r).addrs = (body.exec pid shown r').addrs)
    (hcur : (body.exec pid shown r).subheaps = (body.exec pid shown r').subheaps) :
    r.subheaps (subheapIndex pid) = r'.subheaps (subheapIndex pid) := by
  induction body generalizing r r' with
  | load a k ih =>
    simp only [Body.exec,hattempt] at hend hcur
    have hstart := ih _ (by rfl) (by exact haddrs) hend hcur
    exact hstart
  | store a b k ih =>
    simp only [Body.exec,hattempt] at hend hcur
    have hstart := ih (by rfl) (by exact haddrs) hend hcur
    exact hstart
  | malloc size k ih =>
    obtain ⟨l,hl⟩ := exec_malloc_addrs size k r
    obtain ⟨l',hl'⟩ := exec_malloc_addrs size k r'
    rw [hl,hl',haddrs] at hend
    simp only [List.append_assoc,List.append_cancel_left_eq,List.singleton_append,
      List.cons.injEq] at hend
    exact hend.1
  | done => exact congrFun hcur _

end Exec

structure Retry.Rewound (pid : Nat) (h : Subheaps) (r : Retry) : Prop where
  copies : r.attempt.copies = fun _ => none
  mapped : r.attempt.mapped = 0
  addrs : r.addrs = []
  sizes : r.sizes = []
  cursor : r.subheaps (subheapIndex pid) ≡ h (subheapIndex pid) + allignedTotal r.lost [MOD 2^64]
  others : ∀ i, i ≠ subheapIndex pid → r.subheaps i = h i
  bound : ∀ i, r.subheaps i < 2^64

section Rollbacks
variable {h : Subheaps} {r : Retry}

theorem Retry.Rewound.rolledBack (hr : r.Rewound pid h) (body : Body L) (p : Past) :
    (r.rolledBack body pid p).Rewound pid h := by
  obtain ⟨l,hsizes,hlost,hcur,hother⟩ := exec_cursor pid p.shown body
    (r.atomicBegin p.globalPageVersion p.begun)
  have hl : (body.exec pid p.shown (r.atomicBegin p.globalPageVersion p.begun)).sizes = l :=
    hsizes.trans (by rw [Retry.atomicBegin,hr.sizes,List.nil_append])
  refine ⟨rfl,rfl,rfl,rfl,?_,fun i hi => (hother i hi).trans (hr.others i hi),
    exec_bound body _ hr.bound⟩
  calc (r.rolledBack body pid p).subheaps (subheapIndex pid)
      ≡ r.subheaps (subheapIndex pid) + allignedTotal l [MOD 2^64] := hcur
    _ ≡ h (subheapIndex pid) + allignedTotal r.lost + allignedTotal l [MOD 2^64] :=
      hr.cursor.add_right _
    _ = h (subheapIndex pid) + allignedTotal (r.rolledBack body pid p).lost := by
      rw [Retry.rolledBack,Retry.atomicAbort,hl,hlost,allignedTotal_append,Nat.add_assoc]
      rfl

theorem rewound_after (body : Body L) (pid : Nat) (t : Attempt) (hh : ∀ i, h i < 2^64)
    (past : List Past) : (Retry.after body pid t h past).Rewound pid h := by
  induction past using List.reverseRecOn with
  | nil => exact ⟨rfl,rfl,rfl,rfl,.refl _,fun _ _ => rfl,hh⟩
  | append_singleton past p ih =>
    have hsnoc : Retry.after body pid t h (past ++ [p]) =
        (Retry.after body pid t h past).rolledBack body pid p := by
      simp [Retry.after]
    rw [hsnoc]
    exact ih.rolledBack body p

theorem Retry.Rewound.atomicBegin (hr : r.Rewound pid h) (g : VersionMap) (n : Nat) :
    r.atomicBegin g n = ⟨Attempt.mapped₀.atomicBegin g n,r.subheaps,[],[],r.lost⟩ := by
  obtain ⟨t,subheaps,addrs,sizes,lost⟩ := r
  obtain ⟨hcopies,hmapped,haddrs,hsizes,-,-,-⟩ := hr
  cases haddrs
  cases hsizes
  simp only at hcopies hmapped
  simp [Retry.atomicBegin,Attempt.atomicBegin,Attempt.mapped₀,hcopies,hmapped]

end Rollbacks

/-- Two histories of a transaction come to the same result exactly when the attempts rolled back
in them took the same number of bytes, up to a turn around the address space. -/
theorem retries_same_iff (body : Body L) (pid : Nat) (t : Attempt) (h : Subheaps)
    (hh : ∀ i, h i < 2^64) (past past' : List Past) (g : VersionMap) (n : Nat) (m : Moment) :
    (Retry.commits body pid t h past g n m).Same (Retry.commits body pid t h past' g n m) ↔
      lostTotal body pid t h past ≡ lostTotal body pid t h past' [MOD 2^64] := by
  have hr := rewound_after body pid t hh past
  have hr' := rewound_after body pid t hh past'
  unfold Retry.commits
  rw [hr.atomicBegin,hr'.atomicBegin]
  constructor
  · intro hsame
    obtain ⟨haddrs,-,hsub⟩ := hsame
    have hstart : (Retry.after body pid t h past).subheaps (subheapIndex pid) =
        (Retry.after body pid t h past').subheaps (subheapIndex pid) := by
      have hfirst := exec_start body (by rfl) (by rfl) haddrs hsub
      exact hfirst
    have hcur := hr.cursor
    rw [hstart] at hcur
    exact Nat.ModEq.add_left_cancel' _ (hcur.symm.trans hr'.cursor)
  · intro hlost
    have hsub : (Retry.after body pid t h past).subheaps =
        (Retry.after body pid t h past').subheaps := by
      funext i
      by_cases hi : i = subheapIndex pid
      · subst hi
        have hcur : _ ≡ _ [MOD 2^64] :=
          hr.cursor.trans ((hlost.add_left _).trans hr'.cursor.symm)
        exact hcur.eq_of_lt_of_lt (hr.bound _) (hr'.bound _)
      · rw [hr.others i hi,hr'.others i hi]
    rw [hsub]
    have hsame := exec_lost pid (fun _ => m) body
      ⟨Attempt.mapped₀.atomicBegin g n,(Retry.after body pid t h past').subheaps,[],[],
        (Retry.after body pid t h past').lost⟩ (Retry.after body pid t h past).lost
    rw [hsame]
    exact ⟨rfl,rfl,rfl⟩

def readAndAlloc : Body .adjacent :=
  .load ⟨0x100000,by decide⟩ fun b => .malloc (16 + b.toNat) fun _ => .done

def findsByte (b : Byte) : Past := ⟨∅,0,fun _ => ⟨fun _ => b,fun _ => 0⟩⟩

/-- Rolled-back attempts that read other bytes but take as much change nothing. -/
theorem retries_same_rounded :
    (Retry.commits readAndAlloc 1 .mapped₀ (globalHeapInit .adjacent) [findsByte 1] ∅ 0
      ⟨fun _ => 0,fun _ => 0⟩).Same
    (Retry.commits readAndAlloc 1 .mapped₀ (globalHeapInit .adjacent) [findsByte 16] ∅ 0
      ⟨fun _ => 0,fun _ => 0⟩) :=
  (retries_same_iff readAndAlloc 1 _ _ (by decide) _ _ _ _ _).mpr (by decide +kernel)

/-- After one rollback the transaction gets another address than without. -/
theorem retries_same_fails :
    ¬ (Retry.commits readAndAlloc 1 .mapped₀ (globalHeapInit .adjacent) [] ∅ 0
      ⟨fun _ => 0,fun _ => 0⟩).Same
    (Retry.commits readAndAlloc 1 .mapped₀ (globalHeapInit .adjacent) [findsByte 0] ∅ 0
      ⟨fun _ => 0,fun _ => 0⟩) := by
  intro hsame
  have haddrs := hsame.1
  revert haddrs
  decide +kernel

end GThread
