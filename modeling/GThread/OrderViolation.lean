import GThread.OrderedCorrectness
import GThread.Commuting
import GThread.Pending
import GThread.Library.Words

/-! The program of `pthread/order_violation.cc`: of two threads each clears a member of `*a` if the
other has not been cleared. Both orders are serializable, but on the ordered build it is always the
first thread that clears, as in the sequential program. -/
namespace GThread
open Replay Transition Relation Words

/-- The statements of `main`, `fn1` and `fn2`, and of the calls of `printf` the reading of their
arguments. -/
inductive OrderViolation where
  | setX
  | setY
  | create1
  | create2
  | join1
  | join2
  | printX
  | printY
  | test1
  | clear1
  | test2
  | clear2
  | done

namespace OrderViolation

/-- A place in a statement: `i` bytes of an `int` are read, with the value `v`, or written. -/
structure Point where
  stmt : OrderViolation
  i : Nat
  v : Nat

def start (stmt : OrderViolation) : Point := ⟨stmt,0,0⟩

def assign (b n : Nat) (here next : OrderViolation) (i : Nat) : Cmd Point :=
  .store (b + i) (UInt8.ofNat (n / 256 ^ i)) (if i + 1 < 4 then ⟨here,i + 1,0⟩ else next.start)

def value (b : Nat) (here : OrderViolation) (next : Nat → OrderViolation) (i v : Nat) : Cmd Point :=
  .load (b + i) fun c =>
    if i + 1 < 4 then ⟨here,i + 1,v + c.toNat * 256 ^ i⟩ else (next (v + c.toNat * 256 ^ i)).start

def ifOne (clear : OrderViolation) (v : Nat) : OrderViolation :=
  if v = 1 then clear else done

/-- The code, with `*a` at `a`: `x` is its first `int` and `y` its second. -/
def code (a : Nat) (p : Point) : Cmd Point :=
  match p.stmt with
  | setX => assign a 1 setX setY p.i
  | setY => assign (a + 4) 1 setY create1 p.i
  | create1 => .create test1.start create2.start
  | create2 => .create test2.start join1.start
  | join1 => .join 0 join2.start
  | join2 => .join 1 printX.start
  | printX => value a printX (fun _ => printY) p.i p.v
  | printY => value (a + 4) printY (fun _ => done) p.i p.v
  | test1 => value (a + 4) test1 (ifOne clear1) p.i p.v
  | clear1 => assign a 0 clear1 done p.i
  | test2 => value a test2 (ifOne clear2) p.i p.v
  | clear2 => assign (a + 4) 0 clear2 done p.i
  | done => .ret

section
variable {a b n : Nat} (here : OrderViolation)

theorem transforms_assign {next : OrderViolation}
    (h : ∀ i v, code a ⟨here,i,v⟩ = assign b n here next i) :
    Transforms (code a) here.start (fun m => writeWord m b n 4) next.start := by
  intro m
  have byte (i v : Nat) (m : Heap) : Moves (fun z => (code a z).op) (⟨here,i,v⟩,m)
      (if i + 1 < 4 then ⟨here,i + 1,0⟩ else next.start,
        Function.update m (b + i) (UInt8.ofNat (n / 256 ^ i))) :=
    .store (by rw [h]; rfl) rfl rfl
  exact .head (byte 0 0 m) (.head (byte 1 0 _) (.head (byte 2 0 _) (.single (byte 3 0 _))))

theorem runs_value {k : Nat → OrderViolation}
    (h : ∀ i v, code a ⟨here,i,v⟩ = value b here k i v) (m : Heap) :
    ReflTransGen (Moves fun z => (code a z).op) (here.start,m) ((k (readWord m b 4)).start,m) := by
  have byte (i v : Nat) : Moves (fun z => (code a z).op) (⟨here,i,v⟩,m)
      (if i + 1 < 4 then ⟨here,i + 1,v + (m (b + i)).toNat * 256 ^ i⟩
        else (k (v + (m (b + i)).toNat * 256 ^ i)).start,m) :=
    .load (by rw [h]; rfl) rfl
  exact .head (byte 0 0) (.head (byte 1 _) (.head (byte 2 _) (.single (byte 3 _))))

end

theorem readWord_writeWord_of_ne {m : Heap} {a b n : Nat} (h : a + 4 ≤ b ∨ b + 4 ≤ a) :
    readWord (writeWord m b n 4) a 4 = readWord m a 4 :=
  readWord_congr fun i hi => writeWord_of_lt m b n (by omega)

def stop : OrderViolation → OrderViolation
  | setX => create1
  | printX | test1 | test2 => done
  | p => p

def effect (a : Nat) (p : OrderViolation) (m : Heap) : Heap :=
  match p with
  | setX => writeWord (writeWord m a 1 4) (a + 4) 1 4
  | test1 => if readWord m (a + 4) 4 = 1 then writeWord m a 0 4 else m
  | test2 => if readWord m a 4 = 1 then writeWord m (a + 4) 0 4 else m
  | _ => m

def begun : List OrderViolation := [create2,join1,join2,printX,test1,test2]

theorem transforms_test {a b c n : Nat} {test clear : OrderViolation}
    (htest : ∀ i v, code a ⟨test,i,v⟩ = value b test (ifOne clear) i v)
    (hclear : ∀ i v, code a ⟨clear,i,v⟩ = assign c n clear done i) :
    Transforms (code a) test.start (fun m => if readWord m b 4 = 1 then writeWord m c n 4 else m)
      done.start := by
  intro m
  have hread := runs_value (k := ifOne clear) test htest m
  by_cases hone : readWord m b 4 = 1
  · rw [ifOne,if_pos hone] at hread
    simpa only [if_pos hone] using hread.trans (transforms_assign clear hclear m)
  · rw [ifOne,if_neg hone] at hread
    simpa only [if_neg hone] using hread

theorem transforms_effect (a : Nat) {p : OrderViolation} (hp : p ∈ setX :: begun) :
    Transforms (code a) p.start (effect a p) p.stop.start := by
  simp only [begun,List.mem_cons,List.not_mem_nil,or_false] at hp
  obtain rfl | rfl | rfl | rfl | rfl | rfl | rfl := hp
  · exact (transforms_assign setX fun _ _ => rfl).trans (transforms_assign setY fun _ _ => rfl)
  · exact fun m => .refl
  · exact fun m => .refl
  · exact fun m => .refl
  · exact fun m => (runs_value (b := a) (k := fun _ => printY) printX (fun _ _ => rfl) m).trans
      (runs_value (b := a + 4) (k := fun _ => done) printY (fun _ _ => rfl) m)
  · exact transforms_test (fun _ _ => rfl) fun _ _ => rfl
  · exact transforms_test (fun _ _ => rfl) fun _ _ => rfl

def result (a : Nat) (file : Heap) : Heap :=
  writeWord (writeWord (writeWord file a 1 4) (a + 4) 1 4) a 0 4

theorem result_values (a : Nat) (file : Heap) :
    readWord (result a file) a 4 = 0 ∧ readWord (result a file) (a + 4) 4 = 1 := by
  refine ⟨readWord_writeWord _ a 0 4,?_⟩
  rw [result,readWord_writeWord_of_ne (.inr le_rfl),readWord_writeWord]
  rfl

theorem sequential (a : Nat) (file : Heap) : Seq (code a) setX.start file (result a file) := by
  have run (p : OrderViolation) (hp : p ∈ setX :: begun) := transforms_effect a hp
  have hy : readWord (effect a setX file) (a + 4) 4 = 1 := readWord_writeWord _ (a + 4) 1 4
  have hx : readWord (result a file) a 4 ≠ 1 := by
    rw [(result_values a file).1]
    decide
  have htest1 := run test1 (by simp [begun]) (effect a setX file)
  rw [show effect a test1 (effect a setX file) = result a file from if_pos hy] at htest1
  have htest2 := run test2 (by simp [begun]) (result a file)
  rw [show effect a test2 (result a file) = result a file from if_neg hx] at htest2
  refine .of_runs (run setX (by simp [begun]) file)
    (.create rfl (.of_runs htest1 (.ret rfl)) (.create rfl (.of_runs htest2 (.ret rfl)) ?_))
  exact .join rfl (.join rfl (.of_runs (run printX (by simp [begun]) _) (.ret rfl)))

def level : OrderViolation → Nat
  | setX => 8
  | setY => 7
  | create1 => 6
  | create2 => 5
  | join1 => 4
  | join2 => 3
  | printX | test1 | test2 => 2
  | printY | clear1 | clear2 => 1
  | done => 0

section
variable {a b n : Nat} {here : OrderViolation} {x y : Point}

def Later (y x : Point) : Prop :=
  y.stmt = x.stmt ∧ y.i = x.i + 1 ∧ x.i + 1 < 4 ∨ y.i = 0 ∧ y.stmt.level < x.stmt.level

theorem later_assign {next : OrderViolation} (hx : code a x = assign b n x.stmt next x.i)
    (hnext : next.level < x.stmt.level) (h : Follows (code a) y x) : Later y x := by
  unfold Follows at h
  rw [hx] at h
  simp only [assign] at h
  split at h
  · exact .inl (by rw [h]; exact ⟨rfl,rfl,‹_›⟩)
  · exact .inr (by rw [h]; exact ⟨rfl,hnext⟩)

theorem later_value {k : Nat → OrderViolation}
    (hx : code a x = value b x.stmt k x.i x.v) (hnext : ∀ v, (k v).level < x.stmt.level)
    (h : Follows (code a) y x) : Later y x := by
  unfold Follows at h
  rw [hx] at h
  simp only [value] at h
  obtain ⟨c,h⟩ := h
  split at h
  · exact .inl (by rw [h]; exact ⟨rfl,rfl,‹_›⟩)
  · exact .inr (by rw [h]; exact ⟨rfl,hnext _⟩)

theorem ifOne_level (h : here.level = 1) (v : Nat) : (ifOne here v).level < 2 := by
  unfold ifOne
  split
  · rw [h]
    decide
  · decide

theorem later_of_follows (h : Follows (code a) y x) : Later y x := by
  obtain ⟨stmt,i,v⟩ := x
  cases stmt with
  | setX | setY | clear1 | clear2 => exact later_assign rfl (by simp [level]) h
  | printX => exact later_value (k := fun _ => printY) rfl (fun _ => by simp [level]) h
  | printY => exact later_value (k := fun _ => done) rfl (fun _ => by simp [level]) h
  | test1 => exact later_value (k := ifOne clear1) rfl (ifOne_level rfl) h
  | test2 => exact later_value (k := ifOne clear2) rfl (ifOne_level rfl) h
  | create1 | create2 =>
    obtain rfl | rfl : y = _ ∨ y = _ := h
    · exact .inr ⟨rfl,by simp [start,level]⟩
    · exact .inr ⟨rfl,by simp [start,level]⟩
  | join1 | join2 =>
    obtain rfl : y = _ := h
    exact .inr ⟨rfl,by simp [start,level]⟩
  | done => exact h.elim

theorem wf_follows (a : Nat) : WellFounded (Follows (code a)) := by
  refine Subrelation.wf (fun {y x} h => ?_)
    (measure fun x : Point => 4 * x.stmt.level + (3 - x.i)).wf
  show 4 * y.stmt.level + (3 - y.i) < 4 * x.stmt.level + (3 - x.i)
  obtain ⟨hstmt,hi,hlt⟩ | ⟨hi,hlt⟩ := later_of_follows h
  · rw [hstmt,hi]
    omega
  · omega

theorem accesses_members (h : Accesses (code a) setX.start b) : a ≤ b ∧ b < a + 8 := by
  have small {stmt i v} (hy : Reaches (code a) setX.start ⟨stmt,i,v⟩) : i < 4 := by
    refine hy.invariant (P := fun y => y.i < 4) (fun x y hx hxy => ?_) (by simp [start])
    obtain ⟨-,hi,hlt⟩ | ⟨hi,-⟩ := later_of_follows hxy <;> omega
  obtain ⟨⟨stmt,i,v⟩,c,k,hy,hk⟩ | ⟨⟨stmt,i,v⟩,k,hy,hk⟩ := h
  · have hi := small hy
    cases stmt <;> cases hk <;> dsimp only <;> omega
  · have hi := small hy
    cases stmt <;> cases hk <;> dsimp only <;> omega

def Known (c n : ℕ) : OrderViolation → Prop
  | setX | setY | create1 | test1 | clear1 | test2 | clear2 => c = 0
  | create2 => c = 1
  | join1 => c = 2
  | join2 => c = 2 ∧ 1 ≤ n
  | printX | printY => c = 2 ∧ 2 ≤ n
  | done => True

theorem known_ifOne {c n : ℕ} (here : OrderViolation) (h : Known c n here) (v : Nat) :
    Known c n (ifOne here v) := by
  unfold ifOne
  split
  · exact h
  · trivial

theorem known_of_stage {c n : ℕ} (h : Stage (code a) setX.start x c n) : Known c n x.stmt := by
  induction h with
  | start => rfl
  | @load x ad k c n byte h hx ih =>
    obtain ⟨stmt,i,v⟩ := x
    cases stmt with
    | printX | printY =>
      cases hx
      split
      · exact ih
      · first | exact ih | trivial
    | test1 =>
      cases hx
      split
      · exact ih
      · exact known_ifOne clear1 ih _
    | test2 =>
      cases hx
      split
      · exact ih
      · exact known_ifOne clear2 ih _
    | _ => cases hx
  | @store x ad byte k c n h hx ih =>
    obtain ⟨stmt,i,v⟩ := x
    cases stmt with
    | setX | setY | clear1 | clear2 =>
      cases hx
      split
      · exact ih
      · first | exact ih | trivial
    | _ => cases hx
  | @child x f k c n h hx ih =>
    obtain ⟨stmt,i,v⟩ := x
    cases stmt <;> cases hx <;> rfl
  | @create x f k c n h hx ih =>
    obtain ⟨stmt,i,v⟩ := x
    cases stmt <;> cases hx <;> exact congrArg (· + 1) ih
  | @join x j k c n h hx ih =>
    obtain ⟨stmt,i,v⟩ := x
    cases stmt with
    | join1 =>
      cases hx
      exact ⟨ih,le_max_right n 1⟩
    | join2 =>
      cases hx
      exact ⟨ih.1,le_max_right n 2⟩
    | _ => cases hx

theorem joinsInOrder (a : Nat) : JoinsInOrder (code a) setX.start := by
  intro x c n h
  have hx := known_of_stage h
  obtain ⟨stmt,i,v⟩ := x
  cases stmt <;> simp only [Known] at hx <;> dsimp only [code,assign,value] <;> omega

theorem endsTouching (a : Nat) : EndsTouching (code a) setX.start := by
  refine ⟨nofun,fun x c n h => ?_⟩
  obtain ⟨stmt,i,v⟩ := x
  cases stmt with
  | create1 | create2 => exact ⟨nofun,nofun⟩
  | join1 | join2 => exact nofun
  | _ => trivial

end

def left : OrderViolation → List Point
  | setX => [test1.start,create2.start]
  | create2 => [test2.start,join1.start]
  | join1 => [join2.start]
  | join2 => [printX.start]
  | _ => []

theorem turns_start {S : System (Point × List Nat)} {a : Nat} (hS : S.code = forkJoin (code a))
    {p : OrderViolation} (hp : p ∈ setX :: begun) {m m' : Heap} {v : List Point}
    (h : Turns S p.start m v m') : v = p.left ∧ m' = effect a p m := by
  obtain ⟨l,log,w,gthreads,e,hexec,hend,rfl⟩ := h
  have hleave : (code a p.stop.start).op = .leave := by
    simp only [begun,List.mem_cons,List.not_mem_nil,or_false] at hp
    obtain rfl | rfl | rfl | rfl | rfl | rfl | rfl := hp <;> rfl
  obtain ⟨rfl,rfl⟩ := (transforms_effect a hp).exec hleave hS hexec (S.op_of_ends hend)
  refine ⟨?_,rfl⟩
  unfold System.ends at hend
  rw [hS] at hend
  simp only [begun,List.mem_cons,List.not_mem_nil,or_false] at hp
  obtain rfl | rfl | rfl | rfl | rfl | rfl | rfl := hp <;> cases hend <;> rfl

def ClearedOne (a : Nat) (m : Heap) : Prop :=
  readWord m a 4 = 0 ∧ readWord m (a + 4) 4 = 1 ∨ readWord m a 4 = 1 ∧ readWord m (a + 4) 4 = 0

def Pending (a : Nat) (todo : List Point) (m : Heap) : Prop :=
  todo = [setX.start] ∨ (∀ z ∈ todo, ∃ p ∈ begun, z = p.start) ∧
    (readWord m a 4 = 1 ∧ readWord m (a + 4) 4 = 1 ∧ test1.start ∈ todo ∨ ClearedOne a m)

theorem left_begun (p : OrderViolation) : ∀ z ∈ p.left, ∃ q ∈ begun, z = q.start := by
  cases p <;> simp [left,begun]

theorem values_clear1 (a : Nat) (m : Heap) : readWord (writeWord m a 0 4) a 4 = 0 ∧
    readWord (writeWord m a 0 4) (a + 4) 4 = readWord m (a + 4) 4 :=
  ⟨readWord_writeWord m a 0 4,readWord_writeWord_of_ne (.inr le_rfl)⟩

theorem values_clear2 (a : Nat) (m : Heap) : readWord (writeWord m (a + 4) 0 4) a 4 =
    readWord m a 4 ∧ readWord (writeWord m (a + 4) 0 4) (a + 4) 4 = 0 :=
  ⟨readWord_writeWord_of_ne (.inl le_rfl),readWord_writeWord m (a + 4) 0 4⟩

theorem clearedOne_effect {a : Nat} {p : OrderViolation} {m : Heap} (hp : p ∈ begun)
    (h : ClearedOne a m) : ClearedOne a (effect a p m) := by
  obtain ⟨hx,hy⟩ := values_clear1 a m
  obtain ⟨hx',hy'⟩ := values_clear2 a m
  cases p with
  | test1 =>
    rw [effect]
    split
    · exact .inl ⟨hx,hy.trans ‹_›⟩
    · exact h
  | test2 =>
    rw [effect]
    split
    · exact .inr ⟨hx'.trans ‹_›,hy'⟩
    · exact h
  | setX => simp [begun] at hp
  | _ => exact h

theorem kept_by_turns {S : System (Point × List Nat)} {a : Nat}
    (hS : S.code = forkJoin (code a)) : KeptByTurns S (Pending a) := by
  intro pre z post m v m' hi hturn
  obtain hfirst | ⟨hbegun,hvalues⟩ := hi
  · obtain ⟨rfl,hz⟩ | ⟨-,hz⟩ := List.append_eq_singleton_iff.mp hfirst
    · obtain ⟨rfl,rfl⟩ := List.cons.inj hz
      obtain ⟨rfl,rfl⟩ := turns_start hS List.mem_cons_self hturn
      refine .inr ⟨by simpa using left_begun setX,.inl ⟨?_,?_,by simp [left]⟩⟩
      · exact (readWord_writeWord_of_ne (.inl le_rfl)).trans (readWord_writeWord m a 1 4)
      · exact readWord_writeWord _ (a + 4) 1 4
    · simp at hz
  · obtain ⟨p,hp,rfl⟩ := hbegun z (by simp)
    obtain ⟨rfl,rfl⟩ := turns_start hS (List.mem_cons_of_mem _ hp) hturn
    refine .inr ⟨fun y hy => ?_,?_⟩
    · simp only [List.mem_append] at hy
      obtain hy | hy | hy := hy
      · exact hbegun y (by simp [hy])
      · exact left_begun p y hy
      · exact hbegun y (by simp [hy])
    obtain ⟨hx,hy,htest⟩ | hone := hvalues
    · by_cases htests : p = test1 ∨ p = test2
      · right
        obtain rfl | rfl := htests
        · rw [effect,if_pos hy]
          exact .inl ⟨(values_clear1 a m).1,(values_clear1 a m).2.trans hy⟩
        · rw [effect,if_pos hx]
          exact .inr ⟨(values_clear2 a m).1.trans hx,(values_clear2 a m).2⟩
      · have hsame : effect a p m = m := by
          cases p <;> simp_all [effect,begun]
        have hne : test1.start ≠ p.start := fun h => htests (.inl (congrArg Point.stmt h).symm)
        rw [hsame]
        refine .inl ⟨hx,hy,?_⟩
        simp only [List.mem_append,List.mem_cons,hne,false_or] at htest ⊢
        tauto
    · exact .inr (clearedOne_effect hp hone)

end OrderViolation

open OrderViolation

/-- The violation does not happen on the ordered build. From wherever a run without failures of the
system has come some run leads on to the end, every run that cannot go on is at the end, and at
every end `x` is cleared and `y` is not. -/
theorem order_violation_fixed (L : Layout) (a : Nat)
    (hheap : ∀ b, a ≤ b → b < a + 8 → L.InHeap b) (root : Nat) (hroot : root ≠ 0) (file : Heap)
    (s : State (Point × List Nat)) (h : Reachable (Guarded (fun _ y => ¬ y.2.failure)
      (Step (ordered (code a) L true))) (initial root (setX.start,[]) file) s) :
    (∃ t, Reachable (Guarded (fun _ y => ¬ y.2.failure) (Step (ordered (code a) L true))) s t ∧
      t.Over) ∧
    ((ordered (code a) L true).Idle s → s.Over) ∧
    (s.Over → readWord s.now.bytes a 4 = 0 ∧ readWord s.now.bytes (a + 4) 4 = 1) := by
  have hfree {t : State (Point × List Nat)}
      (ht : Reachable (Step (ordered (code a) L true)) (initial root (setX.start,[]) file) t) :
      ∀ D, ¬ t.Deadlocked D := (joinsInOrder a).not_deadlocked rfl rfl hroot ht
  refine ⟨completes (S := ordered (code a) L true) rfl (wf_follows a) (fun t ht => hfree ht)
    h.forget,over_of_idle rfl h.forget (hfree h.forget),fun ho => ?_⟩
  have hseq := sequential_of_orderly (joinsInOrder a) (endsTouching a)
    (fun b hb => hheap b (accesses_members hb).1 (accesses_members hb).2) hroot h ho
  rw [hseq.unique (sequential a file)]
  exact result_values a file

def violationStart : List (Nat × Act) :=
  [(1,.atomicBegin),(1,.fault),(1,.fault)] ++ List.replicate 8 (1,.store 0) ++
  [(1,.atomicEnd),(1,.waited)] ++ commitActs 1 0x100000 ++
  [(1,.fork 2),(1,.atomicBegin),(1,.atomicEnd),(1,.fork 3),(2,.atomicBegin),(3,.atomicBegin)]

def clearActs (pid : Nat) : List (Nat × Act) :=
  (pid,.fault) :: List.replicate 4 (pid,.load 0) ++ (pid,.fault) ::
    List.replicate 4 (pid,.store 0) ++ [(pid,.atomicEnd)]

/-- The second thread has found `x` set and cleared `y`, and is rolled back. -/
theorem order_violation_fixed_adjacent : ∃ s t,
    Reachable (Step (ordered (code 0x100000) .adjacent true))
      (initial 1 (setX.start,[]) fun _ => 0) s ∧ s.rollbackCount = 1 ∧ ¬ s.Over ∧
    Reachable (Step (ordered (code 0x100000) .adjacent true)) s t ∧ t.Over ∧
    readWord t.now.bytes 0x100000 4 = 0 ∧ readWord t.now.bytes 0x100004 4 = 1 := by
  obtain ⟨s,hs,hv⟩ := System.run_unfailing (ordered (code 0x100000) .adjacent true)
    (initial 1 (setX.start,[]) fun _ => 0)
    (violationStart ++ clearActs 2 ++ clearActs 3 ++ (2,.waited) :: commitActs 2 0x100000 ++
      [(2,.exit),(1,.atomicBegin),(1,.atomicEnd),(1,.join),(1,.joined),(3,.waited),(3,.lock)])
    (fun s => s.rollbackCount = 1 && (s.procs 3).any fun p => !p.pc.exited) (by decide +kernel)
  simp only [Bool.and_eq_true,decide_eq_true_eq,Option.any_eq_true,Bool.not_eq_true'] at hv
  obtain ⟨hr,p,hp,hlive⟩ := hv
  have hheap : ∀ b, 0x100000 ≤ b → b < 0x100000 + 8 → Layout.adjacent.InHeap b := by
    intro b hlo hhi
    simp only [Layout.InHeap,Layout.adjacent,heapSize]
    omega
  obtain ⟨⟨t,ht,ho⟩,-,-⟩ := order_violation_fixed .adjacent 0x100000 hheap 1 (by decide)
    (fun _ => 0) s hs
  obtain ⟨-,-,hend⟩ := order_violation_fixed .adjacent 0x100000 hheap 1 (by decide)
    (fun _ => 0) t (hs.trans ht)
  exact ⟨s,t,hs.forget,hr,fun h => absurd (h 3 p hp).1 (by simp [hlive]),ht.forget,ho,hend ho⟩

/-- On either build and in every interleaving, if all threads end regularly then the two tests have
been made one after the other: just one of them has cleared its member. -/
theorem order_violation_exclusive (S : System (Point × List Nat)) (a : Nat)
    (hS : S.code = forkJoin (code a)) (hlive : S.live = true) (root : Nat) (file : Heap)
    (s : State (Point × List Nat)) (h : Reachable (Step S) (initial root (setX.start,[]) file) s)
    (hall : ∀ q p, s.procs q = some p → p.pc = .zombie .finished) :
    readWord s.now.bytes a 4 = 0 ∧ readWord s.now.bytes (a + 4) 4 = 1 ∨
      readWord s.now.bytes a 4 = 1 ∧ readWord s.now.bytes (a + 4) 4 = 0 := by
  obtain hfirst | ⟨-,⟨-,-,htest⟩ | hone⟩ :=
    finished_of_kept hS hlive (kept_by_turns hS) (.inl rfl) h hall
  · cases hfirst
  · cases htest
  · exact hone

def readActs (pid : Nat) : List (Nat × Act) :=
  (pid,.fault) :: List.replicate 4 (pid,.load 0) ++ [(pid,.atomicEnd),(pid,.waited)]

/-- On the unordered build the second thread is the first to commit, and the first is rolled
back. -/
theorem order_violation_exclusive_unordered : ∃ s : State (Point × List Nat),
    Reachable (Step ⟨forkJoin (code 0x100000),.adjacent,false,true⟩)
      (initial 1 (setX.start,[]) fun _ => 0) s ∧ s.rollbackCount = 1 ∧
    readWord s.now.bytes 0x100000 4 = 1 ∧ readWord s.now.bytes 0x100004 4 = 0 := by
  obtain ⟨s,hs,hv⟩ := System.run_any ⟨forkJoin (code 0x100000),.adjacent,false,true⟩
    (initial 1 (setX.start,[]) fun _ => 0)
    (violationStart ++ clearActs 3 ++ (3,.waited) :: commitActs 3 0x100000 ++ (3,.exit) ::
      readActs 2 ++ [(2,.lock),(2,.abort),(2,.atomicBegin)] ++ readActs 2 ++
      [(2,.lock),(2,.unlock),(2,.exit),(1,.atomicBegin),(1,.atomicEnd),(1,.join),(1,.joined),
        (1,.atomicBegin),(1,.atomicEnd),(1,.join),(1,.joined),(1,.atomicBegin),(1,.fault)] ++
      List.replicate 8 (1,.load 0) ++ [(1,.atomicEnd),(1,.waited),(1,.lock),(1,.unlock),(1,.exit)])
    (fun s => (s.order.all fun q => (s.procs q).any fun p => p.pc.exit = some .finished) &&
      s.rollbackCount = 1 && readWord s.now.bytes 0x100000 4 = 1) (by decide +kernel)
  simp only [Bool.and_eq_true,decide_eq_true_eq,List.all_eq_true,Option.any_eq_true] at hv
  obtain ⟨⟨hall,hr⟩,hx⟩ := hv
  have hgone : ∀ q p, s.procs q = some p → p.pc = .zombie .finished := by
    intro q p hp
    obtain ⟨p',hp',he⟩ := hall q ((mem_order_reachable hs q).mpr (by simp [hp]))
    cases hp.symm.trans hp'
    exact PC.exit_eq.mp he
  obtain ⟨hzero,-⟩ | ⟨-,hy⟩ := order_violation_exclusive
    ⟨forkJoin (code 0x100000),.adjacent,false,true⟩ 0x100000 rfl rfl 1 (fun _ => 0) s hs hgone
  · rw [hx] at hzero
    cases hzero
  · exact ⟨s,hs,hr,hx,hy⟩

end GThread
