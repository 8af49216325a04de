import GThread.Commuting
import GThread.Correctness
import GThread.Library.Words

/-! The test program of `pthread/nolock.cc` and `example/test.cc`: threads, and threads of threads,
that all add one to every member of a `blob_t` without a lock. `main` is followed up to its call of
`verify`, and the heap then is what that requires, whatever the numbers of threads and members, the
build and the scheduler. -/
namespace GThread
open Replay Transition Relation Words

/-- The constants of the test, and what `malloc` gave it. -/
structure Nolock where
  threadNum : Nat
  secondaryThreadNum : Nat
  aSize : Nat
  bSize : Nat
  blob : Nat

inductive Nolock.Fn where
  | main
  | fn1
  | fn2

/-- Where a thread stands: in `memset`, in the addition of one to the first of the remaining
members, of which `i` bytes are read or written, or in one of the two loops over its threads. -/
inductive Nolock.Point where
  | memset (i : Nat)
  | load (f : Fn) (members : List (Nat × Nat)) (i v : Nat)
  | store (f : Fn) (members : List (Nat × Nat)) (i v : Nat)
  | create (f : Fn) (i : Nat)
  | join (f : Fn) (i : Nat)

namespace Nolock

/-- The offset of `c` in `blob_t`, a `size_t` after `aSize + bSize` ints. -/
def offsetC (P : Nolock) : Nat := (4 * (P.aSize + P.bSize) + 7) / 8 * 8

def size (P : Nolock) : Nat := P.offsetC + 8

def members (P : Nolock) : List (Nat × Nat) :=
  (List.range P.aSize).map (fun i => (P.blob + 4 * i,4)) ++
  ((List.range P.bSize).map (fun i => (P.blob + 4 * P.aSize + 4 * i,4)) ++ [(P.blob + P.offsetC,8)])

def threads (P : Nolock) : Fn → Nat
  | .main => P.threadNum
  | .fn1 => P.secondaryThreadNum
  | .fn2 => 0

def Fn.startRoutine : Fn → Fn
  | .main => .fn1
  | .fn1 | .fn2 => .fn2

def joins (P : Nolock) (f : Fn) (i : Nat) : Cmd Point :=
  if i < P.threads f then .join i (.join f (i + 1)) else .ret

def creates (P : Nolock) (f : Fn) (i : Nat) : Cmd Point :=
  if i < P.threads f then .create (.load f.startRoutine P.members 0 0) (.create f (i + 1))
  else P.joins f 0

def code (P : Nolock) : Point → Cmd Point
  | .memset i => if i < P.size then .store (P.blob + i) 0 (.memset (i + 1)) else P.creates .main 0
  | .load f [] _ _ | .store f [] _ _ => P.creates f 0
  | .load f ((a,w) :: ms) i v => .load (a + i) fun b =>
    if i + 1 < w then .load f ((a,w) :: ms) (i + 1) (v + b.toNat * 256 ^ i)
    else .store f ((a,w) :: ms) 0 (v + b.toNat * 256 ^ i + 1)
  | .store f ((a,w) :: ms) i v => .store (a + i) (UInt8.ofNat (v / 256 ^ i))
    (if i + 1 < w then .store f ((a,w) :: ms) (i + 1) v else .load f ms 0 0)
  | .create f i => P.creates f i
  | .join f i => P.joins f i

def expected (P : Nolock) : Nat := P.threadNum * (P.secondaryThreadNum + 1)

def verify (P : Nolock) (h : Heap) : Bool :=
  P.members.all fun m => readWord h m.1 m.2 = P.expected

def addOne (h : Heap) (m : Nat × Nat) : Heap := writeWord h m.1 (readWord h m.1 m.2 + 1) m.2

def addAll (P : Nolock) (h : Heap) : Heap := P.members.foldl addOne h

def cleared (P : Nolock) (n : Nat) (h : Heap) : Heap :=
  fun a => if P.blob ≤ a ∧ a < P.blob + n then 0 else h a

section
variable {P : Nolock} {f : Fn} {ms : List (Nat × Nat)} {a w : Nat} {h : Heap}

theorem members_wide {m : Nat × Nat} (hm : m ∈ P.members) : 4 ≤ m.2 := by
  simp only [members,List.mem_append,List.mem_map,List.mem_singleton] at hm
  obtain ⟨i,-,rfl⟩ | ⟨i,-,rfl⟩ | rfl := hm <;> simp

theorem members_inside {m : Nat × Nat} (hm : m ∈ P.members) :
    P.blob ≤ m.1 ∧ m.1 + m.2 ≤ P.blob + P.size := by
  simp only [members,List.mem_append,List.mem_map,List.mem_singleton,List.mem_range] at hm
  simp only [size,offsetC] at *
  obtain ⟨i,hi,rfl⟩ | ⟨i,hi,rfl⟩ | rfl := hm <;> simp only <;> omega

theorem members_apart : P.members.Pairwise fun m n => m.1 + m.2 ≤ n.1 := by
  have row (c : Nat) (n : Nat) : ((List.range n).map fun i => (c + 4 * i,4)).Pairwise
      fun (m n : Nat × Nat) => m.1 + m.2 ≤ n.1 := by
    refine List.pairwise_map.mpr (List.pairwise_lt_range.imp fun hij => ?_)
    simp only
    omega
  refine List.pairwise_append.mpr ⟨row P.blob P.aSize,List.pairwise_append.mpr
    ⟨row (P.blob + 4 * P.aSize) P.bSize,List.pairwise_singleton _ _,?_⟩,?_⟩
  · intro m hm n hn
    obtain ⟨i,hi,rfl⟩ := List.mem_map.mp hm
    obtain rfl := List.mem_singleton.mp hn
    have := List.mem_range.mp hi
    simp only [offsetC]
    omega
  · intro m hm n hn
    obtain ⟨i,hi,rfl⟩ := List.mem_map.mp hm
    have := List.mem_range.mp hi
    obtain hn | hn := List.mem_append.mp hn
    · obtain ⟨j,-,rfl⟩ := List.mem_map.mp hn
      simp only
      omega
    · obtain rfl := List.mem_singleton.mp hn
      simp only [offsetC]
      omega

theorem runs_load (k : Nat) : ∀ i, w = i + (k + 1) →
    ReflTransGen (Moves fun x => (P.code x).op) (.load f ((a,w) :: ms) i (readWord h a i),h)
      (.store f ((a,w) :: ms) 0 (readWord h a w + 1),h) := by
  induction k with
  | zero =>
    intro i hw
    subst hw
    exact .single (.load rfl (by simp [readWord]))
  | succ k ih =>
    intro i hw
    refine .head ?_ (ih (i + 1) (by omega))
    have hlt : i + 1 < w := by omega
    exact .load rfl (by simp [readWord,hlt])

theorem runs_store (v k : Nat) : ∀ i, w = i + (k + 1) →
    ReflTransGen (Moves fun x => (P.code x).op) (.store f ((a,w) :: ms) i v,writeWord h a v i)
      (.load f ms 0 0,writeWord h a v w) := by
  induction k with
  | zero =>
    intro i hw
    subst hw
    exact .single (.store rfl (by simp) rfl)
  | succ k ih =>
    intro i hw
    refine .head ?_ (ih (i + 1) (by omega))
    have hlt : i + 1 < w := by omega
    exact .store rfl (by simp [hlt]) rfl

theorem runs_members : ∀ (ms : List (Nat × Nat)) (h : Heap), (∀ m ∈ ms, 0 < m.2) →
    ReflTransGen (Moves fun x => (P.code x).op) (.load f ms 0 0,h)
      (.load f [] 0 0,ms.foldl addOne h) := by
  intro ms
  induction ms with
  | nil => exact fun h _ => .refl
  | cons m ms ih =>
    intro h hpos
    obtain ⟨k,hk⟩ := Nat.exists_eq_add_one_of_ne_zero (hpos m List.mem_cons_self).ne'
    have hw : m.2 = 0 + (k + 1) := by omega
    exact ((runs_load k 0 hw).trans (runs_store _ k 0 hw)).trans
      (ih (addOne h m) fun n hn => hpos n (List.mem_cons_of_mem _ hn))

theorem transforms_thread : Transforms P.code (.load f P.members 0 0) P.addAll (.load f [] 0 0) :=
  fun h => runs_members P.members h fun _ hm => Nat.lt_of_lt_of_le (by decide) (members_wide hm)

theorem cleared_succ (P : Nolock) (i : Nat) (h : Heap) :
    P.cleared (i + 1) h = Function.update (P.cleared i h) (P.blob + i) 0 := by
  funext b
  simp only [cleared,Function.update_apply]
  grind

theorem runs_memset (k : Nat) : ∀ i, P.size = i + k →
    ReflTransGen (Moves fun x => (P.code x).op) (.memset i,P.cleared i h)
      (.memset P.size,P.cleared P.size h) := by
  induction k with
  | zero =>
    intro i hi
    obtain rfl : i = P.size := by omega
    exact .refl
  | succ k ih =>
    intro i hi
    have hlt : i < P.size := by omega
    refine .head ?_ (ih (i + 1) (by omega))
    rw [cleared_succ]
    exact .store (by simp only [code,if_pos hlt]; rfl) rfl rfl

theorem transforms_memset : Transforms P.code (.memset 0) (P.cleared P.size) (.memset P.size) := by
  intro h
  have hzero : P.cleared 0 h = h := by
    funext b
    exact if_neg (by omega)
  have hrun := runs_memset (P := P) (h := h) P.size 0 (by omega)
  rwa [hzero] at hrun

theorem counts_joins (k : Nat) : ∀ {x : Point} {i : Nat}, P.code x = P.joins f i →
    P.threads f ≤ i + k → Counts P.code P.addAll x 0 := by
  induction k with
  | zero =>
    intro x i hx hk
    exact .ret (y := x) (d := 0) (fun h => .refl) (by rw [hx,joins,if_neg (by omega)])
  | succ k ih =>
    intro x i hx hk
    by_cases hi : i < P.threads f
    · exact .join (y := x) (d := 0) (n := 0) (fun h => .refl) (by rw [hx,joins,if_pos hi])
        (ih rfl (by omega))
    · exact .ret (y := x) (d := 0) (fun h => .refl) (by rw [hx,joins,if_neg hi])

theorem counts_creates {n : ℕ}
    (hn : 0 < P.threads f → Counts P.code P.addAll (.load f.startRoutine P.members 0 0) n)
    (k : Nat) :
    ∀ {x : Point} {i : Nat}, P.code x = P.creates f i → P.threads f = i + k →
      Counts P.code P.addAll x (k * n) := by
  induction k with
  | zero =>
    intro x i hx hk
    rw [Nat.zero_mul]
    exact counts_joins (P.threads f) (i := 0) (hx.trans (if_neg (by omega))) (by omega)
  | succ k ih =>
    intro x i hx hk
    have hi : i < P.threads f := by omega
    rw [Nat.succ_mul]
    exact .create (y := x) (d := 0) (fun h => .refl) (by rw [hx,creates,if_pos hi])
      (hn (by omega)) (ih rfl (by omega))

theorem counts_thread {n : ℕ}
    (hn : 0 < P.threads f → Counts P.code P.addAll (.load f.startRoutine P.members 0 0) n) :
    Counts P.code P.addAll (.load f P.members 0 0) (P.threads f * n + 1) :=
  (counts_creates hn (P.threads f) (x := .load f [] 0 0) (i := 0) rfl (by omega)).after
    (d := 1) transforms_thread

theorem counts_main : Counts P.code P.addAll (.memset P.size) P.expected := by
  have hfn2 : Counts P.code P.addAll (.load .fn2 P.members 0 0) 1 := by
    simpa [threads] using
      counts_thread (P := P) (f := .fn2) (n := 0) fun h => by simp [threads] at h
  have hfn1 : Counts P.code P.addAll (.load .fn1 P.members 0 0) (P.secondaryThreadNum + 1) := by
    simpa [threads] using counts_thread (P := P) (f := .fn1) fun _ => hfn2
  refine counts_creates (f := .main) (fun _ => hfn1) P.threadNum (i := 0) ?_ (Nat.zero_add _).symm
  simp [code]

theorem readWord_addOne {m n : Nat × Nat} (hmn : n.1 + n.2 ≤ m.1 ∨ m.1 + m.2 ≤ n.1) :
    readWord (addOne h m) n.1 n.2 = readWord h n.1 n.2 := by
  refine readWord_congr fun i hi => writeWord_of_lt h m.1 _ ?_
  omega

theorem readWord_foldl {n : Nat × Nat} : ∀ (ms : List (Nat × Nat)) (h : Heap),
    (∀ m ∈ ms, n.1 + n.2 ≤ m.1) → readWord (ms.foldl addOne h) n.1 n.2 = readWord h n.1 n.2 := by
  intro ms
  induction ms with
  | nil => exact fun h _ => rfl
  | cons m ms ih =>
    intro h hms
    obtain ⟨hm,hms⟩ := List.forall_mem_cons.mp hms
    exact (ih _ hms).trans (readWord_addOne (.inl hm))

theorem readWord_addAll {n : Nat × Nat} : ∀ (ms : List (Nat × Nat)) (h : Heap),
    (ms.Pairwise fun m n => m.1 + m.2 ≤ n.1) → n ∈ ms →
      readWord (ms.foldl addOne h) n.1 n.2 = (readWord h n.1 n.2 + 1) % 256 ^ n.2 := by
  intro ms
  induction ms with
  | nil => exact fun h _ hn => absurd hn List.not_mem_nil
  | cons m ms ih =>
    intro h hms hn
    obtain ⟨hm,hms⟩ := List.pairwise_cons.mp hms
    obtain rfl | hn := List.mem_cons.mp hn
    · rw [List.foldl_cons,readWord_foldl ms _ hm]
      exact readWord_writeWord h n.1 _ n.2
    · rw [List.foldl_cons,ih _ hms hn,readWord_addOne (.inr (hm n hn))]

theorem readWord_iterate {n : Nat × Nat} (hn : n ∈ P.members) (k : ℕ) :
    readWord (P.addAll^[k] h) n.1 n.2 = (readWord h n.1 n.2 + k) % 256 ^ n.2 := by
  induction k with
  | zero => exact (Nat.mod_eq_of_lt (readWord_lt h n.1 n.2)).symm
  | succ k ih =>
    rw [Function.iterate_succ_apply',addAll,readWord_addAll P.members _ members_apart hn,ih]
    simp [Nat.add_assoc]

theorem readWord_cleared {n : Nat × Nat} (hn : n ∈ P.members) :
    readWord (P.cleared P.size h) n.1 n.2 = 0 := by
  obtain ⟨hlo,hhi⟩ := members_inside hn
  have hzero : ∀ w, w ≤ n.2 → readWord (P.cleared P.size h) n.1 w = 0 := by
    intro w
    induction w with
    | zero => exact fun _ => rfl
    | succ w ih =>
      intro hw
      have hbyte : P.cleared P.size h (n.1 + w) = 0 := if_pos (by omega)
      rw [readWord,ih (by omega),hbyte]
      simp
  exact hzero n.2 le_rfl

theorem verify_of_sum (hfit : P.expected < 2 ^ 31) :
    P.verify (P.addAll^[P.expected] (P.cleared P.size h)) = true := by
  refine List.all_eq_true.mpr fun n hn => decide_eq_true ?_
  rw [readWord_iterate hn,readWord_cleared hn,Nat.zero_add]
  refine Nat.mod_eq_of_lt (hfit.trans_le ?_)
  calc 2 ^ 31 ≤ 256 ^ 4 := by decide
    _ ≤ 256 ^ n.2 := Nat.pow_le_pow_right (by decide) (members_wide hn)

def Inside (P : Nolock) : Point → Prop
  | .load _ ms i _ | .store _ ms i _ => (∀ m ∈ ms, m ∈ P.members) ∧ ∀ m ∈ ms.head?, i < m.2
  | .memset _ | .create _ _ | .join _ _ => True

theorem inside_start (ms : List (Nat × Nat)) (hms : ∀ m ∈ ms, m ∈ P.members) (f : Fn) (v : Nat) :
    P.Inside (.load f ms 0 v) ∧ P.Inside (.store f ms 0 v) := by
  have hpos : ∀ m ∈ ms.head?, 0 < m.2 := fun m hm =>
    Nat.lt_of_lt_of_le (by decide) (members_wide (hms m (List.mem_of_mem_head? hm)))
  exact ⟨⟨hms,hpos⟩,hms,hpos⟩

theorem follows_joins {x y : Point} {i : Nat} (hx : P.code x = P.joins f i)
    (h : Follows P.code y x) : i < P.threads f ∧ y = .join f (i + 1) := by
  unfold Follows at h
  rw [hx,joins] at h
  by_cases hi : i < P.threads f
  · rw [if_pos hi] at h
    exact ⟨hi,h⟩
  · rw [if_neg hi] at h
    exact h.elim

theorem follows_creates {x y : Point} {i : Nat} (hx : P.code x = P.creates f i)
    (h : Follows P.code y x) :
    i < P.threads f ∧ (y = .load f.startRoutine P.members 0 0 ∨ y = .create f (i + 1)) ∨
      0 < P.threads f ∧ y = .join f 1 := by
  by_cases hi : i < P.threads f
  · unfold Follows at h
    rw [hx,creates,if_pos hi] at h
    exact .inl ⟨hi,h⟩
  · exact .inr (follows_joins (hx.trans (if_neg hi)) h)

theorem inside_follows {x y : Point} (hx : P.Inside x) (h : Follows P.code y x) : P.Inside y := by
  have loops {g : Fn} {i : Nat} (hc : P.code x = P.creates g i) : P.Inside y := by
    obtain ⟨-,rfl | rfl⟩ | ⟨-,rfl⟩ := follows_creates hc h
    · exact (inside_start P.members (fun m hm => hm) _ 0).1
    · trivial
    · trivial
  cases x with
  | memset i =>
    by_cases hi : i < P.size
    · unfold Follows at h
      simp only [code,if_pos hi] at h
      subst h
      trivial
    · exact loops (if_neg hi)
  | load f ms i v =>
    match ms with
    | [] => exact loops rfl
    | (a,w) :: ms =>
      obtain ⟨b,rfl⟩ := h
      split
      · exact ⟨hx.1,by simpa using ‹i + 1 < w›⟩
      · exact (inside_start _ hx.1 f _).2
  | store f ms i v =>
    match ms with
    | [] => exact loops rfl
    | (a,w) :: ms =>
      obtain rfl := h
      split
      · exact ⟨hx.1,by simpa using ‹i + 1 < w›⟩
      · exact (inside_start _ (fun m hm => hx.1 m (List.mem_cons_of_mem _ hm)) f _).1
  | create f i => exact loops rfl
  | join f i =>
    obtain ⟨-,rfl⟩ := follows_joins rfl h
    trivial

theorem joins_op (P : Nolock) (f : Fn) (i : Nat) : (P.joins f i).op = .leave := by
  unfold joins
  split <;> rfl

theorem creates_op (P : Nolock) (f : Fn) (i : Nat) : (P.creates f i).op = .leave := by
  unfold creates
  split
  · rfl
  · exact joins_op P f 0

theorem inside_touches {x : Point} (hx : P.Inside x) {b : Nat}
    (h : (∃ v k, P.code x = .store b v k) ∨ ∃ k, P.code x = .load b k) :
    P.blob ≤ b ∧ b < P.blob + P.size := by
  have loops (hc : (P.code x).op = .leave) : P.blob ≤ b ∧ b < P.blob + P.size := by
    obtain ⟨v,k,hk⟩ | ⟨k,hk⟩ := h <;> rw [hk] at hc <;> cases hc
  have member {a w i : Nat} (hm : (a,w) ∈ P.members) (hi : i < w) :
      P.blob ≤ a + i ∧ a + i < P.blob + P.size := by
    have := members_inside hm
    simp only at this
    omega
  cases x with
  | memset i =>
    by_cases hi : i < P.size
    · obtain ⟨v,k,hk⟩ | ⟨k,hk⟩ := h <;> simp only [code,if_pos hi] at hk <;> cases hk
      omega
    · exact loops (by rw [code,if_neg hi,creates_op])
  | load f ms i v =>
    match ms with
    | [] => exact loops (creates_op P f 0)
    | (a,w) :: ms =>
      obtain ⟨c,k,hk⟩ | ⟨k,hk⟩ := h <;> cases hk
      exact member (hx.1 _ List.mem_cons_self) (by simpa using hx.2)
  | store f ms i v =>
    match ms with
    | [] => exact loops (creates_op P f 0)
    | (a,w) :: ms =>
      obtain ⟨c,k,hk⟩ | ⟨k,hk⟩ := h <;> cases hk
      exact member (hx.1 _ List.mem_cons_self) (by simpa using hx.2)
  | create f i => exact loops (creates_op P f i)
  | join f i => exact loops (joins_op P f i)

theorem accesses_blob {b : Nat} (h : Accesses P.code (.memset 0) b) :
    P.blob ≤ b ∧ b < P.blob + P.size := by
  have inside {x : Point} (hr : Reaches P.code (.memset 0) x) : P.Inside x :=
    hr.invariant (fun _ _ hx hy => inside_follows hx hy) trivial
  obtain ⟨y,v,k,hr,hk⟩ | ⟨y,k,hr,hk⟩ := h
  · exact inside_touches (inside hr) (.inl ⟨v,k,hk⟩)
  · exact inside_touches (inside hr) (.inr ⟨k,hk⟩)

def Fn.level : Fn → ℕ
  | .main => 8
  | .fn1 => 4
  | .fn2 => 0

def rank (P : Nolock) : Point → ℕ × ℕ × ℕ
  | .memset i => (Fn.main.level + 3,0,P.size - i)
  | .load f ms i _ => (f.level + 2,2 * ms.length + 1,(ms.head?.map Prod.snd).getD 0 - i)
  | .store f ms i _ => (f.level + 2,2 * ms.length,(ms.head?.map Prod.snd).getD 0 - i)
  | .create f i => (f.level + 1,0,P.threads f - i)
  | .join f i => (f.level,0,P.threads f - i)

def RankLt : ℕ × ℕ × ℕ → ℕ × ℕ × ℕ → Prop := Prod.Lex (· < ·) (Prod.Lex (· < ·) (· < ·))

theorem rank_creates {x y : Point} {i : Nat} (hx : P.code x = P.creates f i)
    (hlevel : f.level + 2 ≤ (P.rank x).1) (h : Follows P.code y x) :
    RankLt (P.rank y) (P.rank x) := by
  refine Prod.lex_def.mpr (.inl (Nat.lt_of_lt_of_le ?_ hlevel))
  obtain ⟨hi,rfl | rfl⟩ | ⟨-,rfl⟩ := follows_creates hx h
  · cases f with
    | main | fn1 => simp [rank,Fn.level,Fn.startRoutine]
    | fn2 => simp [threads] at hi
  · simp [rank]
  · simp [rank]

theorem wf_follows : WellFounded (Follows P.code) := by
  refine Subrelation.wf (r := InvImage RankLt P.rank) (fun {y x} h => ?_)
    (InvImage.wf P.rank (wellFounded_lt.prod_lex (wellFounded_lt.prod_lex wellFounded_lt)))
  show RankLt (P.rank y) (P.rank x)
  cases x with
  | memset i =>
    by_cases hi : i < P.size
    · unfold Follows at h
      simp only [code,if_pos hi] at h
      subst h
      exact .right _ (.right _ (by omega))
    · exact rank_creates (f := .main) (if_neg hi) (by simp [rank]) h
  | load f ms i v =>
    match ms with
    | [] => exact rank_creates rfl le_rfl h
    | (a,w) :: ms =>
      obtain ⟨b,rfl⟩ := h
      split
      · exact .right _ (.right _ (by simp; omega))
      · exact .right _ (.left _ _ (by simp))
  | store f ms i v =>
    match ms with
    | [] => exact rank_creates rfl le_rfl h
    | (a,w) :: ms =>
      obtain rfl := h
      split
      · exact .right _ (.right _ (by simp; omega))
      · exact .right _ (.left _ _ (by simp; omega))
  | create f i =>
    obtain ⟨hi,rfl | rfl⟩ | ⟨-,rfl⟩ := follows_creates rfl h
    · cases f with
      | main | fn1 => exact .left _ _ (by simp [Fn.level,Fn.startRoutine])
      | fn2 => simp [threads] at hi
    · exact .right _ (.right _ (by omega))
    · exact .left _ _ (by simp)
  | join f i =>
    obtain ⟨hi,rfl⟩ := follows_joins rfl h
    exact .right _ (.right _ (by omega))

def Known (P : Nolock) (c n : ℕ) : Point → Prop
  | .memset _ | .load _ _ _ _ | .store _ _ _ _ => c = 0
  | .create f i => c = i ∧ i ≤ P.threads f
  | .join f i => c = P.threads f ∧ i ≤ n

theorem Known.loops {x : Point} {c n : ℕ} (h : P.Known c n x) (hx : (P.code x).op = .leave) :
    (∃ f, P.code x = P.creates f c ∧ c ≤ P.threads f) ∨
      ∃ f i, P.code x = P.joins f i ∧ c = P.threads f ∧ i ≤ n := by
  cases x with
  | memset i =>
    by_cases hi : i < P.size
    · simp only [code,if_pos hi] at hx
      cases hx
    · obtain rfl : c = 0 := h
      exact .inl ⟨.main,if_neg hi,Nat.zero_le _⟩
  | load f ms i v | store f ms i v =>
    obtain rfl : c = 0 := h
    match ms with
    | [] => exact .inl ⟨f,rfl,Nat.zero_le _⟩
    | (a,w) :: ms => cases hx
  | create f i => exact .inl ⟨f,by rw [h.1]; rfl,h.1 ▸ h.2⟩
  | join f i => exact .inr ⟨f,i,rfl,h.1,h.2⟩

theorem joins_join {i j : Nat} {k : Point} (h : P.joins f i = .join j k) :
    i < P.threads f ∧ j = i ∧ k = .join f (i + 1) := by
  unfold joins at h
  split at h <;> cases h
  exact ⟨‹_›,rfl,rfl⟩

theorem Known.join {x k : Point} {c n i : ℕ} (h : P.Known c n x) (hx : P.code x = .join i k) :
    i < c ∧ i ≤ n ∧ P.Known c (max n (i + 1)) k := by
  have taken {f : Fn} {j : Nat} (hc : c = P.threads f) (hj : j ≤ n)
      (hx : P.joins f j = .join i k) : i < c ∧ i ≤ n ∧ P.Known c (max n (i + 1)) k := by
    obtain ⟨hlt,rfl,rfl⟩ := joins_join hx
    exact ⟨hc ▸ hlt,hj,hc,le_max_right _ _⟩
  obtain ⟨f,hcode,hle⟩ | ⟨f,j,hcode,hc,hj⟩ := h.loops (by rw [hx]; rfl)
  · rw [hx,creates] at hcode
    split at hcode
    · cases hcode
    · exact taken (by omega) (Nat.zero_le n) hcode.symm
  · exact taken hc hj (hcode.symm.trans hx)

theorem Known.create {x g k : Point} {c n : ℕ} (h : P.Known c n x)
    (hx : P.code x = .create g k) : P.Known 0 0 g ∧ P.Known (c + 1) n k := by
  obtain ⟨f,hcode,hle⟩ | ⟨f,j,hcode,-,-⟩ := h.loops (by rw [hx]; rfl)
  · rw [hx,creates] at hcode
    split at hcode
    · cases hcode
      exact ⟨rfl,rfl,‹_›⟩
    · unfold joins at hcode
      split at hcode <;> cases hcode
  · rw [hx,joins] at hcode
    split at hcode <;> cases hcode

/-- Code that touches a byte belongs to a thread that has created none. -/
theorem Known.touch {x y : Point} {c n : ℕ} (h : P.Known c n x) (hx : (P.code x).op ≠ .leave)
    (hy : Follows P.code y x) : c = 0 ∧ P.Known c n y := by
  cases x with
  | memset i =>
    by_cases hi : i < P.size
    · unfold Follows at hy
      simp only [code,if_pos hi] at hy
      subst hy
      exact ⟨h,h⟩
    · exact absurd (by rw [code,if_neg hi,creates_op]) hx
  | load f ms i v =>
    match ms with
    | [] => exact absurd (creates_op P f 0) hx
    | (a,w) :: ms =>
      obtain ⟨b,rfl⟩ := hy
      split <;> exact ⟨h,h⟩
  | store f ms i v =>
    match ms with
    | [] => exact absurd (creates_op P f 0) hx
    | (a,w) :: ms =>
      obtain rfl := hy
      split <;> exact ⟨h,h⟩
  | create f i => exact absurd (creates_op P f i) hx
  | join f i => exact absurd (joins_op P f i) hx

theorem joinsInOrder : JoinsInOrder P.code (.memset 0) := by
  have known : ∀ x c n, Stage P.code (.memset 0) x c n → P.Known c n x := by
    intro x c n h
    induction h with
    | start => rfl
    | load b _ hc ih => exact (ih.touch (by simp [hc,Cmd.op]) (by simp [Follows,hc])).2
    | store _ hc ih => exact (ih.touch (by simp [hc,Cmd.op]) (by simp [Follows,hc])).2
    | child _ hc ih => exact (ih.create hc).1
    | create _ hc ih => exact (ih.create hc).2
    | join _ hc ih => exact (ih.join hc).2.2
  intro x c n h
  have hx := known x c n h
  cases hc : P.code x with
  | load a k =>
    have := (hx.touch (y := k 0) (by simp [hc,Cmd.op]) (by simp [Follows,hc])).1
    simp only
    omega
  | store a b k =>
    have := (hx.touch (y := k) (by simp [hc,Cmd.op]) (by simp [Follows,hc])).1
    simp only
    omega
  | join i k => exact ⟨(hx.join hc).1,(hx.join hc).2.1⟩
  | create f k => trivial
  | ret => trivial

end
end Nolock

/-- The test passes: in both builds, from wherever a run without failures of the system has come
it can be run to its end, and at every end `verify` finds what it expects. -/
theorem nolock_verified (P : Nolock) (hfit : P.expected < 2 ^ 31)
    (S : System (Nolock.Point × List Nat)) (hS : S.code = forkJoin P.code) (hlive : S.live = true)
    (hheap : ∀ b, P.blob ≤ b → b < P.blob + P.size → S.layout.InHeap b) (root : Nat)
    (hroot : root ≠ 0) (file : Heap) (s : State (Nolock.Point × List Nat))
    (h : Reachable (Guarded (fun _ y => ¬ y.2.failure) (Step S))
      (initial root (.memset 0,[]) file) s) :
    (∃ t, Reachable (Guarded (fun _ y => ¬ y.2.failure) (Step S)) s t ∧ t.Over) ∧
      ∀ t, Reachable (Guarded (fun _ y => ¬ y.2.failure) (Step S)) s t →
        (S.Idle t → t.Over) ∧ (t.Over → P.verify t.now.bytes = true) := by
  have hfree {t : State (Nolock.Point × List Nat)}
      (ht : Reachable (Step S) (initial root (.memset 0,[]) file) t) : ∀ D, ¬ t.Deadlocked D :=
    not_deadlocked hS (fun _ => Nolock.joinsInOrder) hroot ht
  refine ⟨completes hS Nolock.wf_follows (fun t ht => hfree ht) h.forget,fun t ht =>
    ⟨over_of_idle hS (h.trans ht).forget (hfree (h.trans ht).forget),fun ho => ?_⟩⟩
  have hreg := regular_reachable hS (fun b hb => (Nolock.accesses_blob hb).elim (hheap b))
    (h.trans ht)
  rw [sum_of_counts hS hlive Nolock.transforms_memset Nolock.counts_main (h.trans ht).forget
    (ho.finished hreg)]
  exact Nolock.verify_of_sum hfit

def smallNolock : Nolock := ⟨2,0,0,0,0x100000⟩

def smallNolockRun : List (Nat × Act) :=
  [(1,.atomicBegin),(1,.fault),(1,.fault)] ++ List.replicate 8 (1,.store 0) ++
  [(1,.atomicEnd),(1,.waited)] ++ commitActs 1 0x100000 ++
  [(1,.fork 2),(1,.atomicBegin),(1,.atomicEnd),(1,.fork 3),(2,.atomicBegin),(3,.atomicBegin)] ++
  ([2,3].flatMap fun q => (q,.fault) :: List.replicate 8 (q,.load 0) ++ (q,.fault) ::
    List.replicate 8 (q,.store 0) ++ [(q,.atomicEnd)]) ++
  (2,.waited) :: commitActs 2 0x100000 ++ [(2,.exit),(1,.atomicBegin),(1,.atomicEnd),(1,.join),
    (1,.joined),(3,.waited),(3,.lock)]

theorem nolock_verified_small : ∃ s t,
    Reachable (Step (ordered smallNolock.code .adjacent true))
      (initial 1 (.memset 0,[]) fun _ => 255) s ∧ s.rollbackCount = 1 ∧ ¬ s.Over ∧
    Reachable (Step (ordered smallNolock.code .adjacent true)) s t ∧ t.Over ∧
    readWord t.now.bytes 0x100000 8 = 2 := by
  obtain ⟨s,hs,hv⟩ := System.run_unfailing (ordered smallNolock.code .adjacent true)
    (initial 1 (.memset 0,[]) fun _ => 255) smallNolockRun
    (fun s => s.rollbackCount = 1 && (s.procs 3).any fun p => !p.pc.exited) (by decide +kernel)
  simp only [Bool.and_eq_true,decide_eq_true_eq,Option.any_eq_true,Bool.not_eq_true'] at hv
  obtain ⟨hr,p,hp,hlive⟩ := hv
  have hheap : ∀ b, smallNolock.blob ≤ b → b < smallNolock.blob + smallNolock.size →
      Layout.adjacent.InHeap b := by
    intro b hlo hhi
    simp only [smallNolock,Nolock.size,Nolock.offsetC] at hlo hhi
    simp only [Layout.InHeap,Layout.adjacent,heapSize]
    omega
  obtain ⟨⟨t,ht,ho⟩,hend⟩ := nolock_verified smallNolock (by decide)
    (ordered smallNolock.code .adjacent true) rfl rfl hheap 1 (by decide) (fun _ => 255) s hs
  have hverify := (hend t ht).2 ho
  refine ⟨s,t,hs.forget,hr,fun h => absurd (h 3 p hp).1 (by simp [hlive]),ht.forget,ho,?_⟩
  simpa [Nolock.verify,Nolock.members,Nolock.expected,Nolock.offsetC,smallNolock] using hverify

end GThread
