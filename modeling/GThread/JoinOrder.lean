import GThread.Completion

/-! What a program has to keep to so that the ordered build cannot deadlock: a thread joins its
threads in the order in which it created them, and touches the heap only while at most the latest
of them is not joined. Then every run can be completed, as in the unordered build. -/
namespace GThread
open Replay Transition Insertion
variable {τ : Type} {code : τ → Cmd τ} {start : τ}

/-- A thread of the program may stand at the first argument when it has created as many threads as
the second says, and joined as many of the first of these as the third says. -/
inductive Stage (code : τ → Cmd τ) (start : τ) : τ → ℕ → ℕ → Prop where
  | start : Stage code start start 0 0
  | load {x a k c n} (b : Byte) : Stage code start x c n → code x = .load a k →
      Stage code start (k b) c n
  | store {x a b k c n} : Stage code start x c n → code x = .store a b k → Stage code start k c n
  | child {x f k c n} : Stage code start x c n → code x = .create f k → Stage code start f 0 0
  | create {x f k c n} : Stage code start x c n → code x = .create f k →
      Stage code start k (c + 1) n
  | join {x i k c n} : Stage code start x c n → code x = .join i k →
      Stage code start k c (max n (i + 1))

/-- Threads are joined in the order of their creation, and the heap is touched only while at most
the latest of them is not joined. -/
def JoinsInOrder (code : τ → Cmd τ) (start : τ) : Prop :=
  ∀ x c n, Stage code start x c n → match code x with
    | .load _ _ | .store _ _ _ => c ≤ n + 1
    | .join i _ => i < c ∧ i ≤ n
    | .create _ _ | .ret => True

def State.Gathered {σ : Type} (s : State σ) (l : List Nat) (n : ℕ) : Prop :=
  ∀ i < n, ∃ c, l[i]? = some c ∧ c ∈ s.reaped

structure Linked {σ : Type} (s : State σ) (p : Proc σ) (l : List Nat) : Prop where
  latest : l.getLastD p.elder = p.predecessor
  elder : ∀ (i : ℕ) (c : Nat), l[i]? = some c → c ≠ 0 ∧ ∃ r, s.procs c = some r ∧
    (p.elder :: l)[i]? = some r.elder

def Placed (code : τ → Cmd τ) (start : τ) (s : State (τ × List Nat)) (x : τ × List Nat) : Prop :=
  ∃ n, Stage code start x.1 x.2.length n ∧ s.Gathered x.2 n

def Proc.points {σ : Type} (p : Proc σ) : List σ :=
  match p.pc with
  | .atomicBegin c => [c.next]
  | .run | .waitPred _ | .lock _ => [p.context.next,p.cur]
  | .abort => [p.context.next]
  | .commit _ _ | .copy _ _ _ | .ended _ => [p.cur]
  | .wait _ _ | .zombie _ => []

def Proc.touched {σ : Type} (p : Proc σ) : Prop :=
  match p.pc with
  | .run => ¬ (p.readSetVersion = ∅ ∧ p.writeSetVersion = ∅)
  | .waitPred _ => True
  | _ => False

structure Orderly (code : τ → Cmd τ) (start : τ) (s : State (τ × List Nat))
    (p : Proc (τ × List Nat)) : Prop where
  point : ∀ x ∈ p.points, Linked s p x.2 ∧ Placed code start s x
  waits : ∀ t k, p.pc = .wait t k → Linked s p k.2 ∧ ∃ i n, k.2[i]? = some t ∧ i ≤ n ∧
    Stage code start k.1 k.2.length (max n (i + 1)) ∧ s.Gathered k.2 n
  tight : p.touched → ∃ n, p.cur.2.length ≤ n + 1 ∧ s.Gathered p.cur.2 n

section
variable {S : System (τ × List Nat)} {s s' : State (τ × List Nat)}
  {p p' : Proc (τ × List Nat)} {x : τ × List Nat} {l : List Nat} {n : ℕ}

theorem State.Gathered.later {a : Nat × Act} (hstep : Step S s a s') (h : s.Gathered l n) :
    s'.Gathered l n := by
  intro i hi
  obtain ⟨c,hc,hreap⟩ := h i hi
  exact ⟨c,hc,reaped_step hstep hreap⟩

theorem Placed.later {a : Nat × Act} (hstep : Step S s a s') (h : Placed code start s x) :
    Placed code start s' x := by
  obtain ⟨n,hn,hg⟩ := h
  exact ⟨n,hn,hg.later hstep⟩

theorem Linked.later {a : Nat × Act} (hstep : Step S s a s') (h : Linked s p l)
    (elder : p'.elder = p.elder) (predecessor : p'.predecessor = p.predecessor) :
    Linked s' p' l := by
  refine ⟨by rw [elder,predecessor,h.latest],fun i c hi => ?_⟩
  obtain ⟨h0,r,hr,he⟩ := h.elder i c hi
  obtain ⟨r',hr',-,helder⟩ := parent_step hstep hr
  exact ⟨h0,r',hr',by rw [elder,he,helder]⟩

theorem Orderly.later {a : Nat × Act} (hstep : Step S s a s') (h : Orderly code start s p) :
    Orderly code start s' p := by
  refine ⟨fun x hx => ?_,fun t k hpc => ?_,fun ht => ?_⟩
  · obtain ⟨hl,hp⟩ := h.point x hx
    exact ⟨hl.later hstep rfl rfl,hp.later hstep⟩
  · obtain ⟨hl,i,n,hi,hin,hk,hg⟩ := h.waits t k hpc
    exact ⟨hl.later hstep rfl rfl,i,n,hi,hin,hk,hg.later hstep⟩
  · obtain ⟨n,hn,hg⟩ := h.tight ht
    exact ⟨n,hn,hg.later hstep⟩

theorem Orderly.go {a : Nat × Act} (hstep : Step S s a s') (h : Orderly code start s p)
    (elder : p'.elder = p.elder) (predecessor : p'.predecessor = p.predecessor)
    (points : p'.points ⊆ p.points) (waits : ∀ t k, p'.pc ≠ .wait t k)
    (quiet : ¬ p'.touched) : Orderly code start s' p' := by
  refine ⟨fun x hx => ?_,fun t k hpc => absurd hpc (waits t k),fun ht => absurd ht quiet⟩
  obtain ⟨hl,hp⟩ := h.point x (points hx)
  exact ⟨hl.later hstep elder predecessor,hp.later hstep⟩

theorem Orderly.move {a : Nat × Act} (hstep : Step S s a s') (h : Orderly code start s p)
    (elder : p'.elder = p.elder) (predecessor : p'.predecessor = p.predecessor)
    (context : p'.context = p.context) (hpc : p.pc = .run) (hpc' : p'.pc = .run)
    (hcur : p'.cur.2 = p.cur.2) (stage : ∀ n, Stage code start p.cur.1 p.cur.2.length n →
      Stage code start p'.cur.1 p.cur.2.length n)
    (tight : p'.touched → ∃ n, p.cur.2.length ≤ n + 1 ∧ s.Gathered p.cur.2 n) :
    Orderly code start s' p' := by
  have hpoint : ∀ x ∈ [p.context.next,p.cur], Linked s p x.2 ∧ Placed code start s x := by
    have hp := h.point
    rwa [Proc.points,hpc] at hp
  refine ⟨?_,fun t k hw => (by cases hpc'.symm.trans hw),fun ht => ?_⟩
  · rw [Proc.points,hpc',context]
    intro x hx
    obtain rfl | rfl : x = p.context.next ∨ x = p'.cur := by simpa using hx
    · obtain ⟨hl,hp⟩ := hpoint p.context.next (by simp)
      exact ⟨hl.later hstep elder predecessor,hp.later hstep⟩
    · obtain ⟨hl,n,hn,hg⟩ := hpoint p.cur (by simp)
      rw [Placed,hcur]
      exact ⟨hl.later hstep elder predecessor,n,stage n hn,hg.later hstep⟩
  · obtain ⟨n,hn,hg⟩ := tight ht
    exact ⟨n,hcur ▸ hn,hcur ▸ hg.later hstep⟩

theorem JoinsInOrder.tight (hin : JoinsInOrder code start) (hS : S.code = forkJoin code)
    {c n : ℕ} (hn : Stage code start p.cur.1 c n) {a : Nat} (ha : S.faultAddr p = some a) :
    c ≤ n + 1 := by
  have hlt := hin _ _ _ hn
  obtain ⟨k,hk⟩ | ⟨b,k,hk⟩ := System.touches_of_faultAddr ha
  · obtain ⟨k',hk',-⟩ := forkJoin_load (hS ▸ hk)
    simpa only [hk'] using hlt
  · obtain ⟨k',hk',-⟩ := forkJoin_store (hS ▸ hk)
    simpa only [hk'] using hlt

theorem getElem?_snoc {α : Type} {l : List α} {a c : α} {i : ℕ} (h : (l ++ [c])[i]? = some a) :
    l[i]? = some a ∨ i = l.length ∧ a = c := by
  by_cases hi : i < l.length
  · exact .inl (by rwa [List.getElem?_append_left hi] at h)
  · rw [List.getElem?_append_right (not_lt.mp hi),List.getElem?_singleton] at h
    obtain ⟨h0,ha⟩ := Option.ite_none_right_eq_some.mp h
    exact .inr ⟨by omega,(Option.some.inj ha).symm⟩

theorem getElem?_append_of_some {α : Type} {l r : List α} {a : α} {i : ℕ} (h : l[i]? = some a) :
    (l ++ r)[i]? = some a := by
  rw [List.getElem?_append_left (List.getElem?_eq_some_iff.mp h).1,h]

theorem orderly_fork (hS : S.code = forkJoin code)
    (horder : S.order = true) {pid child : Nat} (h : Step S s (pid,.fork child) s')
    (hs : Sound S s) (hi : ∀ q p, s.procs q = some p → Orderly code start s p) :
    ∀ q p, s'.procs q = some p → Orderly code start s' p := by
  have stay : ∀ q p, s.procs q = some p → Orderly code start s' p :=
    fun q p hp => (hi q p hp).later h
  have hstep := h
  cases h with
  | @fork _ p e _ f c hp hpc hf hc hn =>
    obtain ⟨g,k,hk,rfl⟩ | ⟨i,k,-,rfl⟩ | ⟨-,rfl⟩ :=
      endOf_forkJoin hS ((hs.each pid p hp).ending e (by rw [hpc]; rfl)) <;> cases hf
    obtain ⟨hl,n,hn',hg⟩ := (hi pid p hp).point p.cur (by simp [Proc.points,hpc])
    have hlinked := hl.later hstep rfl rfl
    have hchild : (S.forkChild s pid child p (g,[]) fun c => ⟨none,(k,p.cur.2 ++ [c])⟩).procs
        child = some { p with
          parent := pid
          predecessor := p.predecessor
          elder := p.predecessor
          pc := .atomicBegin ⟨none,(g,[])⟩ } := by
      simp [System.forkChild,State.put,horder]
    refine forall_fork stay ⟨fun x hx => ?_,fun t k hpc => (by cases hpc),fun ht => ht.elim⟩
      ⟨fun x hx => ?_,fun t k hpc => (by cases hpc),fun ht => ht.elim⟩
    · obtain rfl := List.mem_singleton.mp hx
      refine ⟨⟨by simp,fun i c hic => ?_⟩,n,by simpa using hn'.create hk,fun i hi => ?_⟩
      · obtain hic | ⟨rfl,rfl⟩ := getElem?_snoc hic
        · obtain ⟨h0,r,hr,he⟩ := hlinked.elder i c hic
          exact ⟨h0,r,hr,getElem?_append_of_some he⟩
        · have hlast : (p.elder :: p.cur.2)[p.cur.2.length]? = some p.predecessor := by
            rw [← hl.latest,List.getLastD_eq_getLast?,← List.getLast?_cons,
              List.getLast?_eq_getElem?]
            rfl
          exact ⟨hc,_,hchild,getElem?_append_of_some hlast⟩
      · obtain ⟨c,hic,hreap⟩ := hg.later hstep i hi
        exact ⟨c,getElem?_append_of_some hic,hreap⟩
    · obtain rfl := List.mem_singleton.mp hx
      exact ⟨⟨rfl,fun i c hi => by simp at hi⟩,0,hn'.child hk,fun i hi => by simp at hi⟩

theorem Linked.reaped_of_joined (h : Linked s p l) {i : ℕ} {c pid : Nat} (hi : l[i]? = some c)
    (hw : s.waitExited pid c = some s') : c ∈ s'.reaped := by
  obtain ⟨h0,r,hr,-⟩ := h.elder i c hi
  obtain ⟨rfl,hc | hn | hreap⟩ | ⟨rfl,-⟩ := waitExited_spec hw
  · exact absurd hc h0
  · cases hr.symm.trans hn
  · exact hreap
  · exact Finset.mem_insert_self c _

theorem orderly_step (hin : JoinsInOrder code start) (hS : S.code = forkJoin code)
    (horder : S.order = true) {a : Nat × Act} (h : Step S s a s')
    (hs : Sound S s) (hi : ∀ q p, s.procs q = some p → Orderly code start s p) :
    ∀ q p, s'.procs q = some p → Orderly code start s' p := by
  have stay : ∀ q p, s.procs q = some p → Orderly code start s' p :=
    fun q p hp => (hi q p hp).later h
  have hstep := h
  cases h with
  | @atomicBegin pid p c hp hpc hm =>
    exact forall_put stay ((hi pid p hp).go hstep rfl rfl
      (by simp [Proc.points,Proc.atomicBegin,hpc]) (by simp [Proc.atomicBegin])
      fun ht => ht ⟨rfl,rfl⟩)
  | @load pid p a k i m hp hpc hk ha hm =>
    obtain ⟨k',hk',hkb⟩ := forkJoin_load (hS ▸ hk)
    refine forall_put stay ((hi pid p hp).move hstep rfl rfl rfl hpc hpc (by simp [hkb])
      (fun n hn => by simpa [hkb] using hn.load _ hk') fun ht => (hi pid p hp).tight ?_)
    simpa [Proc.touched,hpc,Attempt.load] using ht
  | @store pid p a b k i m hp hpc hk ha hm =>
    obtain ⟨k',hk',rfl⟩ := forkJoin_store (hS ▸ hk)
    refine forall_put stay ((hi pid p hp).move hstep rfl rfl rfl hpc hpc rfl
      (fun n hn => hn.store hk') fun ht => (hi pid p hp).tight ?_)
    simpa [Proc.touched,hpc,Attempt.store] using ht
  | @fault pid p t a hp hpc ha hf =>
    obtain ⟨-,n,hn,hg⟩ := (hi pid p hp).point p.cur (by simp [Proc.points,hpc])
    exact forall_put stay ((hi pid p hp).move hstep rfl rfl rfl hpc hpc rfl (fun n hn => hn)
      fun _ => ⟨n,hin.tight hS hn ha,hg⟩)
  | @atomicEnd pid p e hp hpc he =>
    by_cases htouched : p.readSetVersion = ∅ ∧ p.writeSetVersion = ∅
    · have hend : p.atomicEnd e s.past.length =
          { p with toAttempt := p.toAttempt.updateHeap s.past.length, pc := .ended e } :=
        if_pos htouched
      rw [hend] at hstep ⊢
      exact forall_put (hend ▸ stay)
        ((hi pid p hp).go hstep rfl rfl (by simp [Proc.points,hpc]) (by simp) id)
    · have hend : p.atomicEnd e s.past.length = { p with pc := .waitPred e } := if_neg htouched
      rw [hend] at hstep stay ⊢
      obtain ⟨n,hn,hg⟩ := (hi pid p hp).tight (by simpa [Proc.touched,hpc] using htouched)
      refine forall_put stay ⟨fun x hx => ?_,fun t k hw => (by cases hw),fun _ =>
        ⟨n,hn,hg.later hstep⟩⟩
      obtain ⟨hl,hplace⟩ := (hi pid p hp).point x (by simpa [Proc.points,hpc] using hx)
      exact ⟨hl.later hstep rfl rfl,hplace.later hstep⟩
  | fork hp hpc hf hc hn => exact orderly_fork hS horder (.fork hp hpc hf hc hn) hs hi
  | @join pid p t k hp hpc =>
    obtain ⟨f',k',-,he⟩ | ⟨i,k',hk,he⟩ | ⟨-,he⟩ :=
      endOf_forkJoin hS ((hs.each pid p hp).ending _ (by rw [hpc]; rfl)) <;> cases he
    obtain ⟨hl,n,hn,hg⟩ := (hi pid p hp).point p.cur (by simp [Proc.points,hpc])
    have hjoin := hin _ _ _ hn
    simp only [hk] at hjoin
    refine forall_put stay ⟨fun x hx => (by simp [Proc.points] at hx),fun t k hw => ?_,
      fun ht => ht.elim⟩
    obtain ⟨rfl,rfl⟩ := PC.wait.inj hw
    refine ⟨hl.later hstep rfl rfl,i,n,?_,hjoin.2,hn.join hk,hg.later hstep⟩
    simp [List.getD_eq_getElem?_getD,List.getElem?_eq_getElem hjoin.1]
  | @joined pid p t k s₁ hp hpc hw =>
    obtain ⟨hl,i,n,hit,hin',hk,hg⟩ := (hi pid p hp).waits t k hpc
    have hput : ∀ q r, s₁.procs q = some r → Orderly code start _ r :=
      (waitExited_procs hw).symm ▸ stay
    refine forall_put hput ⟨fun x hx => ?_,fun t k hw => (by cases hw),fun ht => ht.elim⟩
    obtain rfl := List.mem_singleton.mp hx
    refine ⟨hl.later hstep rfl rfl,_,hk,fun j hj => ?_⟩
    obtain hjn | rfl : j < n ∨ j = i := by omega
    · exact hg.later hstep j hjn
    · have hreap : t ∈ s₁.reaped := hl.reaped_of_joined hit hw
      exact ⟨t,hit,hreap⟩
  | memcpy | reap => exact stay
  | @waited pid p e s₁ hp hpc hw =>
    have hput : ∀ q r, s₁.procs q = some r → Orderly code start _ r :=
      (waitExited_procs hw).symm ▸ stay
    exact forall_put hput ((hi pid p hp).go hstep rfl rfl (by simp [Proc.points,hpc]) (by simp) id)
  | @commit pid p e hp hpc hm hc =>
    exact forall_put (p := { p with pc := .commit e p.writeSetVersion.keys }) stay
      ((hi pid p hp).go hstep rfl rfl (by simp [Proc.points,hpc]) (by simp) id)
  | @reject pid p e hp hpc hm hc =>
    exact forall_put (p := { p with pc := .abort }) stay
      ((hi pid p hp).go hstep rfl rfl (by simp [Proc.points,hpc]) (by simp) id)
  | @publish pid p e todo page v hp hpc hv =>
    exact forall_put (s := s.write _) (p := { p with pc := .commit e todo }) stay
      ((hi pid p hp).go hstep rfl rfl (by simp [Proc.points,hpc]) (by simp) id)
  | @page pid p e todo page hp hpc hpage =>
    exact forall_put stay
      ((hi pid p hp).go hstep rfl rfl (by simp [Proc.points,hpc]) (by simp) id)
  | @unlock pid p e hp hpc =>
    exact forall_put (p := { p with
      toAttempt := p.toAttempt.updateHeap s.past.length
      pc := .ended e }) stay
      ((hi pid p hp).go hstep rfl rfl (by simp [Proc.points,hpc]) (by simp) id)
  | @abort pid p hp hpc =>
    exact forall_put stay
      ((hi pid p hp).go hstep rfl rfl (by simp [Proc.points,hpc]) (by simp) id)
  | killed | signaled | forkFailed | interrupted | exit =>
    have hp := ‹s.procs _ = some _›
    exact forall_put stay ((hi _ _ hp).go hstep rfl rfl (by simp [Proc.points]) (by simp) id)

theorem orderly_reachable (hin : JoinsInOrder code start) (hS : S.code = forkJoin code)
    (horder : S.order = true) {root : Nat} {file : Heap}
    (h : Reachable (Step S) (initial root (start,[]) file) s) :
    ∀ q p, s.procs q = some p → Orderly code start s p := by
  refine h.invariant_within (fun t ht => sound_reachable ht) (fun q p hp => ?_)
    fun t a u hs hi hstep => orderly_step hin hS horder hstep hs hi
  have hpc := (initial_procs hp).2
  have hkin : p.elder = 0 ∧ p.predecessor = 0 := by
    by_cases hq : q = root
    · subst q
      simp only [initial,Function.update_self,Option.some.injEq] at hp
      subst hp
      exact ⟨rfl,rfl⟩
    · simp [initial,hq] at hp
  refine ⟨fun y hy => ?_,fun t k hw => (by cases hpc.symm.trans hw),fun ht => ?_⟩
  · obtain rfl : y = (start,[]) := by simpa [Proc.points,hpc] using hy
    exact ⟨⟨by simp [hkin],fun i c hi => by simp at hi⟩,0,.start,fun i hi => by simp at hi⟩
  · simp [Proc.touched,hpc] at ht

theorem elder_not_child (ht : s.tree.Ordered) {pid : Nat} (hp : s.procs pid = some p)
    {e : Proc (τ × List Nat)} (he : s.procs p.elder = some e) : e.parent ≠ pid := by
  intro hpar
  have hin := ht.inside pid p.kin p.elder e.kin (tree_kin hp) (tree_kin he) hpar
  exact absurd hin (not_le.mpr (ht.elder p.elder e.kin (tree_kin he)))

theorem Linked.elder_cases (h : Linked s p l) (ht : s.tree.Ordered) {pid : Nat}
    (hp : s.procs pid = some p) {i : ℕ} {c : Nat} {r e : Proc (τ × List Nat)}
    (hi : l[i]? = some c) (hc : s.procs c = some r) (he : s.procs r.elder = some e)
    (hpar : e.parent = pid) : ∃ j, i = j + 1 ∧ l[j]? = some r.elder := by
  obtain ⟨-,r',hr',helder⟩ := h.elder i c hi
  cases hc.symm.trans hr'
  cases i with
  | zero =>
    have hsame : p.elder = r.elder := by simpa using helder
    exact absurd hpar (elder_not_child ht hp (hsame ▸ he))
  | succ j => exact ⟨j,rfl,by simpa using helder⟩

/-- A process that waits for its own child has joined the child before that. -/
theorem reaped_of_waitsNext (ht : s.tree.Ordered)
    (hi : ∀ q p, s.procs q = some p → Orderly code start s p) {q : Nat}
    (h : s.WaitsNext q) : q ∈ s.reaped := by
  obtain ⟨r,P,d,rd,hr,hP,hPd,hrd,hpar,rfl⟩ := h
  have gathered {l : List Nat} {n i : ℕ} (hl : Linked s P l) (hg : s.Gathered l n)
      (hd : l[i]? = some d) (hn : i ≤ n) : rd.elder ∈ s.reaped := by
    obtain ⟨j,rfl,hj⟩ := hl.elder_cases ht hP hd hrd hr rfl
    obtain ⟨c,hc,hreap⟩ := hg j (by omega)
    cases hj.symm.trans hc
    exact hreap
  have hin := hi _ P hP
  obtain ⟨e,hpc,rfl⟩ | ⟨k,hpc⟩ := Proc.waitsFor_cases hPd
  · -- its latest child, in `AtomicCommit`
    obtain ⟨hl,-⟩ := hin.point P.cur (by simp [Proc.points,hpc])
    obtain ⟨n,hn,hg⟩ := hin.tight (by simp [Proc.touched,hpc])
    have hlast := hl.latest
    rw [List.getLastD_eq_getLast?,List.getLast?_eq_getElem?] at hlast
    cases hi : P.cur.2[P.cur.2.length - 1]? with
    | none =>
      have hsame : P.elder = P.predecessor := by simpa [hi] using hlast
      exact absurd hpar (elder_not_child ht hP (hsame ▸ hrd))
    | some c =>
      obtain rfl : c = P.predecessor := by simpa [hi] using hlast
      exact gathered hl hg hi (by omega)
  · obtain ⟨hl,i,n,hit,hin',-,hg⟩ := hin.waits d k hpc
    exact gathered hl hg hit hin'

theorem JoinsInOrder.not_deadlocked (hin : JoinsInOrder code start)
    (hS : S.code = forkJoin code) (horder : S.order = true) {root : Nat} (hroot : root ≠ 0)
    {file : Heap} (h : Reachable (Step S) (initial root (start,[]) file) s) (D : Set Nat) :
    ¬ s.Deadlocked D := by
  intro hD
  have ht := ordered_reachable horder hroot h
  obtain ⟨pid,q,hpolls,hnext⟩ := crossed_of_deadlocked (owned_forkJoin hS h) ht hD
  obtain ⟨p,r,-,-,-,-,hreap⟩ := hpolls
  exact hreap (reaped_of_waitsNext ht (orderly_reachable hin hS horder h) hnext)

end

/-- The ordered build completes every fork-join program that joins its threads in the order of
their creation, as `JoinsInOrder` has it, and whose code ends: no processes ever deadlock, and from
every state that a run can get to some run without failures of the system goes on to the end. -/
theorem ordered_completes (code : τ → Cmd τ) (S : System (τ × List Nat))
    (hS : S.code = forkJoin code) (horder : S.order = true) (hends : WellFounded (Follows code))
    (root : Nat) (hroot : root ≠ 0) (x : τ) (hin : JoinsInOrder code x) (file : Heap)
    (s : State (τ × List Nat)) (h : Reachable (Step S) (initial root (x,[]) file) s) :
    (∀ D, ¬ s.Deadlocked D) ∧ (S.Idle s → s.Over) ∧
    ∃ t, Reachable (Guarded (fun _ y => ¬ y.2.failure) (Step S)) s t ∧ t.Over := by
  have hfree : ∀ t, Reachable (Step S) (initial root (x,[]) file) t → ∀ D, ¬ t.Deadlocked D :=
    fun t ht => hin.not_deadlocked hS horder hroot ht
  exact ⟨hfree s h,over_of_idle hS h (hfree s h),completes hS hends hfree h⟩

theorem Halves.staged {x : Halves} {c n : ℕ} (h : Stage Halves.code .main x c n) : match x with
    | .main | .low | .high => c = 0
    | .second => c = 1
    | .joinFirst => c = 2
    | .joinSecond => c = 2 ∧ 1 ≤ n
    | .done => True := by
  induction h with
  | start => rfl
  | @load x _ _ _ _ _ _ hc ih => cases x <;> cases hc
  | @store x _ _ _ _ _ _ hc ih => cases x <;> cases hc <;> trivial
  | @child x _ _ _ _ _ hc ih => cases x <;> cases hc <;> rfl
  | @create x _ _ _ _ _ hc ih => cases x <;> cases hc <;> simp_all
  | @join x _ _ _ _ _ hc ih => cases x <;> cases hc <;> simp_all

theorem Halves.joinsInOrder : JoinsInOrder Halves.code .main := by
  intro x c n h
  have hx := Halves.staged h
  cases x <;> simp_all [Halves.code]

def orderedHalvesRun : List (Nat × Act) :=
  halvesRun.take 17 ++ commitActs 2 0x100000 ++ [(2,.exit),(1,.atomicBegin),(1,.atomicEnd),
    (1,.join),(1,.joined),(3,.waited),(3,.lock)]

theorem ordered_completes_halves : ∃ s,
    Reachable (Step (ordered Halves.code .adjacent true)) (initial 1 (.main,[]) fun _ => 0) s ∧
    s.rollbackCount = 1 ∧ ¬ s.Over ∧ (∀ D, ¬ s.Deadlocked D) ∧
    ∃ t, Reachable (Guarded (fun _ y => ¬ y.2.failure)
      (Step (ordered Halves.code .adjacent true))) s t ∧ t.Over := by
  obtain ⟨s,hs,hv⟩ := System.run_any (ordered Halves.code .adjacent true)
    (initial 1 (.main,[]) fun _ => 0) orderedHalvesRun
    (fun s => s.rollbackCount = 1 && (s.procs 3).any fun p => !p.pc.exited) (by decide +kernel)
  simp only [Bool.and_eq_true,decide_eq_true_eq,Option.any_eq_true,Bool.not_eq_true'] at hv
  obtain ⟨hr,p,hp,hlive⟩ := hv
  obtain ⟨hfree,-,hend⟩ := ordered_completes Halves.code (ordered Halves.code .adjacent true) rfl
    rfl Halves.wf_follows 1 (by decide) .main Halves.joinsInOrder (fun _ => 0) s hs
  exact ⟨s,hs,hr,fun h => absurd (h 3 p hp).1 (by simp [hlive]),hfree,hend⟩

end GThread
