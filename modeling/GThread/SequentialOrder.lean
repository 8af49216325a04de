import GThread.ForkJoin
import GThread.Serializability

/-! The ordered build against the sequential program in which every `pthread_create` is a
call. A process waits for its left neighbour only, and only before a transaction that
touched the heap. If no process exits ahead of its left neighbour the waits chain, commits
happen in the order of the calls, and what the threads still have to do, run one after another
in that order, always completes the sequential program. -/
namespace GThread
open Replay Transition Insertion
variable {τ : Type}

section Sequential
variable {code : τ → Cmd τ} {L : Layout}

/-- The sequential program: a created thread runs to its end at once, joins do nothing. -/
inductive Seq (code : τ → Cmd τ) : τ → Heap → Heap → Prop where
  | load {x a k h h'} : code x = .load a k → Seq code (k (h a)) h h' → Seq code x h h'
  | store {x a b k h h'} : code x = .store a b k → Seq code k (Function.update h a b) h' →
      Seq code x h h'
  | create {x f k h h₁ h'} : code x = .create f k → Seq code f h h₁ → Seq code k h₁ h' →
      Seq code x h h'
  | join {x i k h h'} : code x = .join i k → Seq code k h h' → Seq code x h h'
  | ret {x h} : code x = .ret → Seq code x h h

inductive Rest (code : τ → Cmd τ) : List τ → Heap → Heap → Prop where
  | nil {h} : Rest code [] h h
  | cons {x l h h₁ h'} : Seq code x h h₁ → Rest code l h₁ h' → Rest code (x :: l) h h'

theorem Seq.unique {x : τ} {h h₁ h₂ : Heap} (s₁ : Seq code x h h₁) (s₂ : Seq code x h h₂) :
    h₁ = h₂ := by
  induction s₁ generalizing h₂ with
  | load hc _ ih =>
    cases s₂ with
    | load hc' hs =>
      cases hc.symm.trans hc'
      exact ih hs
    | store hc' | create hc' | join hc' | ret hc' => cases hc.symm.trans hc'
  | store hc _ ih =>
    cases s₂ with
    | store hc' hs =>
      cases hc.symm.trans hc'
      exact ih hs
    | load hc' | create hc' | join hc' | ret hc' => cases hc.symm.trans hc'
  | create hc _ _ ihf ihk =>
    cases s₂ with
    | create hc' hf hk =>
      cases hc.symm.trans hc'
      obtain rfl := ihf hf
      exact ihk hk
    | load hc' | store hc' | join hc' | ret hc' => cases hc.symm.trans hc'
  | join hc _ ih =>
    cases s₂ with
    | join hc' hs =>
      cases hc.symm.trans hc'
      exact ih hs
    | load hc' | store hc' | create hc' | ret hc' => cases hc.symm.trans hc'
  | ret hc =>
    cases s₂ with
    | ret => rfl
    | load hc' | store hc' | create hc' | join hc' => cases hc.symm.trans hc'

theorem Rest.append {l₁ l₂ : List τ} {h h' : Heap} :
    Rest code (l₁ ++ l₂) h h' ↔ ∃ g, Rest code l₁ h g ∧ Rest code l₂ g h' := by
  induction l₁ generalizing h with
  | nil =>
    constructor
    · exact fun hr => ⟨h,.nil,hr⟩
    · intro hg
      obtain ⟨g,hn,hr⟩ := hg
      cases hn
      exact hr
  | cons x l₁ ih =>
    constructor
    · intro hr
      cases hr with
      | cons hx hr =>
        obtain ⟨g,h₁,h₂⟩ := ih.mp hr
        exact ⟨g,.cons hx h₁,h₂⟩
    · intro hg
      obtain ⟨g,hc,hr⟩ := hg
      cases hc with
      | cons hx h₁ => exact .cons hx (ih.mpr ⟨g,h₁,hr⟩)

theorem Instr.op_load {σ : Type} {i : Instr σ} {a : Nat} {k : Byte → σ}
    (h : i.op = .load a k) : i = .load a k := by
  cases i <;> cases h
  rfl

theorem Instr.op_store {σ : Type} {i : Instr σ} {a : Nat} {b : Byte} {k : σ}
    (h : i.op = .store a b k) : i = .store a b k := by
  cases i <;> cases h
  rfl

theorem Seq.of_exec {x y : τ × List Nat} {h g h' : Heap} {l : List (Access Nat Byte)}
    (he : Exec (ordered code L true).op x h l y g) (hs : Seq code y.1 g h') :
    Seq code x.1 h h' := by
  induction he generalizing h' with
  | nil => exact hs
  | load _ ho ih =>
    obtain ⟨k',hk,hk'⟩ := forkJoin_load (Instr.op_load ho)
    rw [hk'] at hs
    exact ih (.load hk hs)
  | store _ ho ih =>
    obtain ⟨k',hk,rfl⟩ := forkJoin_store (Instr.op_store ho)
    exact ih (.store hk hs)

def Proc.residual (p : Proc (τ × List Nat)) : List τ :=
  match p.pc with
  | .atomicBegin c => [c.next.1]
  | .run | .waitPred _ | .lock _ | .abort => [p.context.next.1]
  | .commit _ _ | .copy _ _ _ | .ended _ => [p.cur.1]
  | .wait _ k => [k.1]
  | .zombie _ => []

def State.residual (s : State (τ × List Nat)) (q : Nat) : List τ :=
  match s.procs q with
  | some p => p.residual
  | none => []

def State.residuals (s : State (τ × List Nat)) : List τ := s.order.flatMap s.residual

/-- The condition of the order: no error exits, and no exit ahead of the left neighbour. -/
def System.InOrder {σ : Type} (S : System σ) (s : State σ) (x : Nat × Act) : Prop :=
  ∀ p, s.procs x.1 = some p → match x.2 with
    | .exit => p.predecessor = 0 ∨ ∃ r, s.procs p.predecessor = some r ∧ r.pc.exited = true
    | .fault => ∀ a, S.faultAddr p = some a → S.layout.InHeap a
    | .signaled | .interrupted | .forkFailed => False
    | _ => True

section Order
variable {σ : Type} {S : System σ} {s s' : State σ} {x : Nat × Act}

/-- Whatever is left of an exited process has exited, and a process past its wait has an
exited left neighbour or none. -/
structure Chained (s : State σ) : Prop where
  left : ∀ q, s.Exited q → ∀ r, (∃ p, s.procs r = some p) → s.tree.pos r < s.tree.pos q →
    s.Exited r
  neighbour : ∀ q p, s.procs q = some p → p.pc.pastWait →
    p.predecessor = 0 ∨ s.Exited p.predecessor

theorem Chained.before (h : Chained s) (ht : s.tree.Ordered) {q : Nat} {p : Proc σ}
    (hp : s.procs q = some p) (hn : p.predecessor = 0 ∨ s.Exited p.predecessor) {r : Nat}
    (hr : ∃ p, s.procs r = some p) (hlt : s.tree.pos r < s.tree.pos q) : s.Exited r := by
  have hleft := ht.neighbour q p.kin (tree_kin hp)
  obtain ⟨pr,hpr⟩ := hr
  have hmem := ht.present (tree_kin hpr)
  obtain h0 | he := hn
  · have hzero := s.tree.pos_zero
    simp only [Proc.kin,h0] at hleft
    have : r = 0 := Tree.pos_inj (.inr hmem) (show s.tree.pos r = s.tree.pos 0 by omega)
    exact absurd this (ht.ne_zero (tree_kin hpr))
  · simp only [Proc.kin] at hleft
    by_cases heq : s.tree.pos r = s.tree.pos p.predecessor
    · rwa [Tree.pos_inj (.inr hmem) heq]
    · exact h.left _ he r ⟨pr,hpr⟩ (by omega)

theorem exit_step (h : Step S s x s') (hin : S.InOrder s x) {q : Nat} (hq : s'.Exited q) :
    s.Exited q ∨ x = (q,.exit) := by
  obtain ⟨r,hr,he⟩ := hq
  have stay : ∀ q r, s.procs q = some r → r.pc.exited = true → s.Exited q ∨ x = (q,.exit) :=
    fun q r hr he => .inl ⟨r,hr,he⟩
  suffices hall : ∀ q r, s'.procs q = some r → r.pc.exited = true →
      s.Exited q ∨ x = (q,.exit) from hall q r hr he
  cases h with
  | killed hp hpc ha hf =>
    obtain ⟨t,ht⟩ := segfaultHandler_inHeap _ (hin _ hp _ ha)
    cases hf.symm.trans ht
  | interrupted hp => exact (hin _ hp).elim
  | signaled hp => exact (hin _ hp).elim
  | forkFailed hp => exact (hin _ hp).elim
  | exit hp hpc => exact forall_put stay fun _ => .inr rfl
  | memcpy | reap => exact stay
  | atomicEnd hp hpc he =>
    refine forall_put stay fun he => ?_
    unfold Proc.atomicEnd at he
    split at he <;> simp [PC.exited] at he
  | waited _ _ hw | joined _ _ hw =>
    obtain ⟨rfl,-⟩ | ⟨rfl,-⟩ := waitExited_spec hw <;>
    exact forall_put stay fun he => by simp [PC.exited] at he
  | @fork pid p e child f c hp hpc hf hc hn =>
    exact forall_fork stay (fun he => by simp [PC.exited] at he)
      fun he => by simp [PC.exited] at he
  | load hp hpc | store hp hpc | fault hp hpc =>
    exact forall_put stay fun he => by simp [PC.exited,hpc] at he
  | _ => exact forall_put stay fun he => by simp [PC.exited,Proc.atomicBegin] at he

theorem exited_fork_lt (ht : s.tree.Ordered) {pid child : Nat} {p : Proc σ}
    (hp : s.procs pid = some p) (hlive : p.pc.exited = false) (hc : child ≠ 0)
    (hn : s.procs child = none)
    (hleft : ∀ q, s.Exited q → ∀ r, (∃ p, s.procs r = some p) →
      s.tree.pos r < s.tree.pos q → s.Exited r) {q r : Nat} (hq : s.Exited q)
    (hlt : (s.tree.fork pid child p.kin).pos r < (s.tree.fork pid child p.kin).pos q) :
    r ≠ child ∧ s.tree.pos r < s.tree.pos q := by
  have hnone : s.tree.kin child = none := by simp [State.tree,hn]
  obtain ⟨pq,hpq,he⟩ := hq
  have hqc : q ≠ child := Processes.ne_of_none hpq hn
  have hqlt : s.tree.pos q < s.tree.pos pid := by
    have hne : s.tree.pos pid ≠ s.tree.pos q := by
      intro heq
      obtain rfl := Tree.pos_inj (.inr (ht.present (tree_kin hp))) heq
      cases hp.symm.trans hpq
      simp [hlive] at he
    by_contra hge
    obtain ⟨p',hp',he'⟩ := hleft q ⟨pq,hpq,he⟩ pid ⟨p,hp⟩ (by omega)
    cases hp.symm.trans hp'
    simp [hlive] at he'
  rw [ht.fork_pos (tree_kin hp) hqc,if_pos hqlt] at hlt
  have hrc : r ≠ child := by
    intro heq
    subst heq
    rw [ht.fork_pos_child (tree_kin hp) hc hnone] at hlt
    omega
  refine ⟨hrc,?_⟩
  rw [ht.fork_pos (tree_kin hp) hrc] at hlt
  split at hlt <;> omega

theorem chained_step (horder : S.order = true) (h : Step S s x s') (hin : S.InOrder s x)
    (hr : s.ReapedExited) (ht : s.tree.Ordered) (hc : Chained s) : Chained s' := by
  refine ⟨?_,?_⟩
  · intro q hq r hex hlt
    obtain he | ⟨pid,child,p,rfl,hp,hc0,hn,he⟩ := tree_step horder h
    · have hex : ∃ p, s.procs r = some p := by
        obtain ⟨p,hp⟩ := hex
        obtain ⟨p₀,hp₀,-⟩ := tree_kin_inv (he ▸ tree_kin hp)
        exact ⟨p₀,hp₀⟩
      rw [he] at hlt
      refine exited_mono h ?_
      obtain hq | rfl := exit_step h hin hq
      · exact hc.left q hq r hex hlt
      · obtain ⟨p,hp,-⟩ := actor_step h
        exact hc.before ht hp (hin p hp) hex hlt
    · have hq := (exit_step h hin hq).resolve_right fun hx => nomatch hx
      have hlive : p.pc.exited = false := by
        cases h with
        | fork hp' hpc =>
          cases hp.symm.trans hp'
          rw [hpc]
          rfl
      rw [he] at hlt
      obtain ⟨hrc,hlt⟩ := exited_fork_lt ht hp hlive hc0 hn hc.left hq hlt
      obtain ⟨p',hp'⟩ := hex
      obtain ⟨rfl,-⟩ | ⟨-,k,hk,-⟩ := Tree.fork_kin (tree_kin hp) (he ▸ tree_kin hp')
      · exact absurd rfl hrc
      · obtain ⟨p₀,hp₀,-⟩ := tree_kin_inv hk
        exact exited_mono h (hc.left q hq r ⟨p₀,hp₀⟩ hlt)
  · intro q p' hp' hw
    obtain ⟨p,hp,hpred,hw | hn⟩ := pastWait_step h hr (fun q p hp =>
      (predecessor_exists ht hp).imp_right Option.ne_none_iff_exists'.mpr) q p' hp' hw
    · rw [hpred]
      exact (hc.neighbour q p hp hw).imp_right (exited_mono h)
    · rw [hpred]
      exact hn.imp_right (exited_mono h)

end Order

theorem Rest.mono {l : List Nat} {f g : Nat → List τ} {h h' : Heap}
    (hfg : ∀ q ∈ l, ∀ h h', Rest code (f q) h h' → Rest code (g q) h h')
    (hr : Rest code (l.flatMap f) h h') : Rest code (l.flatMap g) h h' := by
  induction l generalizing h with
  | nil => exact hr
  | cons q l ih =>
    simp only [List.flatMap_cons] at hr ⊢
    obtain ⟨m,hq,hl⟩ := Rest.append.mp hr
    exact Rest.append.mpr ⟨m,hfg q List.mem_cons_self _ _ hq,
      ih (fun r hr => hfg r (List.mem_cons_of_mem _ hr)) hl⟩

theorem Rest.single {x : τ} {h h' : Heap} : Rest code [x] h h' ↔ Seq code x h h' := by
  constructor
  · intro hr
    cases hr with
    | cons hx hn =>
      cases hn
      exact hx
  · exact fun hx => .cons hx .nil

def Ahead (code : τ → Cmd τ) (L : Layout) (x : τ) (file : Heap) (s : State (τ × List Nat)) : Prop :=
  ∀ H, Serial (ordered code L true).op file (s.txs.map Tx.span) H →
    ∀ h', Rest code s.residuals H h' → Seq code x file h'

section Residuals
variable {s s' : State (τ × List Nat)} {x : τ} {file : Heap}

theorem residual_of {q : Nat} {p : Proc (τ × List Nat)} (hp : s.procs q = some p) :
    s.residual q = p.residual := by simp [State.residual,hp]

theorem order_split (ht : s.tree.Ordered) {pid : Nat} {p : Proc (τ × List Nat)}
    (hp : s.procs pid = some p) : ∃ pre post, s.order = pre ++ pid :: post ∧ pid ∉ pre ∧
      pid ∉ post ∧ ∀ q ∈ pre, (∃ p, s.procs q = some p) ∧ s.tree.pos q < s.tree.pos pid := by
  have hord : ∃ pre post, s.order = pre ++ pid :: post ∧ pid ∉ pre :=
    List.eq_append_cons_of_mem (ht.present (tree_kin hp))
  obtain ⟨pre,post,hord,hpre⟩ := hord
  have hnd : (pre ++ pid :: post).Nodup := hord ▸ (List.nodup_cons.mp ht.nodup).2
  have hzero : pid ∉ 0 :: pre := fun hmem =>
    (List.mem_cons.mp hmem).elim (ht.ne_zero (tree_kin hp)) hpre
  refine ⟨pre,post,hord,hpre,(List.nodup_cons.mp (List.nodup_append.mp hnd).2.1).1,?_⟩
  intro q hq
  have hmem : q ∈ s.order := hord ▸ List.mem_append_left _ hq
  obtain ⟨k,hk⟩ := (ht.mem q).mp hmem
  obtain ⟨pq,hpq,-⟩ := tree_kin_inv hk
  have hlt := idxOf_lt_of_append post (List.mem_cons_of_mem 0 hq) hzero
  rw [List.cons_append,← hord] at hlt
  exact ⟨⟨pq,hpq⟩,hlt⟩

theorem Ahead.advance (h : Ahead code L x file s) {pid : Nat} {r p : Proc (τ × List Nat)}
    (hr : s.procs pid = some r) (procs : s'.procs = Function.update s.procs pid (some p))
    (order : s'.order = s.order) (txs : s'.txs = s.txs)
    (residual : ∀ h h', Rest code p.residual h h' → Rest code r.residual h h') :
    Ahead code L x file s' := by
  intro H hser h' hrest
  refine h H (txs ▸ hser) h' ?_
  rw [State.residuals,order] at hrest
  refine Rest.mono (fun q _ h h' hq => ?_) hrest
  by_cases hqp : q = pid
  · subst q
    rw [residual_of hr]
    exact residual h h' (by rwa [residual_of (p := p) (by simp [procs])] at hq)
  · simpa [State.residual,procs,hqp] using hq

/-- What a process did in its transaction comes first in what is left to do. -/
theorem Ahead.commit (h : Ahead code L x file s) (ht : s.tree.Ordered) {pid : Nat}
    {r p : Proc (τ × List Nat)} (hr : s.procs pid = some r)
    (procs : s'.procs = Function.update s.procs pid (some p)) (order : s'.order = s.order)
    {tx : Tx (τ × List Nat)} (txs : s'.txs = tx :: s.txs)
    (first : ∀ q, (∃ p, s.procs q = some p) → s.tree.pos q < s.tree.pos pid → s.Exited q)
    (start : r.residual = [tx.span.start.1]) (stop : p.residual = [tx.span.stop.1]) :
    Ahead code L x file s' := by
  obtain ⟨pre,post,hord,hpre,hpost,hleft⟩ := order_split ht hr
  have hdone : ∀ q ∈ pre, s.residual q = [] := by
    intro q hq
    obtain ⟨hex,hlt⟩ := hleft q hq
    obtain ⟨z,hz,he⟩ := first q hex hlt
    obtain ⟨e,he⟩ := PC.exited_iff.mp he
    simp [residual_of hz,Proc.residual,he]
  have others : ∀ q, q ≠ pid → s'.residual q = s.residual q := by
    intro q hq
    simp [State.residual,procs,hq]
  have hs : s.residuals = tx.span.start.1 :: post.flatMap s.residual := by
    rw [State.residuals,hord,List.flatMap_append,List.flatMap_eq_nil_iff.mpr hdone,
      List.flatMap_cons,residual_of hr,start]
    rfl
  have hs' : s'.residuals = tx.span.stop.1 :: post.flatMap s.residual := by
    have hsame : ∀ q ∈ pre, s'.residual q = [] := fun q hq =>
      (others q fun h => hpre (h ▸ hq)).trans (hdone q hq)
    have hp : s'.procs pid = some p := by simp [procs]
    rw [State.residuals,order,hord,List.flatMap_append,List.flatMap_eq_nil_iff.mpr hsame,
      List.flatMap_cons,residual_of hp,stop,
      List.flatMap_congr fun q hq => others q fun h => hpost (h ▸ hq)]
    rfl
  intro H hser h' hrest
  rw [txs] at hser
  rw [hs'] at hrest
  cases hser with
  | cons hser hexec _ =>
    cases hrest with
    | cons hx hrest => exact h _ hser h' (hs ▸ .cons (Seq.of_exec hexec hx) hrest)

theorem Ahead.fork (h : Ahead code L x file s) (ht : s.tree.Ordered) {pid child : Nat}
    {r p c : Proc (τ × List Nat)} (hr : s.procs pid = some r) (hn : s.procs child = none)
    (procs : s'.procs = Function.update (Function.update s.procs pid (some p)) child (some c))
    (order : s'.order = insertBefore pid child s.order) (txs : s'.txs = s.txs)
    (residual : ∀ h h', Rest code (c.residual ++ p.residual) h h' → Rest code r.residual h h') :
    Ahead code L x file s' := by
  obtain ⟨pre,post,hord,hpre,hpost,-⟩ := order_split ht hr
  have hpc : pid ≠ child := Processes.ne_of_none hr hn
  have hfresh : child ∉ pre ∧ child ∉ post := by
    have hmem : child ∉ s.order := fun hc => by
      obtain ⟨k,hk⟩ := (ht.mem child).mp hc
      obtain ⟨z,hz,-⟩ := tree_kin_inv hk
      cases hn.symm.trans hz
    rw [hord] at hmem
    exact ⟨fun h => hmem (List.mem_append_left _ h),
      fun h => hmem (List.mem_append_right _ (List.mem_cons_of_mem _ h))⟩
  have others : ∀ q, q ≠ pid → q ≠ child → s'.residual q = s.residual q := by
    intro q hq hqc
    simp [State.residual,procs,hq,hqc]
  have hp : s'.procs pid = some p := by simp [procs,hpc]
  have hc : s'.procs child = some c := by simp [procs]
  intro H hser h' hrest
  refine h H (txs ▸ hser) h' ?_
  have hleft : pre.flatMap s'.residual = pre.flatMap s.residual := List.flatMap_congr fun q hq =>
    others q (fun h => hpre (h ▸ hq)) fun h => hfresh.1 (h ▸ hq)
  have hright : post.flatMap s'.residual = post.flatMap s.residual :=
    List.flatMap_congr fun q hq => others q (fun h => hpost (h ▸ hq)) fun h => hfresh.2 (h ▸ hq)
  rw [State.residuals,order,hord,insertBefore_append _ _ hpre,List.flatMap_append,
    List.flatMap_cons,List.flatMap_cons,residual_of hp,residual_of hc,
    ← List.append_assoc c.residual,hleft,hright] at hrest
  rw [State.residuals,hord,List.flatMap_append,List.flatMap_cons,residual_of hr]
  obtain ⟨g,hg,hrest⟩ := Rest.append.mp hrest
  obtain ⟨g',hg',hrest⟩ := Rest.append.mp hrest
  exact Rest.append.mpr ⟨g,hg,Rest.append.mpr ⟨g',residual _ _ hg',hrest⟩⟩

theorem untouched_cur {S : System (τ × List Nat)} (hs : Sound S s) (hser : Serialized S file s)
    {pid : Nat} {p : Proc (τ × List Nat)} (hp : s.procs pid = some p) (ho : p.pc.open)
    (he : p.readSetVersion = ∅) : p.cur = p.context.next := by
  have hlog : p.log = [] := List.eq_nil_iff_forall_not_mem.mpr fun a ha => by
    have hmem := ((hs.each pid p hp).tracked ho.active).logged a ha
    exact Finmap.notMem_empty (he ▸ hmem)
  have halone := (hser.attempt pid p hp ho fun tx _ page _ hr =>
    Finmap.notMem_empty (he ▸ hr)).exec
  rw [hlog] at halone
  exact halone.nil_inv.1

theorem ahead_step {y : Nat × Act} (h : Step (ordered code L true) s y s')
    (hin : (ordered code L true).InOrder s y) (hs : Sound (ordered code L true) s)
    (hser : Serialized (ordered code L true) file s) (ht : s.tree.Ordered) (hc : Chained s)
    (ha : Ahead code L x file s) : Ahead code L x file s' := by
  have same {pid : Nat} {r p : Proc (τ × List Nat)} {s' : State (τ × List Nat)}
      (hr : s.procs pid = some r) (procs : s'.procs = Function.update s.procs pid (some p))
      (order : s'.order = s.order) (txs : s'.txs = s.txs) (he : p.residual = r.residual) :
      Ahead code L x file s' :=
    ha.advance hr procs order txs fun _ _ hrest => he ▸ hrest
  cases h with
  | atomicBegin hp hpc => exact same hp rfl rfl rfl (by simp [Proc.residual,hpc,Proc.atomicBegin])
  | load hp hpc | store hp hpc | fault hp hpc =>
    exact same hp rfl rfl rfl (by simp [Proc.residual,hpc])
  | killed hp hpc haddr hf =>
    obtain ⟨t,ht⟩ := segfaultHandler_inHeap _ (hin _ hp _ haddr)
    cases hf.symm.trans ht
  | @atomicEnd pid p e hp hpc he =>
    unfold Proc.atomicEnd
    split
    · rename_i hempty
      have hcur := untouched_cur hs hser hp (by rw [hpc]; trivial) hempty.1
      exact same hp rfl rfl rfl (by simp [Proc.residual,hpc,hcur])
    · exact same hp rfl rfl rfl (by simp [Proc.residual,hpc])
  | waited hp hpc hw =>
    obtain ⟨rfl,-⟩ | ⟨rfl,-⟩ := waitExited_spec hw <;>
    exact same hp rfl rfl rfl (by simp [Proc.residual,hpc])
  | @commit pid p e hp hpc hm hcons =>
    exact ha.commit ht hp rfl rfl rfl
      (fun q hex hlt => hc.before ht hp (hc.neighbour pid p hp (by rw [hpc]; trivial)) hex hlt)
      (by simp [Proc.residual,hpc]) rfl
  | @reject pid p e hp hpc =>
    exact same (p := { p with pc := .abort }) hp rfl rfl rfl (by simp [Proc.residual,hpc])
  | page hp hpc => exact same hp rfl rfl rfl (by simp [Proc.residual,hpc])
  | memcpy | reap => exact ha
  | @publish pid p e todo page v hp hpc =>
    exact same (p := { p with pc := .commit e todo }) hp rfl rfl rfl
      (by simp [Proc.residual,hpc])
  | @unlock pid p e hp hpc =>
    exact same (p := { p with
      toAttempt := p.toAttempt.updateHeap s.past.length
      pc := .ended e }) hp rfl rfl rfl (by simp [Proc.residual,hpc])
  | abort hp hpc => exact same hp rfl rfl rfl (by simp [Proc.residual,hpc])
  | @fork pid p e child f c hp hpc hf hc0 hn =>
    obtain ⟨f',k,hk,rfl⟩ | ⟨i,k,-,rfl⟩ | ⟨-,rfl⟩ :=
      endOf_ordered ((hs.each pid p hp).ending e (by rw [hpc]; rfl))
    · simp only [End.fork,Option.some.injEq,Prod.mk.injEq] at hf
      obtain ⟨rfl,rfl⟩ := hf
      refine ha.fork ht hp hn rfl rfl rfl fun h h' hrest => ?_
      simp only [Proc.residual,hpc] at hrest ⊢
      cases hrest with
      | cons hf hrest => exact Rest.single.mpr (.create hk hf (Rest.single.mp hrest))
    · cases hf
    · cases hf
  | signaled hp => exact (hin _ hp).elim
  | forkFailed hp => exact (hin _ hp).elim
  | @join pid p t k hp hpc =>
    obtain ⟨f',k',-,he⟩ | ⟨i,k',hk,he⟩ | ⟨-,he⟩ :=
      endOf_ordered ((hs.each pid p hp).ending _ (by rw [hpc]; rfl)) <;> cases he
    refine ha.advance hp rfl rfl rfl fun h h' hrest => ?_
    simp only [Proc.residual,hpc] at hrest ⊢
    exact Rest.single.mpr (.join hk (Rest.single.mp hrest))
  | joined hp hpc hw =>
    obtain ⟨rfl,-⟩ | ⟨rfl,-⟩ := waitExited_spec hw <;>
    exact same hp rfl rfl rfl (by simp [Proc.residual,hpc])
  | interrupted hp => exact (hin _ hp).elim
  | @exit pid p hp hpc =>
    obtain ⟨f',k',-,he⟩ | ⟨i,k',-,he⟩ | ⟨hk,-⟩ :=
      endOf_ordered ((hs.each pid p hp).ending _ (by rw [hpc]; rfl))
    · cases he
    · cases he
    · refine ha.advance hp rfl rfl rfl fun h h' hrest => ?_
      simp only [Proc.residual,hpc] at hrest ⊢
      cases hrest
      exact Rest.single.mpr (.ret hk)

end Residuals

theorem chained_initial {σ : Type} (root : Nat) (x : σ) (file : Heap) :
    Chained (initial root x file) := by
  refine ⟨?_,?_⟩
  · intro q hq
    obtain ⟨p,hp,he⟩ := hq
    simp [(initial_procs hp).2,PC.exited] at he
  · intro q p hp hw
    simp [(initial_procs hp).2,PC.pastWait] at hw

theorem ahead_initial (code : τ → Cmd τ) (L : Layout) (root : Nat) (x : τ) (file : Heap) :
    Ahead code L x file (initial root (x,[]) file) := by
  intro H hser h' hrest
  cases hser
  have hres : (initial root (x,[]) file).residuals = [x] := by
    simp [State.residuals,State.residual,initial,Proc.residual]
  exact Rest.single.mp (hres ▸ hrest)

/-- The order of the sequential program. In a run in order every process to the left of one
that validates or commits has exited, so that nothing is left of it to commit; and the run
ends, if it ends, with the heap of the sequential program. -/
theorem sequential_order (code : τ → Cmd τ) (L : Layout) (root : Nat) (hroot : root ≠ 0)
    (x : τ) (file : Heap) (s : State (τ × List Nat))
    (h : Reachable (Guarded (ordered code L true).InOrder (Step (ordered code L true)))
      (initial root (x,[]) file) s) :
    (∀ pid p, s.procs pid = some p → p.pc.pastWait → ∀ q r, s.procs q = some r →
      s.tree.pos q < s.tree.pos pid → r.pc.exited = true) ∧
    ((∀ q r, s.procs q = some r → r.pc.exited = true) →
      ∀ H, Seq code x file H ↔ H = s.now.bytes) := by
  have hr := h.forget
  have ht := ordered_reachable rfl hroot hr
  have inv : Chained s ∧ Ahead code L x file s := by
    refine h.invariant_within (J := fun t => Reachable (Step (ordered code L true))
        (initial root (x,[]) file) t) (I := fun t => Chained t ∧ Ahead code L x file t)
      (fun t ht => ht.forget) ⟨chained_initial root (x,[]) file,ahead_initial code L root x file⟩
      fun t a u hr ⟨hc,ha⟩ ⟨hin,hstep⟩ => ?_
    have ht := ordered_reachable rfl hroot hr
    exact ⟨chained_step rfl hstep hin (reapedExited_reachable hr) ht hc,
      ahead_step hstep hin (sound_reachable hr) (serialized_reachable rfl hr) ht hc ha⟩
  obtain ⟨hc,ha⟩ := inv
  refine ⟨?_,?_⟩
  · intro pid p hp hw q r hq hlt
    obtain ⟨r',hr',he⟩ := hc.before ht hp (hc.neighbour pid p hp hw) ⟨r,hq⟩ hlt
    cases hq.symm.trans hr'
    exact he
  · intro hall
    have hnil : s.residuals = [] := List.flatMap_eq_nil_iff.mpr fun q _ => by
      cases hq : s.procs q with
      | none => simp [State.residual,hq]
      | some p =>
        obtain ⟨e,he⟩ := PC.exited_iff.mp (hall q p hq)
        simp [residual_of hq,Proc.residual,he]
    have hfree : s.mutex = none := by
      cases hm : s.mutex with
      | none => rfl
      | some q =>
        obtain ⟨p,hp,hcom⟩ := (sound_reachable hr).versions.holder q hm
        obtain ⟨e,he⟩ := PC.exited_iff.mp (hall q p hp)
        simp [he,PC.committing] at hcom
    have hseq : Seq code x file s.now.bytes :=
      ha _ ((serialized_reachable rfl hr).idle hfree) _ (hnil ▸ .nil)
    exact fun H => ⟨fun hH => hH.unique hseq,fun hH => hH ▸ hseq⟩

end Sequential

/-- The main program creates a thread that stores 1 and one that touches nothing, stores 2 to
the same byte, and joins both. -/
inductive Late where
  | main
  | second
  | own
  | joinFirst
  | joinSecond
  | worker
  | done

def Late.code : Late → Cmd Late
  | .main => .create .worker .second
  | .second => .create .done .own
  | .own => .store 0x100000 2 .joinFirst
  | .joinFirst => .join 0 .joinSecond
  | .joinSecond => .join 1 .done
  | .worker => .store 0x100000 1 .done
  | .done => .ret

def late : System (Late × List Nat) := ordered Late.code .adjacent true

def lateStart : List (Nat × Act) :=
  [(1,.atomicBegin),(1,.atomicEnd),(1,.fork 2),(1,.atomicBegin),(1,.atomicEnd),(1,.fork 3)]

def lateEnd : List (Nat × Act) :=
  [(1,.joined),(1,.atomicBegin),(1,.atomicEnd),(1,.join),(1,.joined),(1,.atomicBegin),
    (1,.atomicEnd),(1,.exit)]

def System.inOrder {σ : Type} (S : System σ) (s : State σ) (x : Nat × Act) : Bool :=
  (s.procs x.1).all fun p => match x.2 with
    | .exit => p.predecessor = 0 || (s.procs p.predecessor).any fun r => r.pc.exited
    | .fault => (S.faultAddr p).all fun a => decide (S.layout.InHeap a)
    | .signaled | .interrupted | .forkFailed => false
    | _ => true

theorem System.inOrder_meets {σ : Type} (S : System σ) (s : State σ) (x : Nat × Act)
    (h : S.inOrder s x = true) : S.InOrder s x := by
  intro p hp
  obtain ⟨pid,act⟩ := x
  simp only [System.inOrder,hp,Option.all_some] at h
  cases act with
  | exit =>
    simpa only [Bool.or_eq_true,decide_eq_true_eq,Option.any_eq_true] using h
  | fault =>
    intro a ha
    simpa [ha] using h
  | signaled | interrupted | forkFailed => simp at h
  | _ => trivial

theorem all_exited {s : State (τ × List Nat)} (ht : s.tree.Ordered)
    (h : (s.order.all fun q => (s.procs q).any fun p => p.pc.exited) = true) :
    ∀ q r, s.procs q = some r → r.pc.exited = true := by
  intro q r hq
  have hmem : q ∈ s.order := ht.present (tree_kin hq)
  simpa [hq] using List.all_eq_true.mp h q hmem

/-- The threads exit in the order of their creation. -/
theorem sequential_order_late : ∃ s : State (Late × List Nat),
    (∀ q r, s.procs q = some r → r.pc.exited = true) ∧ s.txs.length = 2 ∧
    s.now.bytes 0x100000 = 2 ∧ ∀ H, Seq Late.code .main (fun _ => 0) H ↔ H = s.now.bytes := by
  have hrun : (execute (guarded late.inOrder late.step) (initial 1 (.main,[]) fun _ => 0)
      (lateStart ++ storeActs 2 ++ [(2,.exit),(3,.atomicBegin),(3,.atomicEnd),(3,.exit)] ++
        storeActs 1 ++ [(1,.join)] ++ lateEnd)).any
      (fun s => (s.order.all fun q => (s.procs q).any fun p => p.pc.exited) &&
        s.txs.length = 2 && s.now.bytes 0x100000 = 2) = true := by decide +kernel
  obtain ⟨s,hr,hv⟩ := execute_any (guarded_sound late.inOrder_meets late.step_sound) hrun
  simp only [Bool.and_eq_true,decide_eq_true_eq] at hv
  obtain ⟨⟨hall,htxs⟩,hb⟩ := hv
  have hall := all_exited (ordered_reachable rfl (by decide) hr.forget) hall
  exact ⟨s,hall,htxs,hb,(sequential_order Late.code .adjacent 1 (by decide) .main (fun _ => 0) s
    hr).2 hall⟩

/-- The second thread exits at once, ahead of the first; the main program waits for the second
only and commits before the first. The first byte of the heap ends up 1, not 2. -/
theorem sequential_order_fails : ∃ s, Reachable (Step late) (initial 1 (.main,[]) fun _ => 0) s ∧
    (∀ q r, s.procs q = some r → r.pc.exited = true) ∧ s.now.bytes 0x100000 = 1 ∧
    ∃ H, Seq Late.code .main (fun _ => 0) H ∧ H 0x100000 = 2 := by
  obtain ⟨s,hs,hv⟩ := System.run_any late (initial 1 (.main,[]) fun _ => 0)
    (lateStart ++ [(3,.atomicBegin),(3,.atomicEnd),(3,.exit)] ++ storeActs 1 ++
      [(1,.join)] ++ storeActs 2 ++ [(2,.exit)] ++ lateEnd)
    (fun s => (s.order.all fun q => (s.procs q).any fun p => p.pc.exited) &&
      s.now.bytes 0x100000 = 1) (by decide +kernel)
  simp only [Bool.and_eq_true,decide_eq_true_eq] at hv
  obtain ⟨hall,hb⟩ := hv
  have hseq : Seq Late.code .main (fun _ => 0)
      (Function.update (Function.update (fun _ => 0) 0x100000 1) 0x100000 2) :=
    .create rfl (.store rfl (.ret rfl)) (.create rfl (.ret rfl)
      (.store rfl (.join rfl (.join rfl (.ret rfl)))))
  exact ⟨s,hs,all_exited (ordered_reachable rfl (by decide) hs) hall,hb,_,hseq,by simp⟩

end GThread
