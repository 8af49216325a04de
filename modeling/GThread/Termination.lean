import GThread.JoinedWork
import GThread.Rollbacks
import GThread.Opacity
import GThread.Library.Descent

/-! No livelock. If the code of the program ends, whatever its loads return, then rollbacks,
faults, waits and commits cannot go on forever, in any build and under any scheduler: an attempt
is rejected only if a transaction was validated since it began, and the program has only so many
transactions. -/
namespace GThread
open Replay Transition Relation Descent
variable {σ : Type}

def System.Next (S : System σ) (y x : σ) : Prop :=
  match S.code x with
  | .load _ k => ∃ b, y = k b
  | .store _ _ k => y = k
  | .create f k | .pthreadCreate f k => y = f ∨ ∃ c, y = k c
  | .join _ k | .pthreadJoin _ k => y = k
  | .ret => False

theorem System.next_load {S : System σ} {x : σ} {a : Nat} {k : Byte → σ}
    (h : S.code x = .load a k) (b : Byte) : S.Next (k b) x := by
  simp [System.Next,h]

theorem System.next_store {S : System σ} {x k : σ} {a : Nat} {b : Byte}
    (h : S.code x = .store a b k) : S.Next k x := by
  simp [System.Next,h]

theorem System.next_of_resumes {S : System σ} {x y : σ} (h : S.Resumes x y) : S.Next y x := by
  unfold System.Resumes at h
  unfold System.Next
  split at h <;> simp_all

theorem System.next_of_fork {S : System σ} {p : Proc σ} {e : End σ} {f : σ} {c : Nat → Context σ}
    (he : S.endOf p = some e) (hf : e.fork = some (f,c)) : S.Next f p.cur := by
  unfold System.endOf at he
  unfold System.Next
  split at he
  case h_4 =>
    obtain ⟨t,-,rfl⟩ := Option.map_eq_some_iff.mp he
    cases hf
  all_goals (cases he <;> cases hf <;> simp_all)

theorem next_of_path {S : System σ} {x y : σ} {l : List (Access Nat Byte)}
    (h : Path S.op x l y) : ReflTransGen S.Next y x := by
  induction h with
  | nil => exact .refl
  | @load l t a b k _ ho ih =>
    refine .head ?_ ih
    cases hc : S.code t <;> simp only [System.op,hc,Instr.op] at ho <;> cases ho
    exact S.next_load hc b
  | @store l t a b k _ ho ih =>
    refine .head ?_ ih
    cases hc : S.code t <;> simp only [System.op,hc,Instr.op] at ho <;> cases ho
    exact S.next_store hc

/-- How far back a rollback can take a process: to the start of its transaction until that is
validated, then no further than its end. -/
def Proc.base (p : Proc σ) : Multiset (σ × ℕ) :=
  match p.pc with
  | .atomicBegin c => {(c.next,2)}
  | .run | .waitPred _ | .lock _ | .abort => {(p.context.next,2)}
  | .commit _ _ | .copy _ _ _ | .ended _ => {(p.cur,1)}
  | .wait _ k => {(k,3)}
  | .zombie _ => 0

def State.stale (s : State σ) (p : Proc σ) : ℕ :=
  if p.pc.open ∧ p.begun ≠ s.txs.length then 1 else 0

def System.faultsLeft (S : System σ) (p : Proc σ) : ℕ :=
  match S.faultAddr p with
  | none => 0
  | some a => if pageOf a ∈ p.readSetVersion then 1 else 2

def System.stage (S : System σ) (p : Proc σ) : Multiset (ℕ × σ × ℕ) :=
  match p.pc with
  | .abort => {(7,p.cur,0)}
  | .atomicBegin _ => {(6,p.cur,0)}
  | .run => {(5,p.cur,S.faultsLeft p)}
  | .waitPred _ => {(4,p.cur,0)}
  | .lock _ => {(3,p.cur,0)}
  | .commit _ todo => {(2,p.cur,2 * todo.card)}
  | .copy _ todo _ => {(2,p.cur,2 * todo.card + 1)}
  | .ended _ | .wait _ _ | .zombie _ => 0

abbrev Measure (σ : Type) := Multiset (σ × ℕ) × ℕ × ℕ × Multiset (ℕ × σ × ℕ)

def System.measure (S : System σ) (s : State σ) : Measure σ :=
  (total s.order.toFinset s.procs Proc.base,
    total s.order.toFinset s.procs s.stale,
    (s.order.toFinset \ s.reaped).card,
    total s.order.toFinset s.procs S.stage)

def System.BaseLt (S : System σ) : σ × ℕ → σ × ℕ → Prop :=
  Prod.Lex (TransGen S.Next) (· < ·)

def System.StageLt (S : System σ) : ℕ × σ × ℕ → ℕ × σ × ℕ → Prop :=
  Prod.Lex (· < ·) (Prod.Lex (TransGen S.Next) (· < ·))

theorem System.baseLt_of_next {S : System σ} {x y : σ} (h : TransGen S.Next y x) (m n : ℕ) :
    S.BaseLt (y,m) (x,n) := .left _ _ h

theorem System.baseLt_of_lt (S : System σ) (x : σ) {m n : ℕ} (h : m < n) :
    S.BaseLt (x,m) (x,n) := .right _ h

theorem System.stageLt_of_lt (S : System σ) {m n : ℕ} (h : m < n) (u v : σ × ℕ) :
    S.StageLt (m,u) (n,v) := .left _ _ h

theorem System.stageLt_of_next {S : System σ} {x y : σ} (h : S.Next y x) (n i j : ℕ) :
    S.StageLt (n,y,i) (n,x,j) := .right _ (.left _ _ (.single h))

theorem System.stageLt_of_left (S : System σ) (n : ℕ) (x : σ) {i j : ℕ} (h : i < j) :
    S.StageLt (n,x,i) (n,x,j) := .right _ (.right _ h)

def System.Below (S : System σ) : Measure σ → Measure σ → Prop :=
  Prod.Lex (CutExpand S.BaseLt) (Prod.Lex (· < ·) (Prod.Lex (· < ·) (CutExpand S.StageLt)))

theorem System.wf_below {S : System σ} (h : WellFounded S.Next) : WellFounded S.Below := by
  have hpoint : WellFounded (Prod.Lex (TransGen S.Next) ((· < ·) : ℕ → ℕ → Prop)) :=
    h.transGen.prod_lex wellFounded_lt
  exact hpoint.cutExpand.prod_lex
    (wellFounded_lt.prod_lex (wellFounded_lt.prod_lex (wellFounded_lt.prod_lex hpoint).cutExpand))

/-- Further portions of a page arrive, or a zombie is reaped that has been reaped. -/
def State.Silent (s : State σ) (x : Nat × Act) : Prop :=
  match x.2 with
  | .memcpy _ => True
  | .reap => x.1 ∈ s.reaped
  | _ => False

section
variable {S : System σ} {s s' : State σ} {pid : Nat} {p p' : Proc σ}

theorem stale_total (hmem : pid ∈ s.order) (hp : s.procs pid = some p)
    (procs : s'.procs = Function.update s.procs pid (some p')) (order : s'.order = s.order)
    (txs : s'.txs = s.txs) : total s'.order.toFinset s'.procs s'.stale + s.stale p =
      total s.order.toFinset s.procs s.stale + s.stale p' := by
  have hsame : s'.stale = s.stale := by
    funext r
    simp only [State.stale,txs]
  rw [order,procs,hsame]
  exact total_update (List.mem_toFinset.mpr hmem) hp

theorem below_base (hmem : pid ∈ s.order) (hp : s.procs pid = some p)
    (procs : s'.procs = Function.update s.procs pid (some p')) (order : s'.order = s.order)
    {a : σ × ℕ} (ha : p.base = {a}) (hb : ∀ b ∈ p'.base, S.BaseLt b a) :
    S.Below (S.measure s') (S.measure s) := by
  refine Prod.lex_def.mpr (.inl ?_)
  simp only [System.measure,order,procs]
  exact cutExpand_update (List.mem_toFinset.mpr hmem) hp ha hb

theorem below_stale (hmem : pid ∈ s.order) (hp : s.procs pid = some p)
    (procs : s'.procs = Function.update s.procs pid (some p')) (order : s'.order = s.order)
    (txs : s'.txs = s.txs) (base : p'.base = p.base) (stale : s.stale p' < s.stale p) :
    S.Below (S.measure s') (S.measure s) := by
  refine Prod.lex_def.mpr (.inr ⟨?_,.left _ _ ?_⟩)
  · simp only [System.measure,order,procs]
    exact total_keep hp base
  · have hstale := stale_total hmem hp procs order txs
    omega

theorem below_stage (hmem : pid ∈ s.order) (hp : s.procs pid = some p)
    (procs : s'.procs = Function.update s.procs pid (some p')) (order : s'.order = s.order)
    (txs : s'.txs = s.txs) (reaped : s.reaped ⊆ s'.reaped) (base : p'.base = p.base)
    (stale : s.stale p' ≤ s.stale p) {a : ℕ × σ × ℕ} (ha : S.stage p = {a})
    (hb : ∀ b ∈ S.stage p', S.StageLt b a) : S.Below (S.measure s') (S.measure s) := by
  refine Prod.lex_def.mpr (.inr ⟨?_,?_⟩)
  · simp only [System.measure,order,procs]
    exact total_keep hp base
  · have hstale := stale_total hmem hp procs order txs
    refine Prod.Lex.right' _ (show _ ≤ _ by omega) (Prod.Lex.right' _ ?_ ?_)
    · rw [order]
      exact Finset.card_le_card (Finset.sdiff_subset_sdiff subset_rfl reaped)
    · simp only [order,procs]
      exact cutExpand_update (List.mem_toFinset.mpr hmem) hp ha hb

theorem touches_unique {x : σ} {a b : Nat} (ha : S.Touches x a) (hb : S.Touches x b) : a = b := by
  obtain ⟨k,hk⟩ | ⟨v,k,hk⟩ := ha <;> obtain ⟨k',hk'⟩ | ⟨v',k',hk'⟩ := hb <;>
    cases hk.symm.trans hk' <;> rfl

theorem faultsLeft_lt {t : Attempt} {a : Nat} (ha : S.faultAddr p = some a)
    (hf : p.segfaultHandler S.layout a = .ok t) :
    S.faultsLeft { p with toAttempt := t } < S.faultsLeft p := by
  have hleft : S.faultsLeft p = if pageOf a ∈ p.readSetVersion then 1 else 2 := by
    simp only [System.faultsLeft,ha]
  obtain ⟨hpage,⟨hr,rfl⟩ | ⟨hr,rfl⟩⟩ := segfaultHandler_ok hf
  · have hin : S.layout.InHeap a := hpage.inHeap rfl
    have hnone : S.faultAddr { p with toAttempt := { p.toAttempt with
        writeSetVersion := p.writeSetVersion.insert (pageOf a)
          (version p.localPageVersion (pageOf a) + 1)
        prot := Function.update p.prot (pageOf a) .readWrite } } = none := by
      unfold System.faultAddr at ha ⊢
      cases hk : S.code p.cur <;> simp only [hk] at ha ⊢
      all_goals
        split at ha <;> cases ha
        simp [System.mayLoad,System.mayStore,hin]
    rw [hleft,if_pos hr,System.faultsLeft,hnone]
    exact Nat.one_pos
  · rw [hleft,if_neg hr,System.faultsLeft]
    split
    · exact Nat.two_pos
    · rename_i b hb
      have hold := System.touches_of_faultAddr ha
      have hnew := System.touches_of_faultAddr hb
      have hsame : b = a := touches_unique hnew hold
      rw [if_pos (Finmap.mem_insert.mpr (.inl (hsame ▸ rfl)))]
      exact Nat.one_lt_two

structure Trailing (S : System σ) (s : State σ) : Prop where
  sound : Sound S s
  listed : ∀ q, q ∈ s.order ↔ s.procs q ≠ none
  path : ∀ q p, s.procs q = some p → p.pc.open → ReflTransGen S.Next p.cur p.context.next

theorem trailing_reachable {root : Nat} {x : σ} {file : Heap}
    (h : Reachable (Step S) (initial root x file) s) : Trailing S s :=
  ⟨sound_reachable h,mem_order_reachable h,fun _ _ hp ho => next_of_path (path_reachable h hp ho)⟩

theorem Trailing.mem (h : Trailing S s) (hp : s.procs pid = some p) : pid ∈ s.order :=
  (h.listed pid).mpr (by simp [hp])

theorem Trailing.baseLt (h : Trailing S s) (hp : s.procs pid = some p) (ho : p.pc.open) :
    S.BaseLt (p.cur,1) (p.context.next,2) := by
  obtain heq | hlt := reflTransGen_iff_eq_or_transGen.mp (h.path pid p hp ho)
  · exact heq ▸ S.baseLt_of_lt _ Nat.one_lt_two
  · exact S.baseLt_of_next hlt 1 2

theorem stale_eq_zero (h : ¬ p.pc.open) : s.stale p = 0 := if_neg fun hs => h hs.1

/-- Only a stale attempt is rejected. -/
theorem stale_of_reject (hs : Sound S s) (hp : s.procs pid = some p) {e : End σ}
    (hpc : p.pc = .lock e) (hm : s.mutex = none)
    (hc : isHeapConsistent p.readSetVersion s.globalPageVersion = false) : s.stale p = 1 := by
  have ho : p.pc.open := by rw [hpc]; trivial
  refine if_pos ⟨ho,fun hbegun => ?_⟩
  have hu : s.undisturbed p := by
    intro tx htx
    rw [(since_begun hbegun).1] at htx
    cases htx
  have := (consistent_iff (hs.each pid p hp) hs.versions hs.conflicts hp ho hm).mpr hu
  simp [hc] at this

theorem below_lock (h : Step S s (pid,.lock) s') (ht : Trailing S s) :
    S.Below (S.measure s') (S.measure s) := by
  cases h with
  | @commit _ p e hp hpc hm hc =>
    have hlt := ht.baseLt hp (by rw [hpc]; trivial)
    refine below_base (a := (p.context.next,2)) (ht.mem hp) hp rfl rfl (by simp [Proc.base,hpc]) ?_
    simpa [Proc.base] using hlt
  | @reject _ p e hp hpc hm hc =>
    have hstale := stale_of_reject ht.sound hp hpc hm hc
    exact below_stale (ht.mem hp) hp rfl rfl rfl (by simp [Proc.base,hpc])
      ((stale_eq_zero id).trans_lt (by omega))

theorem below_fork {child : Nat} (h : Step S s (pid,.fork child) s') (ht : Trailing S s) :
    S.Below (S.measure s') (S.measure s) := by
  cases h with
  | @fork _ p e _ f c hp hpc hf hc hn =>
    have hend := (ht.sound.each pid p hp).ending e (by rw [hpc]; rfl)
    have hnext : TransGen S.Next (c child).next p.cur :=
      .single (S.next_of_resumes (S.resumes_fork hend hf child))
    have hchild : TransGen S.Next f p.cur := .single (S.next_of_fork hend hf)
    have hfresh : child ∉ s.order := fun hin => (ht.listed child).mp hin hn
    have horder : (Insertion.insertBefore pid child s.order).toFinset =
        insert child s.order.toFinset := by
      ext q
      simp [Insertion.mem_insertBefore (ht.mem hp)]
    refine Prod.lex_def.mpr (.inl ?_)
    simp only [System.measure,System.forkChild,State.put,horder]
    refine cutExpand_spawn (a := (p.cur,1)) (List.mem_toFinset.mpr (ht.mem hp)) hp
      (by simpa using hfresh) (by simp [Proc.base,hpc]) ?_ ?_
    · simpa [Proc.base] using S.baseLt_of_next hnext 2 1
    · simpa [Proc.base] using S.baseLt_of_next hchild 2 1

theorem below_atomicEnd (h : Step S s (pid,.atomicEnd) s') (ht : Trailing S s) :
    S.Below (S.measure s') (S.measure s) := by
  cases h with
  | @atomicEnd _ p e hp hpc he =>
    have hlt := ht.baseLt hp (by rw [hpc]; trivial)
    unfold Proc.atomicEnd
    split
    · refine below_base (a := (p.context.next,2)) (ht.mem hp) hp rfl rfl
        (by simp [Proc.base,hpc]) ?_
      simpa [Proc.base] using hlt
    · refine below_stage (a := (5,p.cur,S.faultsLeft p)) (ht.mem hp) hp rfl rfl rfl subset_rfl
        (by simp [Proc.base,hpc]) (by simp [State.stale,hpc,PC.open])
        (by simp [System.stage,hpc]) ?_
      simpa [System.stage] using S.stageLt_of_lt (by omega) _ _

theorem measure_step {x : Nat × Act} (h : Step S s x s') (ht : Trailing S s)
    (hloud : ¬ s.Silent x) : S.Below (S.measure s') (S.measure s) := by
  cases h with
  | @atomicBegin pid p c hp hpc hm =>
    refine below_stage (a := (6,p.cur,0)) (ht.mem hp) hp rfl rfl rfl subset_rfl
      (by simp [Proc.base,Proc.atomicBegin,hpc])
      (by simp [State.stale,Proc.atomicBegin,Attempt.atomicBegin])
      (by simp [System.stage,hpc]) ?_
    simpa [System.stage,Proc.atomicBegin] using S.stageLt_of_lt (by omega) _ _
  | @load pid p a k i m hp hpc hk ha hm =>
    refine below_stage (a := (5,p.cur,S.faultsLeft p)) (ht.mem hp) hp rfl rfl rfl subset_rfl
      (by simp [Proc.base,hpc]) (by simp [State.stale,hpc,Attempt.load])
      (by simp [System.stage,hpc]) ?_
    simpa [System.stage,hpc] using System.stageLt_of_next (S.next_load hk _) 5 _ _
  | @store pid p a b k i m hp hpc hk ha hm =>
    refine below_stage (a := (5,p.cur,S.faultsLeft p)) (ht.mem hp) hp rfl rfl rfl subset_rfl
      (by simp [Proc.base,hpc]) (by simp [State.stale,hpc,Attempt.store])
      (by simp [System.stage,hpc]) ?_
    simpa [System.stage,hpc] using System.stageLt_of_next (S.next_store hk) 5 _ _
  | @fault pid p t a hp hpc ha hf =>
    have hlt := faultsLeft_lt ha hf
    refine below_stage (a := (5,p.cur,S.faultsLeft p)) (ht.mem hp) hp rfl rfl rfl subset_rfl
      (by simp [Proc.base,hpc]) ?_ (by simp [System.stage,hpc]) ?_
    · obtain ⟨-,⟨-,rfl⟩ | ⟨-,rfl⟩⟩ := segfaultHandler_ok hf <;> exact le_rfl
    · simpa [System.stage,hpc] using S.stageLt_of_left 5 p.cur hlt
  | @killed pid p _ _ hp hpc | @signaled pid p _ hp hpc =>
    exact below_base (a := (p.context.next,2)) (ht.mem hp) hp rfl rfl (by simp [Proc.base,hpc])
      (by simp [Proc.base])
  | atomicEnd hp hpc he => exact below_atomicEnd (.atomicEnd hp hpc he) ht
  | @waited pid p e s₁ hp hpc hw =>
    have hlt : ∀ b ∈ S.stage { p with pc := .lock e }, S.StageLt b (4,p.cur,0) := by
      simpa [System.stage] using S.stageLt_of_lt (by omega) _ _
    obtain ⟨rfl,-⟩ | ⟨rfl,-⟩ := waitExited_spec hw
    · exact below_stage (ht.mem hp) hp rfl rfl rfl subset_rfl (by simp [Proc.base,hpc])
        (by simp [State.stale,hpc,PC.open]) (by simp [System.stage,hpc]) hlt
    · exact below_stage (ht.mem hp) hp rfl rfl rfl (Finset.subset_insert _ _)
        (by simp [Proc.base,hpc]) (by simp [State.stale,hpc,PC.open])
        (by simp [System.stage,hpc]) hlt
  | commit hp hpc hm hc => exact below_lock (.commit hp hpc hm hc) ht
  | reject hp hpc hm hc => exact below_lock (.reject hp hpc hm hc) ht
  | @page pid p e todo page hp hpc hpage =>
    have hcard := Finset.card_erase_add_one hpage
    refine below_stage (a := (2,p.cur,2 * todo.card)) (ht.mem hp) hp rfl rfl rfl subset_rfl
      (by simp [Proc.base,hpc]) (by simp [State.stale,PC.open]) (by simp [System.stage,hpc]) ?_
    simpa only [System.stage,Multiset.mem_singleton,forall_eq] using
      S.stageLt_of_left 2 p.cur (by omega)
  | memcpy => exact absurd trivial hloud
  | @publish pid p e todo page v hp hpc hv =>
    refine below_stage (a := (2,p.cur,2 * todo.card + 1)) (ht.mem hp) hp rfl rfl rfl subset_rfl
      (by simp [Proc.base,hpc]) (by simp [State.stale,PC.open]) (by simp [System.stage,hpc]) ?_
    simpa [System.stage] using S.stageLt_of_left 2 p.cur (by omega)
  | @unlock pid p e hp hpc =>
    exact below_stage (a := (2,p.cur,0)) (ht.mem hp) hp rfl rfl rfl subset_rfl
      (by simp [Proc.base,hpc]) (by simp [State.stale,PC.open]) (by simp [System.stage,hpc])
      (by simp [System.stage])
  | @abort pid p hp hpc =>
    refine below_stage (a := (7,p.cur,0)) (ht.mem hp) hp rfl rfl rfl subset_rfl
      (by simp [Proc.base,hpc]) (by simp [State.stale,PC.open]) (by simp [System.stage,hpc]) ?_
    simpa [System.stage] using S.stageLt_of_lt (by omega) _ _
  | fork hp hpc hf hc hn => exact below_fork (.fork hp hpc hf hc hn) ht
  | @forkFailed pid p e y hp hpc hf =>
    exact below_base (a := (p.cur,1)) (ht.mem hp) hp rfl rfl (by simp [Proc.base,hpc])
      (by simp [Proc.base])
  | @join pid p t k hp hpc =>
    have hend := (ht.sound.each pid p hp).ending _ (by rw [hpc]; rfl)
    refine below_base (a := (p.cur,1)) (ht.mem hp) hp rfl rfl (by simp [Proc.base,hpc]) ?_
    simpa [Proc.base] using
      S.baseLt_of_next (.single (S.next_of_resumes (S.resumes_join hend))) 3 1
  | @joined pid p t k s₁ hp hpc hw =>
    have hlt : ∀ b ∈ Proc.base { p with pc := .atomicBegin ⟨none,k⟩ }, S.BaseLt b (k,3) := by
      simpa [Proc.base] using S.baseLt_of_lt k (by omega)
    obtain ⟨rfl,-⟩ | ⟨rfl,-⟩ := waitExited_spec hw <;>
    exact below_base (ht.mem hp) hp rfl rfl (by simp [Proc.base,hpc]) hlt
  | @interrupted pid p q hp hq hu =>
    obtain ⟨e,hpc,-⟩ | ⟨k,hpc⟩ := Proc.waitsFor_cases hq
    · exact below_base (a := (p.context.next,2)) (ht.mem hp) hp rfl rfl (by simp [Proc.base,hpc])
        (by simp [Proc.base])
    · exact below_base (a := (k,3)) (ht.mem hp) hp rfl rfl (by simp [Proc.base,hpc])
        (by simp [Proc.base])
  | @exit pid p hp hpc =>
    exact below_base (a := (p.cur,1)) (ht.mem hp) hp rfl rfl (by simp [Proc.base,hpc])
      (by simp [Proc.base])
  | @reap pid p hp he ho =>
    refine Prod.lex_def.mpr (.inr ⟨rfl,.right _ (.left _ _ ?_)⟩)
    refine Finset.card_lt_card (Finset.ssubset_iff_of_subset ?_ |>.mpr ⟨pid,?_,?_⟩)
    · exact Finset.sdiff_subset_sdiff subset_rfl (Finset.subset_insert _ _)
    · simpa using ⟨ht.mem hp,hloud⟩
    · simp

theorem measure_silent {x : Nat × Act} (h : Step S s x s') (hsilent : s.Silent x) :
    S.measure s' = S.measure s := by
  cases h with
  | memcpy => rfl
  | @reap pid p hp he ho =>
    have hin : pid ∈ s.reaped := hsilent
    rw [Finset.insert_eq_of_mem hin]
  | _ => exact hsilent.elim

end

/-- In an infinite run of a program whose code ends, from some point on nothing happens but that
portions of a page arrive again and dead zombies are reaped again: rollbacks, faults, waits,
commits and forks all come to an end. -/
theorem no_livelock (S : System σ) (hends : WellFounded S.Next) (root : Nat) (x : σ) (file : Heap)
    (run : ℕ → State σ) (act : ℕ → Nat × Act) (start : run 0 = initial root x file)
    (steps : ∀ n, Step S (run n) (act n) (run (n + 1))) :
    ∃ N, ∀ n, N ≤ n → (run n).Silent (act n) := by
  have reach : ∀ n, Reachable (Step S) (initial root x file) (run n) := by
    intro n
    induction n with
    | zero => exact start ▸ .refl _
    | succ n ih => exact ih.tail (steps n)
  exact eventually_silent (S.wf_below hends) (fun n hn => measure_silent (steps n) hn)
    fun n hn => measure_step (steps n) (trailing_reachable (reach n)) hn

def Counter.left : Counter → ℕ
  | .main => 5
  | .one _ => 4
  | .two _ _ => 3
  | .last _ | .thread => 2
  | .add _ => 1
  | .done => 0

theorem Counter.wf_next : WellFounded counter.Next := by
  refine Subrelation.wf (r := fun y x => y.left < x.left) (fun {y x} h => ?_)
    (InvImage.wf Counter.left wellFounded_lt)
  cases x with
  | main =>
    obtain rfl | ⟨c,rfl⟩ := h
    · exact Nat.lt_of_sub_eq_succ rfl
    · exact Nat.lt_of_sub_eq_succ rfl
  | one t =>
    obtain rfl | ⟨c,rfl⟩ := h
    · exact Nat.lt_of_sub_eq_succ rfl
    · exact Nat.lt_of_sub_eq_succ rfl
  | thread =>
    obtain ⟨b,rfl⟩ := h
    exact Nat.lt_of_sub_eq_succ rfl
  | two t u | last u | add b =>
    cases h
    exact Nat.lt_of_sub_eq_succ rfl
  | done => cases h

def counterEnd : List (Nat × Act) :=
  counterRun ++ [(2,.exit),(3,.exit),(1,.atomicBegin),(1,.atomicEnd),(1,.join),(1,.joined),
    (1,.atomicBegin),(1,.atomicEnd),(1,.join),(1,.joined),(1,.atomicBegin),(1,.atomicEnd),
    (1,.exit),(1,.reap)]

theorem no_livelock_counter : ∃ (run : ℕ → State Counter) (act : ℕ → Nat × Act) (m : ℕ),
    (run m).rollbackCount = 1 ∧ (∀ n, Step counter (run n) (act n) (run (n + 1))) ∧
    ∃ N, ∀ n, N ≤ n → (run n).Silent (act n) := by
  obtain ⟨s,hs,hv⟩ := System.run_any counter (initial 1 .main fun _ => 0) counterEnd
    (fun s => s.rollbackCount = 1 && decide (1 ∈ s.reaped) && (s.procs 1).any fun p =>
      p.pc.exited && (s.procs p.parent).isNone) (by decide +kernel)
  simp only [Bool.and_eq_true,decide_eq_true_eq,Option.any_eq_true,
    Option.isNone_iff_eq_none] at hv
  obtain ⟨⟨hr,hreap⟩,p,hp,he,hpar⟩ := hv
  have hloop : Step counter s (1,.reap) s := by
    have hstep : Step counter s (1,.reap) _ := .reap hp he fun r hr => by
      cases hpar.symm.trans hr
    rwa [Finset.insert_eq_of_mem hreap] at hstep
  obtain ⟨run,act,m,hstart,hend,hrun⟩ := hs.forever hloop
  exact ⟨run,act,m,hend ▸ hr,hrun,
    no_livelock counter Counter.wf_next 1 .main (fun _ => 0) run act hstart hrun⟩

end GThread
