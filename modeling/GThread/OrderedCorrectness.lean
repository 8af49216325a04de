import GThread.Correctness
import GThread.SequentialOrder

/-! Total correctness of the ordered build for programs with data races. What the order needs
besides joins in order is that no thread leaves through the empty transaction while a thread before
it may still run: a thread ends with a transaction that touches the heap, or has joined all the
threads it created. -/
namespace GThread
open Replay Transition
variable {τ : Type} {code : τ → Cmd τ} {start : τ}

/-- No thread returns right where a transaction begins, except from its last join. -/
def EndsTouching (code : τ → Cmd τ) (start : τ) : Prop :=
  code start ≠ .ret ∧ ∀ x c n, Stage code start x c n → match code x with
    | .create f k => code f ≠ .ret ∧ code k ≠ .ret
    | .join i k => code k = .ret → c ≤ max n (i + 1)
    | .load _ _ | .store _ _ _ | .ret => True

def Proc.beginning {σ : Type} (p : Proc σ) : List σ :=
  match p.pc with
  | .atomicBegin c => [c.next]
  | .run | .waitPred _ | .lock _ | .abort => [p.context.next]
  | .commit _ _ | .copy _ _ _ | .ended _ | .wait _ _ | .zombie _ => []

def Cleared {σ : Type} (s : State σ) (p : Proc σ) : Prop :=
  p.predecessor = 0 ∨ s.Exited p.predecessor

/-- A process that leaves, or is past its wait, is cleared, and so is one that returns where it
begins. -/
structure Patient (code : τ → Cmd τ) (s : State (τ × List Nat)) (p : Proc (τ × List Nat)) :
    Prop where
  begins : ∀ x ∈ p.beginning, code x.1 = .ret → x.2 ≠ [] ∧ s.Gathered x.2 x.2.length
  waits : ∀ t k, p.pc = .wait t k → code k.1 = .ret →
    ∃ i n, k.2[i]? = some t ∧ i ≤ n ∧ k.2.length ≤ max n (i + 1) ∧ s.Gathered k.2 n
  passed : p.pc.pastWait → Cleared s p
  leaves : p.pc = .ended .exit → Cleared s p

section
variable {S : System (τ × List Nat)} {s s' : State (τ × List Nat)}
  {p p' : Proc (τ × List Nat)} {a : Nat × Act}

theorem Cleared.later (h : Step S s a s') (hc : Cleared s p)
    (same : p'.predecessor = p.predecessor) : Cleared s' p' := by
  unfold Cleared
  rw [same]
  exact hc.imp_right (exited_mono h)

theorem Patient.later (h : Step S s a s') (hp : Patient code s p) : Patient code s' p := by
  refine ⟨fun x hx hret => ?_,fun t k hpc hret => ?_,fun hw => ?_,fun hl => ?_⟩
  · obtain ⟨hne,hg⟩ := hp.begins x hx hret
    exact ⟨hne,hg.later h⟩
  · obtain ⟨i,n,hi,hin,hle,hg⟩ := hp.waits t k hpc hret
    exact ⟨i,n,hi,hin,hle,hg.later h⟩
  · exact (hp.passed hw).later h rfl
  · exact (hp.leaves hl).later h rfl

theorem Patient.go (h : Step S s a s') (hp : Patient code s p)
    (beginning : p'.beginning ⊆ p.beginning) (waits : ∀ t k, p'.pc ≠ .wait t k)
    (passed : ¬ p'.pc.pastWait) (leaves : p'.pc ≠ .ended .exit) : Patient code s' p' := by
  refine ⟨fun x hx hret => ?_,fun t k hpc => absurd hpc (waits t k),fun hw => absurd hw passed,
    fun hl => absurd hl leaves⟩
  obtain ⟨hne,hg⟩ := hp.begins x (beginning hx) hret
  exact ⟨hne,hg.later h⟩

theorem Patient.clear (h : Step S s a s') (hc : Cleared s p)
    (beginning : ∀ x ∈ p'.beginning, code x.1 = .ret → x.2 ≠ [] ∧ s.Gathered x.2 x.2.length)
    (waits : ∀ t k, p'.pc ≠ .wait t k) (same : p'.predecessor = p.predecessor) :
    Patient code s' p' := by
  refine ⟨fun x hx hret => ?_,fun t k hpc => absurd hpc (waits t k),fun _ => hc.later h same,
    fun _ => hc.later h same⟩
  obtain ⟨hne,hg⟩ := beginning x hx hret
  exact ⟨hne,hg.later h⟩

theorem Linked.cleared {l : List Nat} (hl : Linked s p l) (hne : l ≠ [])
    (hg : s.Gathered l l.length) (hr : s.ReapedExited) : Cleared s p := by
  obtain ⟨c,hc,hreap⟩ := hg (l.length - 1) (by have := List.length_pos_iff.mpr hne; omega)
  have hlast := hl.latest
  rw [List.getLastD_eq_getLast?,List.getLast?_eq_getElem?,hc] at hlast
  obtain rfl : c = p.predecessor := hlast
  exact .inr (hr _ hreap)

theorem patient_fork (htouch : EndsTouching code start) (hS : S.code = forkJoin code)
    {pid child : Nat} (h : Step S s (pid,.fork child) s') (hs : Sound S s)
    (hi : ∀ q p, s.procs q = some p → Orderly code start s p)
    (ht : ∀ q p, s.procs q = some p → Patient code s p) :
    ∀ q p, s'.procs q = some p → Patient code s' p := by
  have stay : ∀ q p, s.procs q = some p → Patient code s' p := fun q p hp => (ht q p hp).later h
  cases h with
  | @fork _ p e _ f c hp hpc hf hc hn =>
    obtain ⟨g,k,hk,rfl⟩ | ⟨i,k,-,rfl⟩ | ⟨-,rfl⟩ :=
      endOf_forkJoin hS ((hs.each pid p hp).ending e (by rw [hpc]; rfl)) <;> cases hf
    obtain ⟨-,n,hn,-⟩ := (hi pid p hp).point p.cur (by simp [Proc.points,hpc])
    have hfresh := htouch.2 _ _ _ hn
    simp only [hk] at hfresh
    refine forall_fork stay
      ⟨fun x hx hret => ?_,fun t k hw => (by cases hw),fun hw => hw.elim,fun hl => (by cases hl)⟩
      ⟨fun x hx hret => ?_,fun t k hw => (by cases hw),fun hw => hw.elim,fun hl => (by cases hl)⟩
    · obtain rfl := List.mem_singleton.mp hx
      exact absurd hret hfresh.2
    · obtain rfl := List.mem_singleton.mp hx
      exact absurd hret hfresh.1

theorem patient_step {file : Heap} (hin : JoinsInOrder code start)
    (htouch : EndsTouching code start) (hS : S.code = forkJoin code) (h : Step S s a s')
    (hs : Sound S s) (hser : Serialized S file s) (hr : s.ReapedExited) (htree : s.tree.Ordered)
    (hi : ∀ q p, s.procs q = some p → Orderly code start s p)
    (ht : ∀ q p, s.procs q = some p → Patient code s p) :
    ∀ q p, s'.procs q = some p → Patient code s' p := by
  have stay : ∀ q p, s.procs q = some p → Patient code s' p := fun q p hp => (ht q p hp).later h
  have hstep := h
  cases h with
  | @atomicBegin pid p c hp hpc hm =>
    exact forall_put stay ((ht pid p hp).go hstep
      (by simp [Proc.beginning,Proc.atomicBegin,hpc]) (by simp [Proc.atomicBegin]) id
      (by simp [Proc.atomicBegin]))
  | load hp hpc | store hp hpc | fault hp hpc =>
    exact forall_put stay ((ht _ _ hp).go hstep (by simp [Proc.beginning,hpc]) (by simp [hpc])
      (by simp [hpc,PC.pastWait]) (by simp [hpc]))
  | @atomicEnd pid p e hp hpc he =>
    by_cases htouched : p.readSetVersion = ∅ ∧ p.writeSetVersion = ∅
    · have hend : p.atomicEnd e s.past.length =
          { p with toAttempt := p.toAttempt.updateHeap s.past.length, pc := .ended e } :=
        if_pos htouched
      rw [hend] at hstep ⊢
      refine forall_put (hend ▸ stay)
        ⟨fun x hx => (by cases hx),fun t k hw => (by cases hw),fun hw => hw.elim,fun hl => ?_⟩
      obtain rfl := PC.ended.inj hl
      obtain ⟨f,k,-,he⟩ | ⟨i,k,-,he⟩ | ⟨hret,-⟩ := endOf_forkJoin hS he
      · cases he
      · cases he
      have hcur := untouched_cur hs hser hp (by rw [hpc]; trivial) htouched.1
      obtain ⟨hl,-⟩ := (hi pid p hp).point p.context.next (by simp [Proc.points,hpc])
      obtain ⟨hne,hg⟩ := (ht pid p hp).begins p.context.next (by simp [Proc.beginning,hpc])
        (hcur ▸ hret)
      exact (hl.cleared hne hg hr).later hstep rfl
    · have hend : p.atomicEnd e s.past.length = { p with pc := .waitPred e } := if_neg htouched
      rw [hend] at hstep ⊢
      exact forall_put (hend ▸ stay)
        ((ht pid p hp).go hstep (by simp [Proc.beginning,hpc]) (by simp) id (by simp))
  | fork hp hpc hf hc hn => exact patient_fork htouch hS (.fork hp hpc hf hc hn) hs hi ht
  | @join pid p t k hp hpc =>
    obtain ⟨f,k',-,he⟩ | ⟨i,k',hk,he⟩ | ⟨-,he⟩ :=
      endOf_forkJoin hS ((hs.each pid p hp).ending _ (by rw [hpc]; rfl)) <;> cases he
    obtain ⟨-,n,hn,hg⟩ := (hi pid p hp).point p.cur (by simp [Proc.points,hpc])
    have hjoin := hin _ _ _ hn
    have hlast := htouch.2 _ _ _ hn
    simp only [hk] at hjoin hlast
    refine forall_put stay ⟨fun x hx => (by cases hx),fun t k hw hret => ?_,fun hw => hw.elim,
      fun hl => (by cases hl)⟩
    obtain ⟨rfl,rfl⟩ := PC.wait.inj hw
    refine ⟨i,n,?_,hjoin.2,hlast hret,hg.later hstep⟩
    simp [List.getD_eq_getElem?_getD,List.getElem?_eq_getElem hjoin.1]
  | @joined pid p t k s₁ hp hpc hw =>
    have hput : ∀ q r, s₁.procs q = some r → Patient code _ r :=
      (waitExited_procs hw).symm ▸ stay
    refine forall_put hput
      ⟨fun x hx hret => ?_,fun t k hw => (by cases hw),fun hw => hw.elim,fun hl => (by cases hl)⟩
    obtain rfl := List.mem_singleton.mp hx
    obtain ⟨i,n,hit,hle,hlen,hg⟩ := (ht pid p hp).waits t _ hpc hret
    refine ⟨fun hnil => by simp [hnil] at hit,fun j hj => ?_⟩
    obtain hjn | rfl : j < n ∨ j = i := by omega
    · exact hg.later hstep j hjn
    · have hreap : t ∈ s₁.reaped := ((hi pid p hp).waits t _ hpc).1.reaped_of_joined hit hw
      exact ⟨t,hit,hreap⟩
  | memcpy | reap => exact stay
  | @waited pid p e s₁ hp hpc hw =>
    have hclear : Cleared s p := predecessor_exited hr
      ((predecessor_exists htree hp).imp_right Option.ne_none_iff_exists'.mpr) hw
    have hput : ∀ q r, s₁.procs q = some r → Patient code _ r :=
      (waitExited_procs hw).symm ▸ stay
    exact forall_put hput (.clear hstep hclear (fun x hx => (ht pid p hp).begins x
      (by simpa [Proc.beginning,hpc] using hx)) (by simp) rfl)
  | @commit pid p e hp hpc hm hc =>
    exact forall_put (p := { p with pc := .commit e p.writeSetVersion.keys }) stay
      (.clear hstep ((ht pid p hp).passed (by rw [hpc]; trivial)) (by simp [Proc.beginning])
        (by simp) rfl)
  | @reject pid p e hp hpc hm hc =>
    exact forall_put (p := { p with pc := .abort }) stay
      ((ht pid p hp).go hstep (by simp [Proc.beginning,hpc]) (by simp) id (by simp))
  | @page pid p e todo page hp hpc hpage =>
    exact forall_put stay (.clear hstep ((ht pid p hp).passed (by rw [hpc]; trivial))
      (by simp [Proc.beginning]) (by simp) rfl)
  | @publish pid p e todo page v hp hpc hv =>
    exact forall_put (s := s.write _) (p := { p with pc := .commit e todo }) stay
      (.clear hstep ((ht pid p hp).passed (by rw [hpc]; trivial)) (by simp [Proc.beginning])
        (by simp) rfl)
  | @unlock pid p e hp hpc =>
    exact forall_put (p := { p with
      toAttempt := p.toAttempt.updateHeap s.past.length
      pc := .ended e }) stay
      (.clear hstep ((ht pid p hp).passed (by rw [hpc]; trivial)) (by simp [Proc.beginning])
        (by simp) rfl)
  | @abort pid p hp hpc =>
    exact forall_put stay
      ((ht pid p hp).go hstep (by simp [Proc.beginning,hpc]) (by simp) id (by simp))
  | killed | signaled | forkFailed | interrupted | exit =>
    have hp := ‹s.procs _ = some _›
    exact forall_put stay ((ht _ _ hp).go hstep (by simp [Proc.beginning]) (by simp) id (by simp))

end

section
variable {L : Layout} {s s' : State (τ × List Nat)} {root : Nat} {file : Heap}

theorem patient_reachable (hin : JoinsInOrder code start) (htouch : EndsTouching code start)
    (hroot : root ≠ 0)
    (h : Reachable (Step (ordered code L true)) (initial root (start,[]) file) s) :
    ∀ q p, s.procs q = some p → Patient code s p := by
  refine h.invariant_within (fun t ht => ht) (fun q p hp => ?_)
    fun t a u ht hi hstep => patient_step hin htouch rfl hstep (sound_reachable ht)
      (serialized_reachable rfl ht) (reapedExited_reachable ht) (ordered_reachable rfl hroot ht)
      (orderly_reachable hin rfl rfl ht) hi
  have hpc := (initial_procs hp).2
  refine ⟨fun x hx hret => ?_,fun t k hw => ?_,fun hw => ?_,fun hl => ?_⟩
  · obtain rfl : x = (start,[]) := by simpa [Proc.beginning,hpc] using hx
    exact absurd hret htouch.1
  · cases hpc.symm.trans hw
  · simp [hpc,PC.pastWait] at hw
  · cases hpc.symm.trans hl

theorem inOrder_step (hset : ∀ q p, s.procs q = some p → Patient code s p)
    (haddr : ∀ q p, s.procs q = some p → ∀ y ∈ p.places, ∀ b, Accesses code y.1 b → L.InHeap b)
    {a : Nat × Act} (h : Step (ordered code L true) s a s') (hfail : ¬ a.2.failure) :
    (ordered code L true).InOrder s a := by
  intro p hp
  obtain ⟨pid,act⟩ := a
  cases act with
  | exit =>
    cases h with
    | exit hp' hpc =>
      cases hp.symm.trans hp'
      exact (hset pid p hp).leaves hpc
  | fault =>
    intro b hb
    have hpc : p.pc = .run := by
      cases h with
      | fault hp' hpc | killed hp' hpc =>
        cases hp.symm.trans hp'
        exact hpc
    refine haddr pid p hp p.cur (by simp [Proc.places,Proc.points,hpc]) b ?_
    obtain ⟨k,hk⟩ | ⟨v,k,hk⟩ := System.touches_of_faultAddr hb
    · obtain ⟨k',hk',-⟩ := forkJoin_load hk
      exact .inr ⟨p.cur.1,k',.refl,hk'⟩
    · obtain ⟨k',hk',-⟩ := forkJoin_store hk
      exact .inl ⟨p.cur.1,v,k',.refl,hk'⟩
  | signaled | interrupted | forkFailed => exact absurd trivial hfail
  | _ => trivial

/-- What a run in order has done is a beginning of the sequential program. -/
theorem ahead_reachable (hroot : root ≠ 0)
    (h : Reachable (Guarded (ordered code L true).InOrder (Step (ordered code L true)))
      (initial root (start,[]) file) s) : Ahead code L start file s := by
  have inv : Chained s ∧ Ahead code L start file s := by
    refine h.invariant_within (J := fun t => Reachable (Step (ordered code L true))
        (initial root (start,[]) file) t) (I := fun t => Chained t ∧ Ahead code L start file t)
      (fun t ht => ht.forget)
      ⟨chained_initial root (start,[]) file,ahead_initial code L root start file⟩
      fun t a u hr hi hstep => ?_
    have ht := ordered_reachable rfl hroot hr
    exact ⟨chained_step rfl hstep.2 hstep.1 (reapedExited_reachable hr) ht hi.1,
      ahead_step hstep.2 hstep.1 (sound_reachable hr) (serialized_reachable rfl hr) ht hi.1 hi.2⟩
  exact inv.2

theorem Ahead.finished (ha : Ahead code L start file s) (ho : s.Over)
    (hr : Reachable (Step (ordered code L true)) (initial root (start,[]) file) s) :
    Seq code start file s.now.bytes := by
  have hnil : s.residuals = [] := List.flatMap_eq_nil_iff.mpr fun q _ => by
    cases hq : s.procs q with
    | none => simp [State.residual,hq]
    | some p =>
      obtain ⟨e,he⟩ := PC.exited_iff.mp (ho q p hq).1
      simp [residual_of hq,Proc.residual,he]
  have hfree : s.mutex = none := free_of_exited (sound_reachable hr) fun q p hp => (ho q p hp).1
  exact ha _ ((serialized_reachable rfl hr).idle hfree) _ (hnil ▸ .nil)

end

theorem sequential_of_orderly {L : Layout} {s : State (τ × List Nat)} {root : Nat} {file : Heap}
    (hin : JoinsInOrder code start) (htouch : EndsTouching code start)
    (haddr : ∀ b, Accesses code start b → L.InHeap b) (hroot : root ≠ 0)
    (h : Reachable (Guarded (fun _ y => ¬ y.2.failure) (Step (ordered code L true)))
      (initial root (start,[]) file) s) (ho : s.Over) : Seq code start file s.now.bytes := by
  refine (ahead_reachable hroot (h.simulate fun u a v hu hgo => ⟨?_,hgo.2⟩)).finished ho h.forget
  refine inOrder_step (patient_reachable hin htouch hroot hu.forget) ?_ hgo.2 hgo.1
  exact places_reachable (P := fun y => ∀ b, Accesses code y.1 b → L.InHeap b)
    (fun y z hy hz b hb => hy b (accesses_next rfl hz hb)) haddr hu.forget

/-- Total correctness of the ordered build. Data races or not, if a fork-join program joins its
threads in order, touches the heap only while at most the latest is not joined, ends every thread
with a transaction that touches the heap, stays inside the heap and has code that ends, then from
wherever a run without failures of the system has come some run leads on to the end, every run that
cannot go on is at the end, and at every end the file holds what the sequential program computes. -/
theorem ordered_correctness (code : τ → Cmd τ) (L : Layout) (hends : WellFounded (Follows code))
    (root : Nat) (hroot : root ≠ 0) (x : τ) (hin : JoinsInOrder code x)
    (htouch : EndsTouching code x) (haddr : ∀ b, Accesses code x b → L.InHeap b) (file : Heap)
    (s : State (τ × List Nat)) (h : Reachable (Guarded (fun _ y => ¬ y.2.failure)
      (Step (ordered code L true))) (initial root (x,[]) file) s) :
    ∃ H, Seq code x file H ∧
      (∃ t, Reachable (Guarded (fun _ y => ¬ y.2.failure) (Step (ordered code L true))) s t ∧
        t.Over) ∧
      ∀ t, Reachable (Guarded (fun _ y => ¬ y.2.failure) (Step (ordered code L true))) s t →
        ((ordered code L true).Idle t → t.Over) ∧ (t.Over → t.now.bytes = H) := by
  have hfree {t : State (τ × List Nat)}
      (ht : Reachable (Step (ordered code L true)) (initial root (x,[]) file) t) :
      ∀ D, ¬ t.Deadlocked D := hin.not_deadlocked rfl rfl hroot ht
  obtain ⟨t,ht,ho⟩ := completes (S := ordered code L true) rfl hends (fun t ht => hfree ht) h.forget
  have hH := sequential_of_orderly hin htouch haddr hroot (h.trans ht) ho
  refine ⟨t.now.bytes,hH,⟨t,ht,ho⟩,fun u hu => ⟨?_,fun huo => ?_⟩⟩
  · exact over_of_idle rfl (h.trans hu).forget (hfree (h.trans hu).forget)
  · exact (sequential_of_orderly hin htouch haddr hroot (h.trans hu) huo).unique hH

theorem Halves.endsTouching : EndsTouching Halves.code .main := by
  refine ⟨nofun,fun x c n h => ?_⟩
  have hx := Halves.staged h
  cases x <;> simp_all [Halves.code]

theorem ordered_correctness_halves : ∃ s H,
    Reachable (Step (ordered Halves.code .adjacent true)) (initial 1 (.main,[]) fun _ => 0) s ∧
    s.rollbackCount = 1 ∧ ¬ s.Over ∧ Seq Halves.code .main (fun _ => 0) H ∧
    ∃ t, Reachable (Step (ordered Halves.code .adjacent true)) s t ∧ t.Over ∧
      t.now.bytes = H := by
  obtain ⟨s,hs,hv⟩ := System.run_unfailing (ordered Halves.code .adjacent true)
    (initial 1 (.main,[]) fun _ => 0) orderedHalvesRun
    (fun s => s.rollbackCount = 1 && (s.procs 3).any fun p => !p.pc.exited) (by decide +kernel)
  simp only [Bool.and_eq_true,decide_eq_true_eq,Option.any_eq_true,Bool.not_eq_true'] at hv
  obtain ⟨hr,p,hp,hlive⟩ := hv
  obtain ⟨H,hH,⟨t,ht,ho⟩,hend⟩ := ordered_correctness Halves.code .adjacent Halves.wf_follows 1
    (by decide) .main Halves.joinsInOrder Halves.endsTouching Halves.inHeap (fun _ => 0) s hs
  exact ⟨s,H,hs.forget,hr,fun h => absurd (h 3 p hp).1 (by simp [hlive]),hH,t,ht.forget,ho,
    (hend t ht).2 ho⟩

end GThread
