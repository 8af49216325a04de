import GThread.Serializability

/-! The tracking sets against what the attempt really did: every page it stored to has a private
copy, so is in the write set, and `CommitHeap` brings each of these copies to the file. -/
namespace GThread
open Replay Transition
variable {σ : Type}

structure Stored (file : Heap) (p : Proc σ) : Prop where
  copied : p.pc.active → ∀ a b, .store a b ∈ p.log → p.copies (pageOf a) ≠ none
  delivered : p.pc.committing → ∀ page c, p.copies page = some c → page ∉ p.pc.pending →
    ∀ a, pageOf a = page → file a = c.bytes a

theorem Stored.of_pc {file : Heap} {p : Proc σ} {pc : PC σ} (h : Stored file p)
    (active : pc.active → p.pc.active) (committing : ¬ pc.committing) :
    Stored file { p with pc := pc } :=
  ⟨fun ha => h.copied (active ha),fun hc => absurd hc committing⟩

theorem Stored.reframe {file file' : Heap} {p : Proc σ} (h : Stored file p)
    (hc : ¬ p.pc.committing) : Stored file' p :=
  ⟨h.copied,fun hp => absurd hp hc⟩

theorem Stored.load {file : Heap} {p : Proc σ} {m : Moment} {a : Nat} {x : σ}
    (h : Stored file p) (hpc : p.pc = .run) :
    Stored file { p with toAttempt := p.toAttempt.load m a, cur := x } := by
  refine ⟨fun ha a' b hlog => ?_,by simp [hpc,PC.committing]⟩
  obtain hlog | hlog := List.mem_cons.mp hlog
  · cases hlog
  · exact h.copied ha a' b hlog

theorem Stored.store {file : Heap} {p : Proc σ} {m : Moment} {a : Nat} {b : Byte} {x : σ}
    (h : Stored file p) (hpc : p.pc = .run) :
    Stored file { p with toAttempt := p.toAttempt.store m a b, cur := x } := by
  refine ⟨fun ha a' b' hlog => ?_,by simp [hpc,PC.committing]⟩
  by_cases hpage : pageOf a' = pageOf a
  · simp [Attempt.store,hpage]
  · obtain hlog | hlog := List.mem_cons.mp hlog
    · cases hlog
      exact absurd rfl hpage
    · simpa [Attempt.store,hpage] using h.copied ha a' b' hlog

theorem Versions.alone {s : State σ} (h : Versions s) {pid q : Nat} {p r : Proc σ}
    (hp : s.procs pid = some p) (hc : p.pc.committing) (hr : s.procs q = some r) (hq : q ≠ pid) :
    ¬ r.pc.committing := by
  intro hrc
  have hmutex := (h.holds pid p hp hc).symm.trans (h.holds q r hr hrc)
  exact hq (Option.some.inj hmutex).symm

theorem stored_step {S : System σ} {s s' : State σ} {x : Nat × Act} (h : Step S s x s')
    (hs : Sound S s) (ho : ∀ q p, s.procs q = some p → Stored s.now.bytes p) :
    ∀ q p, s'.procs q = some p → Stored s'.now.bytes p := by
  cases h with
  | @atomicBegin pid p c hp hpc hm =>
    refine forall_put ho ⟨fun _ a b hlog => ?_,fun hc => hc.elim⟩
    cases hlog
  | @load pid p a k i m hp hpc hk ha hm => exact forall_put ho ((ho pid p hp).load hpc)
  | @store pid p a b k i m hp hpc hk ha hm => exact forall_put ho ((ho pid p hp).store hpc)
  | @fault pid p t a hp hpc ha hf =>
    refine forall_put ho ⟨?_,by simp [hpc,PC.committing]⟩
    obtain ⟨-,⟨-,rfl⟩ | ⟨-,rfl⟩⟩ := segfaultHandler_ok hf <;> exact (ho pid p hp).copied
  | @killed pid p _ _ hp hpc | @signaled pid p _ hp hpc =>
    exact forall_put ho ((ho pid p hp).of_pc (by simp [PC.active]) (by simp [PC.committing]))
  | @atomicEnd pid p e hp hpc he =>
    apply forall_put ho
    unfold Proc.atomicEnd
    split
    · exact ⟨by simp [PC.active],by simp [PC.committing]⟩
    · exact (ho pid p hp).of_pc (by simp [hpc,PC.active]) (by simp [PC.committing])
  | @waited pid p e s₁ hp hpc hw =>
    have hstored := ho pid p hp
    obtain ⟨rfl,-⟩ | ⟨rfl,-⟩ := waitExited_spec hw <;>
    exact forall_put ho (hstored.of_pc (by simp [hpc,PC.active]) (by simp [PC.committing]))
  | @commit pid p e hp hpc hm hc =>
    have hstored := ho pid p hp
    have ht := (hs.each pid p hp).tracked (by rw [hpc]; trivial)
    refine forall_put (p := { p with pc := .commit e p.writeSetVersion.keys }) ho
      ⟨fun _ => hstored.copied (by rw [hpc]; trivial),fun _ page c hcopy hpend => ?_⟩
    have hw := ht.copied page fun hnone => by cases hnone.symm.trans hcopy
    exact absurd (Finmap.mem_keys.mpr hw) hpend
  | @reject pid p e hp hpc hm hc =>
    exact forall_put (p := { p with pc := .abort }) ho
      ((ho pid p hp).of_pc (by simp [PC.active]) (by simp [PC.committing]))
  | @page pid p e todo page hp hpc hpage =>
    have hstored := ho pid p hp
    have hpend : insert page (todo.erase page) = p.pc.pending := by
      rw [Finset.insert_erase hpage,hpc]; rfl
    refine forall_put ho ⟨fun _ => hstored.copied (by rw [hpc]; trivial),
      fun _ page' c hcopy hout => ?_⟩
    rw [PC.pending,hpend] at hout
    exact hstored.delivered (by rw [hpc]; trivial) page' c hcopy hout
  | @memcpy pid p e todo page part hp hpc =>
    have hcom : p.pc.committing := by rw [hpc]; trivial
    have hpage : page ∈ p.pc.pending := by simp [hpc,PC.pending]
    have hheap := ((hs.each pid p hp).heapPage hpage).1
    intro q r hr
    by_cases hq : q = pid
    · subst q
      obtain rfl : p = r := Option.some.inj (hp.symm.trans hr)
      refine ⟨(ho pid p hp).copied,fun _ page' c hcopy hout a ha => ?_⟩
      have hne : pageOf a ≠ page := fun h => hout (ha ▸ h ▸ hpage)
      simpa [State.write,S.layout.memcpy_globalPos hheap,hne] using
        (ho pid p hp).delivered hcom page' c hcopy hout a ha
    · exact (ho q r hr).reframe (hs.versions.alone hp hcom hr hq)
  | @publish pid p e todo page v hp hpc hv =>
    have hcom : p.pc.committing := by rw [hpc]; trivial
    have hpage : page ∈ p.pc.pending := by simp [hpc,PC.pending]
    have hheap := ((hs.each pid p hp).heapPage hpage).1
    refine forall_put_ne (s := s.write _) (p := { p with pc := .commit e todo })
      (fun q r hq hr => (ho q r hr).reframe (hs.versions.alone hp hcom hr hq))
      ⟨fun _ => (ho pid p hp).copied hcom.active,fun _ page' c hcopy hout a ha => ?_⟩
    simp only [State.put,State.write,S.layout.memcpy_globalPos hheap]
    by_cases hpp : pageOf a = page
    · have hview : p.view s.now.bytes a = c.bytes a := view_of_some (by rw [ha,hcopy]) _
      simp [hpp,hview]
    · have hout' : page' ∉ p.pc.pending := by
        rw [hpc]
        exact fun h => (Finset.mem_insert.mp h).elim (fun h => hpp (ha.trans h)) hout
      simpa [hpp] using (ho pid p hp).delivered hcom page' c hcopy hout' a ha
  | @unlock pid p e hp hpc =>
    exact forall_put (p := { p with
      toAttempt := p.toAttempt.updateHeap s.past.length
      pc := .ended e }) ho ⟨by simp [PC.active],by simp [PC.committing]⟩
  | @abort pid p hp hpc =>
    exact forall_put ho ⟨by simp [PC.active],by simp [PC.committing]⟩
  | @fork pid p e child f c hp hpc hf hc hn =>
    exact forall_fork ho ⟨by simp [PC.active],by simp [PC.committing]⟩
      ⟨by simp [PC.active],by simp [PC.committing]⟩
  | @joined pid p t k s₁ hp hpc hw =>
    obtain ⟨rfl,-⟩ | ⟨rfl,-⟩ := waitExited_spec hw <;>
    exact forall_put ho ⟨by simp [PC.active],by simp [PC.committing]⟩
  | forkFailed | join | interrupted | exit =>
    exact forall_put ho ⟨by simp [PC.active],by simp [PC.committing]⟩
  | reap => exact ho

theorem stored_reachable {S : System σ} {root : Nat} {x : σ} {file : Heap} {s : State σ}
    (h : Reachable (Step S) (initial root x file) s) {pid : Nat} {p : Proc σ}
    (hp : s.procs pid = some p) : Stored s.now.bytes p := by
  have hall : ∀ q p, s.procs q = some p → Stored s.now.bytes p := by
    apply h.invariant_within (fun t ht => sound_reachable ht)
    · intro q p hp
      obtain ⟨-,hpc⟩ := initial_procs hp
      exact ⟨by simp [hpc,PC.active],by simp [hpc,PC.committing]⟩
    · intro t a u ht ho hstep
      exact stored_step hstep ht ho
  exact hall pid p hp

/-- The tracking sets, the protections and the accesses of an attempt in lock-step. -/
structure InStep (L : Layout) (t : Attempt) : Prop where
  subset : ∀ page ∈ t.writeSetVersion, page ∈ t.readSetVersion
  inaccessible : ∀ page, L.HeapPage page →
    (t.prot page = .none ↔ page ∉ t.readSetVersion ∧ page ∉ t.writeSetVersion)
  readOnly : ∀ page, L.HeapPage page →
    (t.prot page = .read ↔ page ∈ t.readSetVersion ∧ page ∉ t.writeSetVersion)
  writable : ∀ page, L.HeapPage page → (t.prot page = .readWrite ↔ page ∈ t.writeSetVersion)
  observed : ∀ a b, .load a b ∈ t.log → pageOf a ∈ t.readSetVersion
  modified : ∀ a b, .store a b ∈ t.log → pageOf a ∈ t.writeSetVersion
  copied : ∀ page, t.copies page ≠ none → page ∈ t.writeSetVersion
  readEntry : ∀ page v, t.readSetVersion.lookup page = some v →
    v = version t.localPageVersion page
  writeEntry : ∀ page v, t.writeSetVersion.lookup page = some v →
    v = version t.localPageVersion page + 1

theorem Tracked.inStep {L : Layout} {t : Attempt} (h : Tracked L t)
    (stores : ∀ a b, .store a b ∈ t.log → t.copies (pageOf a) ≠ none) : InStep L t where
  subset := h.written
  inaccessible page _ := by
    rw [h.prot page]
    by_cases hw : page ∈ t.writeSetVersion
    · simp [hw]
    · by_cases hr : page ∈ t.readSetVersion <;> simp [hw,hr]
  readOnly page _ := by
    rw [h.prot page]
    by_cases hw : page ∈ t.writeSetVersion
    · simp [hw]
    · by_cases hr : page ∈ t.readSetVersion <;> simp [hw,hr]
  writable page _ := by
    refine ⟨h.mem_of_writable,fun hw => ?_⟩
    rw [h.prot page,if_pos hw]
  observed a b hlog := h.logged _ hlog
  modified a b hlog := h.copied _ (stores a b hlog)
  copied := h.copied
  readEntry := h.readVersion
  writeEntry := h.writeVersion

/-- From `AtomicBegin` to the validation the sets follow what the attempt does; the copies of
`CommitHeap` then read readable pages, and when it is done the file holds every page the
attempt stored to. -/
theorem tracking_lockstep (S : System σ) (root : Nat) (x : σ) (file : Heap) (s : State σ)
    (h : Reachable (Step S) (initial root x file) s) (pid : Nat) (p : Proc σ)
    (hp : s.procs pid = some p) :
    (p.pc.open → InStep S.layout p.toAttempt) ∧
    (∀ e todo page, p.pc = .copy e todo page → ∀ a, pageOf a = page → S.mayLoad p a) ∧
    ∀ e, p.pc = .commit e ∅ → ∀ a b, .store a b ∈ p.log → ∀ a', pageOf a' = pageOf a →
      s.now.bytes a' = p.view s.now.bytes a' := by
  have hlocal := (sound_reachable h).each pid p hp
  have hstored := stored_reachable h hp
  refine ⟨fun ho => ?_,fun e todo page hpc a ha => ?_,fun e hpc a b hlog a' ha => ?_⟩
  · exact (hlocal.tracked ho.active).inStep (hstored.copied ho.active)
  · have hpage : page ∈ p.pc.pending := by simp [hpc,PC.pending]
    obtain ⟨hheap,hw⟩ := hlocal.heapPage hpage
    have ht := hlocal.tracked (by rw [hpc]; trivial)
    refine ⟨hheap.inHeap ha,?_⟩
    rw [ha,ht.prot page,if_pos hw]
    decide
  · have hcopy := hstored.copied (by rw [hpc]; trivial) a b hlog
    obtain ⟨c,hc⟩ := Option.ne_none_iff_exists'.mp hcopy
    have hsame := hstored.delivered (by rw [hpc]; trivial) (pageOf a) c hc
      (by simp [hpc,PC.pending])
    rw [hsame a' ha,view_of_some (ha ▸ hc)]

def PC.copied : PC σ → Bool
  | .commit _ todo => todo = ∅
  | _ => false

theorem PC.copied_eq {pc : PC σ} (h : pc.copied = true) : ∃ e, pc = .commit e ∅ := by
  cases pc with
  | commit e todo => exact ⟨e,by rw [of_decide_eq_true h]⟩
  | _ => cases h

/-- The second thread has read and stored the byte that the first one is about to commit. -/
theorem tracking_lockstep_counter : ∃ (s : State Counter) (p r : Proc Counter),
    s.procs 3 = some p ∧ p.log = [.store 0x100000 1,.load 0x100000 0] ∧
    InStep .adjacent p.toAttempt ∧
    s.procs 2 = some r ∧ .store 0x100000 1 ∈ r.log ∧
    ∀ a, pageOf a = pageOf 0x100000 → s.now.bytes a = r.view s.now.bytes a := by
  obtain ⟨s,hs,hv⟩ := System.run_any counter (initial 1 .main fun _ => 0) (counterRun.take 23)
    (fun s => ((s.procs 3).any fun p => p.pc.open &&
      p.log = [.store 0x100000 1,.load 0x100000 0]) &&
      (s.procs 2).any fun r => r.log = [.store 0x100000 1,.load 0x100000 0] && r.pc.copied)
    (by decide +kernel)
  simp only [Bool.and_eq_true,decide_eq_true_eq,Option.any_eq_true] at hv
  obtain ⟨⟨p,hp,ho,hlog⟩,r,hr,hrlog,hrpc⟩ := hv
  obtain ⟨e,hpc⟩ := PC.copied_eq hrpc
  have hstep := tracking_lockstep counter 1 .main (fun _ => 0) s hs
  have hmem : .store 0x100000 1 ∈ r.log := by simp [hrlog]
  exact ⟨s,p,r,hp,hlog,(hstep 3 p hp).1 ho,hr,hmem,(hstep 2 r hr).2.2 e hpc _ _ hmem⟩

end GThread
