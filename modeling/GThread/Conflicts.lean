import GThread.Versions

/-! Validation is exact: a page has a newer version, or is about to get one, exactly when a
transaction validated since `AtomicBegin` wrote it. -/
namespace GThread
open Replay Transition
variable {σ : Type}

def State.since (s : State σ) (p : Proc σ) : List (Tx σ) :=
  s.txs.take (s.txs.length - p.begun)

theorem since_cons {s s' : State σ} {p p' : Proc σ} {tx : Tx σ} (txs : s'.txs = tx :: s.txs)
    (begun : p'.begun = p.begun) (h : p.begun ≤ s.txs.length) :
    s'.since p' = tx :: s.since p := by
  have hlen : s.txs.length + 1 - p.begun = s.txs.length - p.begun + 1 := by omega
  rw [State.since,txs,begun,List.length_cons,hlen,List.take_succ_cons,State.since]

/-- Some process has validated a write of `page` and not yet published it. -/
def State.pending (s : State σ) (page : Nat) : Prop :=
  ∃ q p, s.procs q = some p ∧ page ∈ p.pc.pending

/-- No transaction validated since `p` began wrote a page that `p` has read. -/
def State.undisturbed (s : State σ) (p : Proc σ) : Prop :=
  ∀ tx ∈ s.since p, ∀ page ∈ tx.writes, page ∉ p.readSetVersion

structure Conflicts (s : State σ) : Prop where
  begun : ∀ q p, s.procs q = some p → p.pc.active → p.begun ≤ s.txs.length
  conflict : ∀ q p, s.procs q = some p → p.pc.open → ∀ page,
    (∃ tx ∈ s.since p, page ∈ tx.writes) ↔
      version p.localPageVersion page ≠ s.now.commits page ∨ s.pending page

theorem Versions.not_pending {s : State σ} (h : Versions s) (hm : s.mutex = none) (page : Nat) :
    ¬ s.pending page := by
  intro hpend
  obtain ⟨q,p,hp,hpage⟩ := hpend
  cases hm.symm.trans (h.holds q p hp (PC.committing_of_pending hpage))

theorem Versions.pending_iff {s : State σ} (h : Versions s) {q : Nat} {p : Proc σ}
    (hp : s.procs q = some p) (hm : s.mutex = some q) (page : Nat) :
    s.pending page ↔ page ∈ p.pc.pending := by
  refine ⟨?_,fun hpage => ⟨q,p,hp,hpage⟩⟩
  intro hpend
  obtain ⟨q',p',hp',hpage⟩ := hpend
  obtain rfl : q = q' := Option.some.inj
    (hm.symm.trans (h.holds q' p' hp' (PC.committing_of_pending hpage)))
  obtain rfl : p = p' := Option.some.inj (hp.symm.trans hp')
  exact hpage

theorem pending_update {s s' : State σ} {pid : Nat} {p : Proc σ}
    (procs : s'.procs = Function.update s.procs pid (some p))
    (old : ∀ r, s.procs pid = some r → r.pc.pending = p.pc.pending)
    (new : s.procs pid = none → p.pc.pending = ∅) (page : Nat) :
    s'.pending page ↔ s.pending page := by
  constructor
  · intro hpend
    obtain ⟨q,r,hr,hpage⟩ := hpend
    by_cases hq : q = pid
    · subst q
      obtain rfl : p = r := by simpa [procs] using hr
      cases hp : s.procs pid with
      | none => simp [new hp] at hpage
      | some r => exact ⟨pid,r,hp,old r hp ▸ hpage⟩
    · exact ⟨q,r,by simpa [procs,hq] using hr,hpage⟩
  · intro hpend
    obtain ⟨q,r,hr,hpage⟩ := hpend
    by_cases hq : q = pid
    · subst q
      exact ⟨pid,p,by simp [procs],old r hr ▸ hpage⟩
    · exact ⟨q,r,by simpa [procs,hq] using hr,hpage⟩

theorem pending_keep {s s' : State σ} {pid : Nat} {r p : Proc σ} (hr : s.procs pid = some r)
    (procs : s'.procs = Function.update s.procs pid (some p))
    (pending : r.pc.pending = p.pc.pending) (page : Nat) : s'.pending page ↔ s.pending page := by
  refine pending_update procs ?_ ?_ page
  · intro r' hr'
    obtain rfl : r = r' := Option.some.inj (hr.symm.trans hr')
    exact pending
  · intro hn; simp [hr] at hn

theorem pending_new {s s' : State σ} {pid child : Nat} {r q p : Proc σ}
    (hr : s.procs pid = some r) (hn : s.procs child = none)
    (procs : s'.procs = Function.update (s.put pid q).procs child (some p))
    (hp : p.pc.pending = ∅) (page : Nat) : s'.pending page ↔ (s.put pid q).pending page := by
  refine pending_update procs ?_ (fun _ => hp) page
  intro t ht
  have hne : child ≠ pid := (Processes.ne_of_none hr hn).symm
  simp [State.put,hne,hn] at ht

theorem Conflicts.advance {s s' : State σ} {pid : Nat} {p : Proc σ} (h : Conflicts s)
    (procs : s'.procs = Function.update s.procs pid (some p)) (txs : s'.txs = s.txs)
    (commits : s'.now.commits = s.now.commits)
    (pending : ∀ page, s'.pending page ↔ s.pending page)
    (same : p.pc.active → ∃ r, s.procs pid = some r ∧ r.pc.active ∧
      (p.pc.open → r.pc.open) ∧ p.begun = r.begun ∧
      p.localPageVersion = r.localPageVersion) : Conflicts s' := by
  constructor
  · intro q r hr ha
    rw [txs]
    by_cases hq : q = pid
    · subst q
      obtain rfl : p = r := by simpa [procs] using hr
      obtain ⟨r,hr,hra,-,hb,-⟩ := same ha
      exact hb ▸ h.begun pid r hr hra
    · exact h.begun q r (by simpa [procs,hq] using hr) ha
  · intro q r hr ho page
    rw [commits,pending,State.since,txs]
    by_cases hq : q = pid
    · subst q
      obtain rfl : p = r := by simpa [procs] using hr
      obtain ⟨r,hr,-,hro,hb,hl⟩ := same ho.active
      rw [hb,hl]
      exact h.conflict pid r hr (hro ho) page
    · exact h.conflict q r (by simpa [procs,hq] using hr) ho page

theorem Conflicts.keep {s s' : State σ} {pid : Nat} {r p : Proc σ} (h : Conflicts s)
    (hr : s.procs pid = some r) (procs : s'.procs = Function.update s.procs pid (some p))
    (txs : s'.txs = s.txs) (commits : s'.now.commits = s.now.commits)
    (pending : r.pc.pending = p.pc.pending)
    (same : p.pc.active → r.pc.active ∧ (p.pc.open → r.pc.open) ∧ p.begun = r.begun ∧
      p.localPageVersion = r.localPageVersion) : Conflicts s' :=
  h.advance procs txs commits (pending_keep hr procs pending) fun ha => ⟨r,hr,same ha⟩

/-- A validated transaction is newer than the attempts of the others; its pages are pending. -/
theorem conflicts_lock {S : System σ} {s s' : State σ} {pid : Nat}
    (h : Step S s (pid,.lock) s') (hl : ∀ q p, s.procs q = some p → Local S p)
    (hv : Versions s) (hc : Conflicts s) : Conflicts s' := by
  have hv' := versions_step h hl hv
  cases h with
  | @commit _ p e hp hpc hm hcons =>
    have hpend : ∀ page, _ ↔ _ := fun page =>
      hv'.pending_iff (q := pid) (p := { p with pc := .commit e p.writeSetVersion.keys })
        (by simp [State.put]) rfl page
    constructor
    · exact forall_put (p := { p with pc := .commit e p.writeSetVersion.keys })
        (fun q r hr ha => (hc.begun q r hr ha).trans (Nat.le_succ _))
        fun _ => (hc.begun pid p hp (by rw [hpc]; trivial)).trans (Nat.le_succ _)
    · refine forall_put (p := { p with pc := .commit e p.writeSetVersion.keys })
        (fun q r hr ho page => ?_) fun ho => ho.elim
      have hold := hc.conflict q r hr ho page
      simp only [hv.not_pending hm page,or_false] at hold
      rw [hpend,since_cons rfl rfl (hc.begun q r hr ho.active)]
      simp only [List.mem_cons,exists_eq_or_imp,PC.pending]
      rw [hold,or_comm]
      rfl
  | @reject _ p e hp hpc hm hcons =>
    exact hc.keep hp rfl rfl rfl (by simp [hpc,PC.pending]) fun h => h.elim

theorem conflicts_publish {S : System σ} {s s' : State σ} {pid : Nat}
    (h : Step S s (pid,.publish) s') (hl : ∀ q p, s.procs q = some p → Local S p)
    (hv : Versions s) (hc : Conflicts s) : Conflicts s' := by
  have hv' := versions_step h hl hv
  cases h with
  | @publish _ p e todo page v hp hpc hlook =>
    have hmutex := hv.holds pid p hp (by rw [hpc]; trivial)
    have hpend' : ∀ page', _ ↔ _ := fun page' =>
      hv'.pending_iff (q := pid) (p := { p with pc := .commit e todo }) (by simp [State.put])
        hmutex page'
    have hpend := hv.pending_iff hp hmutex
    constructor
    · exact forall_put (p := { p with pc := .commit e todo }) (s := s.write _) hc.begun
        fun _ => hc.begun pid p hp (by rw [hpc]; trivial)
    · refine forall_put (p := { p with pc := .commit e todo }) (s := s.write _)
        (fun q r hr ho page' => ?_) fun ho => ho.elim
      have hold := hc.conflict q r hr ho page'
      have hle := hv.old q r hr ho.active page'
      rw [hpend,hpc] at hold
      rw [hpend']
      refine Iff.trans hold ?_
      by_cases hpage : page' = page
      · subst page'
        have hlt : version r.localPageVersion page ≠ s.now.commits page + 1 := by omega
        simp [PC.pending,State.put,State.write,hlt]
      · simp [PC.pending,State.put,State.write,hpage]

theorem conflicts_step {S : System σ} {s s' : State σ} {x : Nat × Act} (h : Step S s x s')
    (hl : ∀ q p, s.procs q = some p → Local S p) (hv : Versions s) (hc : Conflicts s) :
    Conflicts s' := by
  cases h with
  | @atomicBegin pid p c hp hpc hm =>
    have hpend : ∀ page, (s.put pid (p.atomicBegin c s.globalPageVersion s.txs.length)).pending
        page ↔ s.pending page := by
      refine pending_update rfl (fun r hr => ?_) (by simp [hp])
      cases hp.symm.trans hr
      simp [hpc,PC.pending,Proc.atomicBegin]
    constructor
    · exact forall_put hc.begun fun _ => le_rfl
    · refine forall_put (fun q r hr ho page => ?_) fun _ page => ?_
      · rw [hpend]; exact hc.conflict q r hr ho page
      · rw [hpend]
        simp [State.since,State.put,Proc.atomicBegin,Attempt.atomicBegin,hv.counts page,
          hv.not_pending hm page]
  | @load pid p a k i m hp hpc _ ha hm =>
    exact hc.keep hp rfl rfl rfl rfl fun h => ⟨h,id,rfl,rfl⟩
  | @store pid p a b k i m hp hpc _ ha hm =>
    exact hc.keep hp rfl rfl rfl rfl fun h => ⟨h,id,rfl,rfl⟩
  | @fault pid p t a hp hpc ha hf =>
    refine hc.keep hp rfl rfl rfl rfl fun h => ⟨h,id,?_⟩
    obtain ⟨-,⟨-,rfl⟩ | ⟨-,rfl⟩⟩ := segfaultHandler_ok hf <;> exact ⟨rfl,rfl⟩
  | @killed pid p _ _ hp hpc | @signaled pid p _ hp hpc =>
    exact hc.keep hp rfl rfl rfl (by simp [hpc,PC.pending]) fun h => h.elim
  | @atomicEnd pid p e hp hpc he =>
    unfold Proc.atomicEnd
    split
    · exact hc.keep hp rfl rfl rfl (by simp [hpc,PC.pending]) fun h => h.elim
    · exact hc.keep hp rfl rfl rfl (by simp [hpc,PC.pending])
        fun _ => ⟨by rw [hpc]; trivial,fun _ => by rw [hpc]; trivial,rfl,rfl⟩
  | @waited pid p e s₁ hp hpc hw =>
    obtain ⟨rfl,-⟩ | ⟨rfl,-⟩ := waitExited_spec hw <;>
    exact hc.keep hp rfl rfl rfl (by simp [hpc,PC.pending])
      fun _ => ⟨by rw [hpc]; trivial,fun _ => by rw [hpc]; trivial,rfl,rfl⟩
  | @commit pid p e hp hpc hm hcons => exact conflicts_lock (.commit hp hpc hm hcons) hl hv hc
  | @reject pid p e hp hpc hm hcons => exact conflicts_lock (.reject hp hpc hm hcons) hl hv hc
  | @page pid p e todo page hp hpc hpage =>
    refine hc.keep hp rfl rfl rfl ?_
      fun _ => ⟨by rw [hpc]; trivial,fun h => h.elim,rfl,rfl⟩
    simp [hpc,PC.pending,Finset.insert_erase hpage]
  | @memcpy pid p e todo page part hp hpc =>
    exact hc.keep hp (Function.update_eq_self_iff.mpr hp.symm).symm rfl rfl rfl
      fun h => ⟨h,id,rfl,rfl⟩
  | @publish pid p e todo page v hp hpc hlook =>
    exact conflicts_publish (.publish hp hpc hlook) hl hv hc
  | @unlock pid p e hp hpc =>
    exact hc.keep (p := { p with
      toAttempt := p.toAttempt.updateHeap s.past.length
      pc := .ended e }) hp rfl rfl rfl (by simp [hpc,PC.pending]) fun h => h.elim
  | @abort pid p hp hpc =>
    exact hc.keep hp rfl rfl rfl (by simp [hpc,PC.pending]) fun h => h.elim
  | @fork pid p e child f c hp hpc hf hc0 hn =>
    have hparent : Conflicts (s.put pid
        { p with predecessor := child, pc := .atomicBegin (c child) }) :=
      hc.keep hp rfl rfl rfl (by simp [hpc,PC.pending]) fun h => h.elim
    exact hparent.advance rfl rfl rfl (pending_new hp hn rfl rfl) fun h => h.elim
  | @forkFailed pid p e y hp hpc hf =>
    exact hc.keep hp rfl rfl rfl (by simp [hpc,PC.pending]) fun h => h.elim
  | @join pid p t k hp hpc =>
    exact hc.keep hp rfl rfl rfl (by simp [hpc,PC.pending]) fun h => h.elim
  | @joined pid p t k s₁ hp hpc hw =>
    obtain ⟨rfl,-⟩ | ⟨rfl,-⟩ := waitExited_spec hw <;>
    exact hc.keep hp rfl rfl rfl (by simp [hpc,PC.pending]) fun h => h.elim
  | @interrupted pid p q hp hq hu =>
    refine hc.keep hp rfl rfl rfl ?_ fun h => h.elim
    obtain ⟨e,hpc,-⟩ | ⟨k,hpc⟩ := Proc.waitsFor_cases hq <;> simp [hpc,PC.pending]
  | @exit pid p hp hpc =>
    exact hc.keep hp rfl rfl rfl (by simp [hpc,PC.pending]) fun h => h.elim
  | @reap pid p hp he ho =>
    exact hc.keep hp (Function.update_eq_self_iff.mpr hp.symm).symm rfl rfl rfl
      fun h => ⟨h,id,rfl,rfl⟩

end GThread
