import GThread.Snapshot

/-! Page versions against the commit history: outside the critical sections the version of a
page is the number of transactions that wrote it, so one version stands for one contents. -/
namespace GThread
open Replay Transition
variable {σ : Type}

def State.writers (s : State σ) (page : Nat) : Nat := s.txs.countP fun tx => page ∈ tx.writes

theorem publish_settles {S : System σ} {s s' : State σ} {pid : Nat}
    (h : Step S s (pid,.publish) s') (hl : ∀ q p, s.procs q = some p → Local S p)
    (hv : Versions s) : ∃ page, s.pending page ∧ s'.txs = s.txs ∧
      s'.globalPageVersion =
        s.globalPageVersion.insert page (version s.globalPageVersion page + 1) ∧
      ∀ page', s'.pending page' ↔ s.pending page' ∧ page' ≠ page := by
  have hv' := versions_step h hl hv
  cases h with
  | @publish _ p e todo page v hp hpc hlook =>
    have hmutex := hv.holds pid p hp (by rw [hpc]; trivial)
    have hpend := hv.pending_iff hp hmutex
    have hpage : page ∈ p.pc.pending := by simp [hpc,PC.pending]
    have hlocal := ((hl pid p hp).tracked (by rw [hpc]; trivial)).writeVersion page v hlook
    have hcur := (hv.current pid p hp page hpage).trans (hv.counts page).symm
    obtain rfl : v = version s.globalPageVersion page + 1 := by rw [hlocal,hcur]
    refine ⟨page,(hpend page).mpr hpage,rfl,rfl,fun page' => ?_⟩
    have hpend' := hv'.pending_iff (p := { p with pc := .commit e todo })
      (by simp [State.put]) hmutex page'
    have hnot := (hl pid p hp).single e todo page hpc
    rw [hpend',hpend,hpc]
    simp only [PC.pending,Finset.mem_insert]
    constructor
    · exact fun hin => ⟨.inr hin,fun heq => hnot (heq ▸ hin)⟩
    · exact fun hin => hin.1.resolve_left hin.2

theorem pending_fork {S : System σ} {s s' : State σ} {pid child : Nat}
    (h : Step S s (pid,.fork child) s') (page : Nat) : s'.pending page ↔ s.pending page := by
  cases h with
  | @fork _ p e _ f c hp hpc hf hc hn =>
    have hparent : (s.put pid { p with
        predecessor := child
        pc := .atomicBegin (c child) }).pending page ↔ s.pending page :=
      pending_keep hp rfl (by simp [hpc,PC.pending]) page
    exact (pending_new hp hn rfl rfl page).trans hparent

/-- A step leaves the ledger alone, adds a transaction whose pages are all to be published, or
publishes one page. The version published is the current one plus one. -/
theorem ledger_step {S : System σ} {s s' : State σ} {pid : Nat} {act : Act}
    (h : Step S s (pid,act) s') (hl : ∀ q p, s.procs q = some p → Local S p) (hv : Versions s) :
    (s'.txs = s.txs ∧ s'.globalPageVersion = s.globalPageVersion ∧
      ∀ page, s'.pending page ↔ s.pending page) ∨
    (∃ p tx, s.procs pid = some p ∧ s.mutex = none ∧ tx.writes = p.writeSetVersion.keys ∧
      s'.txs = tx :: s.txs ∧ s'.globalPageVersion = s.globalPageVersion ∧
      ∀ page, s'.pending page ↔ page ∈ tx.writes) ∨
    ∃ page, s.pending page ∧ s'.txs = s.txs ∧
      s'.globalPageVersion =
        s.globalPageVersion.insert page (version s.globalPageVersion page + 1) ∧
      ∀ page', s'.pending page' ↔ s.pending page' ∧ page' ≠ page := by
  have hv' := versions_step h hl hv
  cases h with
  | @commit _ p e hp hpc hm hc =>
    refine .inr (.inl ⟨p,_,hp,hm,rfl,rfl,rfl,fun page => ?_⟩)
    exact hv'.pending_iff (p := { p with pc := .commit e p.writeSetVersion.keys })
      (by simp [State.put]) rfl page
  | @publish _ p e todo page v hp hpc hlook =>
    exact .inr (.inr (publish_settles (.publish hp hpc hlook) hl hv))
  | @fork _ p e child f c hp hpc hf hc hn =>
    exact .inl ⟨rfl,rfl,pending_fork (S := S) (.fork hp hpc hf hc hn)⟩
  | @waited _ p e s₁ hp hpc hw | @joined _ p t k s₁ hp hpc hw =>
    obtain ⟨rfl,-⟩ | ⟨rfl,-⟩ := waitExited_spec hw <;>
    exact .inl ⟨rfl,rfl,pending_keep hp rfl (by simp [hpc,PC.pending])⟩
  | @interrupted _ p q hp hq hu =>
    refine .inl ⟨rfl,rfl,pending_keep hp rfl ?_⟩
    obtain ⟨e,hpc,-⟩ | ⟨k,hpc⟩ := Proc.waitsFor_cases hq <;> simp [hpc,PC.pending]
  | @atomicEnd _ p e hp hpc he =>
    refine .inl ⟨rfl,rfl,pending_keep hp rfl ?_⟩
    unfold Proc.atomicEnd
    split <;> simp [hpc,PC.pending]
  | @page _ p e todo page hp hpc hpage =>
    refine .inl ⟨rfl,rfl,pending_keep hp rfl ?_⟩
    simp [hpc,PC.pending,Finset.insert_erase hpage]
  | memcpy | reap => exact .inl ⟨rfl,rfl,fun _ => .rfl⟩
  | load hp | store hp | fault hp => exact .inl ⟨rfl,rfl,pending_keep hp rfl rfl⟩
  | @unlock _ p e hp hpc =>
    exact .inl ⟨rfl,rfl,pending_keep (p := { p with
      toAttempt := p.toAttempt.updateHeap s.past.length
      pc := .ended e }) hp rfl (by simp [hpc,PC.pending])⟩
  | @reject _ p e hp hpc =>
    exact .inl ⟨rfl,rfl,pending_keep (p := { p with pc := .abort }) hp rfl
      (by simp [hpc,PC.pending])⟩
  | atomicBegin hp hpc | killed hp hpc | signaled hp hpc | abort hp hpc | forkFailed hp hpc
  | join hp hpc | exit hp hpc =>
    exact .inl ⟨rfl,rfl,pending_keep hp rfl (by simp [hpc,PC.pending,Proc.atomicBegin])⟩

theorem localPageVersion_step {S : System σ} {s s' : State σ} {x : Nat × Act}
    (h : Step S s x s') : ∀ q p', s'.procs q = some p' →
      (∃ r p, s.procs r = some p ∧ p'.localPageVersion = p.localPageVersion) ∨
      p'.localPageVersion = s.globalPageVersion := by
  have stay : ∀ q p', s.procs q = some p' →
      (∃ r p, s.procs r = some p ∧ p'.localPageVersion = p.localPageVersion) ∨
      p'.localPageVersion = s.globalPageVersion := fun q p' hp' => .inl ⟨q,p',hp',rfl⟩
  cases h with
  | atomicBegin hp hpc hm => exact forall_put stay (.inr rfl)
  | @fault pid p t a hp hpc ha hf =>
    refine forall_put stay (.inl ⟨pid,p,hp,?_⟩)
    obtain ⟨-,⟨-,rfl⟩ | ⟨-,rfl⟩⟩ := segfaultHandler_ok hf <;> rfl
  | @atomicEnd pid p e hp hpc he =>
    refine forall_put stay (.inl ⟨pid,p,hp,?_⟩)
    unfold Proc.atomicEnd
    split <;> rfl
  | @waited pid p e s₁ hp hpc hw | @joined pid p t k s₁ hp hpc hw =>
    obtain ⟨rfl,-⟩ | ⟨rfl,-⟩ := waitExited_spec hw <;>
    exact forall_put stay (.inl ⟨pid,p,hp,rfl⟩)
  | @fork pid p e child f c hp hpc hf hc hn =>
    exact forall_fork stay (.inl ⟨pid,p,hp,rfl⟩) (.inl ⟨pid,p,hp,rfl⟩)
  | memcpy | reap => exact stay
  | _ =>
    have hp := ‹s.procs _ = some _›
    exact forall_put stay (.inl ⟨_,_,hp,rfl⟩)

/-- While the mutex is held, only the end of the critical section frees it, and nothing is
validated. -/
theorem mutex_step {S : System σ} {s s' : State σ} {x : Nat × Act} (h : Step S s x s')
    (hv : Versions s) {q : Nat} (hm : s.mutex = some q) :
    (x = (q,.unlock) ∨ s'.mutex = some q) ∧ s'.txs = s.txs := by
  cases h with
  | atomicBegin hp hpc hfree | commit hp hpc hfree | reject hp hpc hfree =>
    cases hm.symm.trans hfree
  | @unlock pid p e hp hpc =>
    have hmutex := hv.holds pid p hp (by rw [hpc]; trivial)
    obtain rfl : q = pid := Option.some.inj (hm.symm.trans hmutex)
    exact ⟨.inl rfl,rfl⟩
  | waited _ _ hw | joined _ _ hw =>
    obtain ⟨rfl,-⟩ | ⟨rfl,-⟩ := waitExited_spec hw <;> exact ⟨.inr hm,rfl⟩
  | _ => exact ⟨.inr hm,rfl⟩

/-- The version of a page is the number of transactions that wrote it, but for those that have
not published it yet. -/
structure Counted (s : State σ) : Prop where
  settled : ∀ page, ¬ s.pending page → s.writers page = version s.globalPageVersion page
  pending : ∀ page, s.pending page → s.writers page = version s.globalPageVersion page + 1
  behind : ∀ q p, s.procs q = some p →
    ∀ page, version p.localPageVersion page ≤ version s.globalPageVersion page

theorem version_step {S : System σ} {s s' : State σ} {x : Nat × Act} (h : Step S s x s')
    (hs : Sound S s) (page : Nat) :
    version s.globalPageVersion page ≤ version s'.globalPageVersion page ∧
      (page ∈ s.globalPageVersion → page ∈ s'.globalPageVersion) := by
  obtain ⟨-,hg,-⟩ | ⟨-,-,-,-,-,-,hg,-⟩ | ⟨page',-,-,hg,-⟩ := ledger_step h hs.each hs.versions
  · rw [hg]
    exact ⟨le_rfl,id⟩
  · rw [hg]
    exact ⟨le_rfl,id⟩
  · rw [hg,version_insert]
    refine ⟨?_,fun hin => Finmap.mem_insert.mpr (.inr hin)⟩
    split
    · rename_i heq
      exact heq ▸ Nat.le_succ _
    · exact le_rfl

theorem counted_step {S : System σ} {s s' : State σ} {x : Nat × Act} (h : Step S s x s')
    (hs : Sound S s) (hc : Counted s) : Counted s' := by
  have hbehind : ∀ q p, s'.procs q = some p →
      ∀ page, version p.localPageVersion page ≤ version s'.globalPageVersion page := by
    intro q p' hp' page
    have hgrow := (version_step h hs page).1
    obtain ⟨r,p,hp,heq⟩ | heq := localPageVersion_step h q p' hp'
    · exact heq ▸ (hc.behind r p hp page).trans hgrow
    · exact heq ▸ hgrow
  obtain ⟨htxs,hg,hpend⟩ | ⟨p,tx,-,hm,-,htxs,hg,hpend⟩ | ⟨page,hpage,htxs,hg,hpend⟩ :=
    ledger_step h hs.each hs.versions
  · refine ⟨fun page hn => ?_,fun page hp => ?_,hbehind⟩
    · rw [State.writers,htxs,hg]
      exact hc.settled page fun hp => hn ((hpend page).mpr hp)
    · rw [State.writers,htxs,hg]
      exact hc.pending page ((hpend page).mp hp)
  · refine ⟨fun page hn => ?_,fun page hp => ?_,hbehind⟩
    · have hnot : page ∉ tx.writes := fun hin => hn ((hpend page).mpr hin)
      have hold := hc.settled page (hs.versions.not_pending hm page)
      simpa [State.writers,htxs,hg,hnot] using hold
    · have hin := (hpend page).mp hp
      have hold := hc.settled page (hs.versions.not_pending hm page)
      simpa [State.writers,htxs,hg,hin] using hold
  · refine ⟨fun page' hn => ?_,fun page' hp => ?_,hbehind⟩
    · rw [State.writers,htxs,hg,version_insert]
      split
      · rename_i heq
        subst heq
        exact hc.pending page' hpage
      · rename_i hne
        exact hc.settled page' fun hp => hn ((hpend page').mpr ⟨hp,hne⟩)
    · obtain ⟨hold,hne⟩ := (hpend page').mp hp
      rw [State.writers,htxs,hg,version_insert,if_neg hne]
      exact hc.pending page' hold

theorem counted_initial (root : Nat) (x : σ) (file : Heap) : Counted (initial root x file) := by
  refine ⟨fun _ _ => rfl,?_,?_⟩
  · intro page hpend
    obtain ⟨q,p,hp,hpage⟩ := hpend
    simp [(initial_procs hp).2,PC.pending] at hpage
  · exact forall_put (s := { initial root x file with procs := fun _ => none }) (by simp)
      fun _ => le_rfl

theorem counted_reachable {S : System σ} {root : Nat} {x : σ} {file : Heap} {s : State σ}
    (h : Reachable (Step S) (initial root x file) s) : Counted s :=
  h.invariant_within (fun _ ht => sound_reachable ht) (counted_initial root x file)
    fun _ _ _ ht hc hstep => counted_step hstep ht hc

theorem versioned_reachable {S : System σ} {s t : State σ} (hs : Sound S s)
    (h : Reachable (Step S) s t) {page : Nat} (hp : page ∈ s.globalPageVersion) :
    page ∈ t.globalPageVersion :=
  h.invariant_within (I := fun t => page ∈ t.globalPageVersion) (fun _ ht => hs.reachable ht) hp
    fun _ _ _ ht hin hstep => (version_step hstep ht page).2 hin

theorem now_mem_past {S : System σ} {s t : State σ} (h : Reachable (Step S) s t) :
    s.now ∈ t.now :: t.past := by
  refine h.invariant (I := fun t => s.now ∈ t.now :: t.past) List.mem_cons_self
    fun t a u hin hstep => ?_
  obtain ⟨hnow,hpast⟩ | hpast := moments_step hstep
  · rw [hnow,hpast]
    exact hin
  · rw [hpast]
    exact List.mem_cons_of_mem _ hin

theorem section_txs {S : System σ} {s t : State σ} {pid : Nat} (hs : Sound S s)
    (hm : s.mutex = some pid)
    (h : Reachable (Guarded (fun _ x => x ≠ (pid,.unlock)) (Step S)) s t) :
    t.mutex = some pid ∧ t.txs = s.txs := by
  refine h.invariant_within (I := fun t => t.mutex = some pid ∧ t.txs = s.txs)
    (fun _ ht => hs.reachable ht.forget) ⟨hm,rfl⟩ fun t a u ht hi hstep => ?_
  obtain ⟨hmutex,htxs⟩ := mutex_step hstep.2 ht.versions hi.1
  exact ⟨hmutex.resolve_left hstep.1,htxs.trans hi.2⟩

/-- What the versions say in a reachable state `s`, and from it on. -/
structure CountsCommits (S : System σ) (s : State σ) : Prop where
  counted : s.mutex = none → ∀ page, version s.globalPageVersion page = s.writers page
  bounded : ∀ page, version s.globalPageVersion page ≤ s.txs.length
  behind : ∀ q p, s.procs q = some p →
    ∀ page, version p.localPageVersion page ≤ version s.globalPageVersion page
  kept : ∀ t, Reachable (Step S) s t → ∀ page ∈ s.globalPageVersion, page ∈ t.globalPageVersion
  raised : ∀ pid p s' t u, s.procs pid = some p → Step S s (pid,.lock) s' →
    s'.mutex = some pid → Reachable (Guarded (fun _ x => x ≠ (pid,.unlock)) (Step S)) s' t →
    Step S t (pid,.unlock) u → ∀ page, version u.globalPageVersion page =
      version s.globalPageVersion page + if page ∈ p.writeSetVersion then 1 else 0
  distinct : s.mutex = none → ∀ t, Reachable (Step S) s t → t.mutex = none → ∀ page,
    version t.globalPageVersion page = version s.globalPageVersion page →
    ∀ a, pageOf a = page → t.now.bytes a = s.now.bytes a

theorem Counted.bounded {s : State σ} (h : Counted s) (page : Nat) :
    version s.globalPageVersion page ≤ s.txs.length := by
  have hle : s.writers page ≤ s.txs.length := List.countP_le_length
  by_cases hp : s.pending page
  · have := h.pending page hp
    omega
  · have := h.settled page hp
    omega

/-- Page versions count commits. While the mutex is free the version of a page is the number of
transactions that wrote it, which each commit raises by one for the pages of its write set and
for no others; no process works with a newer version, and two contents of a page that were
committed never have the same one. -/
theorem versions_count_commits (S : System σ) (root : Nat) (x : σ) (file : Heap) (s : State σ)
    (h : Reachable (Step S) (initial root x file) s) : CountsCommits S s := by
  have hs := sound_reachable h
  have hc := counted_reachable h
  have count {t : State σ} (ht : Reachable (Step S) s t) (hm : t.mutex = none) (page : Nat) :
      version t.globalPageVersion page = t.writers page :=
    have hr := h.trans ht
    ((counted_reachable hr).settled page ((sound_reachable hr).versions.not_pending hm page)).symm
  refine ⟨count (.refl s),hc.bounded,hc.behind,?_,?_,?_⟩
  · exact fun t ht page => versioned_reachable hs ht
  · intro pid p s' t u hp hlock hm' ht hunlock page
    have hs' : Reachable (Step S) s s' := (Reachable.refl s).tail hlock
    have hu : Reachable (Step S) s u := (hs'.trans ht.forget).tail hunlock
    obtain ⟨hmt,htxs⟩ := section_txs (sound_reachable (h.trans hs')) hm' ht
    have hfree : u.mutex = none ∧ u.txs = t.txs := by cases hunlock; exact ⟨rfl,rfl⟩
    cases hlock with
    | @commit _ r e hr hpc hm hcons =>
      obtain rfl : p = r := Option.some.inj (hp.symm.trans hr)
      rw [count hu hfree.1,count (.refl s) hm,State.writers,hfree.2,htxs,List.countP_cons]
      simp [State.writers,Finmap.mem_keys]
    | reject hr hpc hm hcons => cases hm.symm.trans hm'
  · intro hm t ht hmt page heq a ha
    have hrt := h.trans ht
    have hst := sound_reachable hrt
    have hcommits : s.now.commits page = t.now.commits page := by
      rw [← hs.versions.counts,← hst.versions.counts,heq]
    obtain hnow | hpast := List.mem_cons.mp (now_mem_past ht)
    · rw [hnow]
    · exact ((history_reachable hrt).same _ hpast page hcommits
        (hst.versions.not_pending hmt page) a ha).symm

theorem versions_count_commits_counter : ∃ s : State Counter, s.mutex = none ∧
    version s.globalPageVersion 0x100000 = 2 ∧ CountsCommits counter s := by
  obtain ⟨s,hs,hv⟩ := System.run_any counter (initial 1 .main fun _ => 0) counterRun
    (fun s => s.mutex = none && version s.globalPageVersion 0x100000 = 2) (by decide +kernel)
  simp only [Bool.and_eq_true,decide_eq_true_eq] at hv
  obtain ⟨hm,hversion⟩ := hv
  exact ⟨s,hm,hversion,versions_count_commits counter 1 .main (fun _ => 0) s hs⟩

end GThread
