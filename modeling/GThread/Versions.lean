import GThread.Tracking

/-! Page versions count commits. The version a commit publishes was computed from the
versions copied at `AtomicBegin`; it is one more than the current one because the page was
validated in the same critical section. -/
namespace GThread
open Replay Transition
variable {σ : Type}

theorem version_of_lookup {m : VersionMap} {page v : Nat} (h : m.lookup page = some v) :
    version m page = v := by simp [version,h]

theorem version_of_notMem {m : VersionMap} {page : Nat} (h : page ∉ m) : version m page = 0 := by
  simp [version,Finmap.lookup_eq_none.mpr h]

theorem version_insert (m : VersionMap) (page v page' : Nat) :
    version (m.insert page v) page' = if page' = page then v else version m page' := by
  by_cases h : page' = page
  · subst page'; simp [version]
  · simp [version,h,Finmap.lookup_insert_of_ne]

/-- The check is exact: it passes when no page of the read set has a newer version. -/
theorem isHeapConsistent_iff {L : Layout} {t : Attempt} {g : VersionMap} (ht : Tracked L t)
    (old : ∀ page, version t.localPageVersion page ≤ version g page) :
    isHeapConsistent t.readSetVersion g = true ↔
      ∀ page ∈ t.readSetVersion, version t.localPageVersion page = version g page := by
  simp only [isHeapConsistent,decide_eq_true_eq,Finmap.mem_keys]
  refine forall₂_congr fun page hp => ?_
  obtain ⟨v,hv⟩ := Finmap.mem_iff.mp hp
  have hlocal := ht.readVersion page v hv
  by_cases hg : page ∈ g
  · obtain ⟨u,hu⟩ := Finmap.mem_iff.mp hg
    have hglobal := version_of_lookup hu
    simp only [hg,hv,hu,forall_const,Option.some.injEq]
    omega
  · have h0 := version_of_notMem hg
    have := old page
    simp only [hg,false_imp_iff,true_iff]
    omega

structure Versions (s : State σ) : Prop where
  holder : ∀ q, s.mutex = some q → ∃ p, s.procs q = some p ∧ p.pc.committing
  holds : ∀ q p, s.procs q = some p → p.pc.committing → s.mutex = some q
  counts : ∀ page, version s.globalPageVersion page = s.now.commits page
  old : ∀ q p, s.procs q = some p → p.pc.active →
    ∀ page, version p.localPageVersion page ≤ s.now.commits page
  current : ∀ q p, s.procs q = some p →
    ∀ page ∈ p.pc.pending, version p.localPageVersion page = s.now.commits page

theorem Versions.move {s s' : State σ} {pid : Nat} {p : Proc σ} (h : Versions s)
    (procs : s'.procs = Function.update s.procs pid (some p))
    (holds : s'.mutex = some pid ↔ p.pc.committing)
    (others : ∀ q, q ≠ pid → (s'.mutex = some q ↔ s.mutex = some q))
    (counts : ∀ page, version s'.globalPageVersion page = s'.now.commits page)
    (grow : ∀ page, s.now.commits page ≤ s'.now.commits page)
    (still : ∀ q, q ≠ pid → s.mutex = some q → ∀ page, s'.now.commits page = s.now.commits page)
    (old : p.pc.active → ∀ page, version p.localPageVersion page ≤ s'.now.commits page)
    (current : ∀ page ∈ p.pc.pending, version p.localPageVersion page = s'.now.commits page) :
    Versions s' := by
  have each {I : Nat → Proc σ → Prop} (hs : ∀ q r, q ≠ pid → s.procs q = some r → I q r)
      (hp : I pid p) : ∀ q r, s'.procs q = some r → I q r := by
    intro q r hr
    by_cases hq : q = pid
    · subst q
      obtain rfl : p = r := by simpa [procs] using hr
      exact hp
    · exact hs q r hq (by simpa [procs,hq] using hr)
  refine ⟨?_,each ?_ holds.mpr,counts,each ?_ old,each ?_ current⟩
  · intro q hq
    by_cases hqp : q = pid
    · subst q
      exact ⟨p,by simp [procs],holds.mp hq⟩
    · obtain ⟨r,hr,hc⟩ := h.holder q ((others q hqp).mp hq)
      exact ⟨r,by simp [procs,hqp,hr],hc⟩
  · exact fun q r hq hr hc => (others q hq).mpr (h.holds q r hr hc)
  · exact fun q r hq hr ha page => (h.old q r hr ha page).trans (grow page)
  · intro q r hq hr page hpage
    have hm := h.holds q r hr (PC.committing_of_pending hpage)
    exact (h.current q r hr page hpage).trans (still q hq hm page).symm

theorem Versions.mutex_iff {s : State σ} (h : Versions s) {q : Nat} {p : Proc σ}
    (hp : s.procs q = some p) : s.mutex = some q ↔ p.pc.committing := by
  refine ⟨fun hm => ?_,h.holds q p hp⟩
  obtain ⟨r,hr,hc⟩ := h.holder q hm
  obtain rfl : p = r := Option.some.inj (hp.symm.trans hr)
  exact hc

theorem Versions.advance {s s' : State σ} {pid : Nat} {r p : Proc σ} (h : Versions s)
    (hr : s.procs pid = some r)
    (procs : s'.procs = Function.update s.procs pid (some p)) (mutex : s'.mutex = s.mutex)
    (global : s'.globalPageVersion = s.globalPageVersion)
    (commits : s'.now.commits = s.now.commits)
    (same : p.localPageVersion = r.localPageVersion)
    (committing : p.pc.committing ↔ r.pc.committing) (active : p.pc.active → r.pc.active)
    (pending : p.pc.pending ⊆ r.pc.pending) : Versions s' := by
  refine h.move procs ?_ ?_ ?_ ?_ ?_ ?_ ?_
  · rw [mutex,committing]; exact h.mutex_iff hr
  · intro q _; rw [mutex]
  · rw [global,commits]; exact h.counts
  · intro page; rw [commits]
  · intro _ _ _ page; rw [commits]
  · rw [same,commits]; exact fun ha => h.old pid r hr (active ha)
  · rw [same,commits]; exact fun page hp => h.current pid r hr page (pending hp)

theorem Versions.outside {s s' : State σ} {pid : Nat} {r p : Proc σ} (h : Versions s)
    (hr : s.procs pid = some r)
    (procs : s'.procs = Function.update s.procs pid (some p)) (mutex : s'.mutex = s.mutex)
    (global : s'.globalPageVersion = s.globalPageVersion)
    (commits : s'.now.commits = s.now.commits)
    (same : p.localPageVersion = r.localPageVersion)
    (before : ¬ r.pc.committing) (after : ¬ p.pc.active) : Versions s' :=
  h.advance hr procs mutex global commits same
    (iff_of_false (fun hc => after hc.active) before) (fun ha => absurd ha after)
    fun _ hpage => absurd (PC.committing_of_pending hpage).active after

/-- The published version is one more than the current one: the page was validated and the mutex
is held since. -/
theorem versions_publish {S : System σ} {s s' : State σ} {pid : Nat}
    (h : Step S s (pid,.publish) s') (hl : ∀ q p, s.procs q = some p → Local S p)
    (hv : Versions s) : Versions s' := by
  cases h with
  | @publish _ p e todo page v hp hpc hlook =>
    have hactive : p.pc.active := by rw [hpc]; trivial
    have hcur : version p.localPageVersion page = s.now.commits page :=
      hv.current pid p hp page (by simp [hpc,PC.pending])
    have hval := ((hl pid p hp).tracked hactive).writeVersion page v hlook
    have hmutex := hv.holds pid p hp (by rw [hpc]; trivial)
    have hle : ∀ page', s.now.commits page' ≤
        Function.update s.now.commits page (s.now.commits page + 1) page' := by
      intro page'
      by_cases hpp : page' = page
      · subst page'; simp
      · simp [hpp]
    refine hv.move (p := { p with pc := .commit e todo }) rfl (iff_of_true hmutex trivial)
      (fun _ _ => .rfl) ?_ hle ?_
      (fun _ page' => (hv.old pid p hp hactive page').trans (hle page')) ?_
    · intro page'
      rw [version_insert]
      by_cases hpp : page' = page
      · subst page'; simp [State.write,State.put,hval,hcur]
      · simp [State.write,State.put,hpp,hv.counts page']
    · intro q hq hm
      exact absurd (Option.some.inj (hm.symm.trans hmutex)) hq
    · intro page' hpage'
      have hne : page' ≠ page := fun h =>
        (hl pid p hp).single e todo page hpc (h ▸ hpage')
      have := hv.current pid p hp page' (by
        rw [hpc]; exact Finset.mem_insert_of_mem hpage')
      simpa [State.put,State.write,hne] using this

theorem versions_step {S : System σ} {s s' : State σ} {x : Nat × Act} (h : Step S s x s')
    (hl : ∀ q p, s.procs q = some p → Local S p) (hv : Versions s) : Versions s' := by
  cases h with
  | @atomicBegin pid p c hp hpc hm =>
    refine hv.move rfl ?_ (fun _ _ => .rfl) hv.counts (fun _ => le_rfl) (fun _ _ _ _ => rfl)
      (fun _ page => (hv.counts page).le) ?_
    · simp [State.put,hm,Proc.atomicBegin,PC.committing]
    · simp [Proc.atomicBegin,PC.pending]
  | @load pid p a k i m hp hpc hc ha hm =>
    exact hv.advance hp rfl rfl rfl rfl rfl .rfl id subset_rfl
  | @store pid p a b k i m hp hpc hc ha hm =>
    exact hv.advance hp rfl rfl rfl rfl rfl .rfl id subset_rfl
  | @fault pid p t a hp hpc ha hf =>
    refine hv.advance hp rfl rfl rfl rfl ?_ .rfl id subset_rfl
    obtain ⟨-,⟨-,rfl⟩ | ⟨-,rfl⟩⟩ := segfaultHandler_ok hf <;> rfl
  | @killed pid p _ _ hp hpc | @signaled pid p _ hp hpc =>
    exact hv.outside hp rfl rfl rfl rfl rfl (by simp [hpc,PC.committing]) id
  | @atomicEnd pid p e hp hpc he =>
    unfold Proc.atomicEnd
    split
    · exact hv.outside hp rfl rfl rfl rfl rfl (by simp [hpc,PC.committing]) id
    · exact hv.advance hp rfl rfl rfl rfl rfl (by simp [hpc,PC.committing])
        (by simp [hpc,PC.active]) (by simp [PC.pending])
  | @waited pid p e s₁ hp hpc hw =>
    obtain ⟨rfl,-⟩ | ⟨rfl,-⟩ := waitExited_spec hw <;>
    exact hv.advance hp rfl rfl rfl rfl rfl (by simp [hpc,PC.committing])
      (by simp [hpc,PC.active]) (by simp [PC.pending])
  | @commit pid p e hp hpc hm hc =>
    have hactive : p.pc.active := by rw [hpc]; trivial
    have ht := (hl pid p hp).tracked hactive
    have hsame := (isHeapConsistent_iff ht fun page =>
      (hv.old pid p hp hactive page).trans (hv.counts page).ge).mp hc
    refine hv.move (p := { p with pc := .commit e p.writeSetVersion.keys }) rfl
      (iff_of_true rfl trivial) ?_ hv.counts (fun _ => le_rfl) (fun _ _ _ _ => rfl)
      (fun _ => hv.old pid p hp hactive) ?_
    · intro q hq
      simp [hm,Ne.symm hq]
    · intro page hpage
      have hw : page ∈ p.writeSetVersion := Finmap.mem_keys.mp hpage
      exact (hsame page (ht.written page hw)).trans (hv.counts page)
  | @reject pid p e hp hpc hm hc =>
    exact hv.outside hp rfl rfl rfl rfl rfl (by simp [hpc,PC.committing]) id
  | @page pid p e todo page hp hpc hpage =>
    refine hv.advance hp rfl rfl rfl rfl rfl (by simp [hpc,PC.committing])
      (by simp [hpc,PC.active]) ?_
    rw [hpc]
    exact (Finset.insert_erase hpage).subset
  | @memcpy pid p e todo page part hp hpc =>
    exact hv.advance hp (Function.update_eq_self_iff.mpr hp.symm).symm rfl rfl rfl rfl .rfl id
      subset_rfl
  | @publish pid p e todo page v hp hpc hlook =>
    exact versions_publish (.publish hp hpc hlook) hl hv
  | @unlock pid p e hp hpc =>
    have hmutex := hv.holds pid p hp (by rw [hpc]; trivial)
    refine hv.move (p := { p with
      toAttempt := p.toAttempt.updateHeap s.past.length
      pc := .ended e }) rfl (by simp [PC.committing]) ?_ hv.counts (fun _ => le_rfl)
      (fun _ _ _ _ => rfl) (fun ha => ha.elim) (by simp [PC.pending])
    intro q hq
    simp [hmutex,Ne.symm hq]
  | @abort pid p hp hpc =>
    exact hv.outside hp rfl rfl rfl rfl rfl (by simp [hpc,PC.committing]) id
  | @fork pid p e child f c hp hpc hf hc hn =>
    have hparent : Versions (s.put pid
        { p with predecessor := child, pc := .atomicBegin (c child) }) :=
      hv.outside hp rfl rfl rfl rfl rfl (by simp [hpc,PC.committing]) id
    have hfree : s.mutex ≠ some child := by
      intro hm
      obtain ⟨r,hr,-⟩ := hv.holder child hm
      simp [hn] at hr
    exact hparent.move rfl (iff_of_false hfree (by simp [PC.committing])) (fun _ _ => .rfl)
      hv.counts (fun _ => le_rfl) (fun _ _ _ _ => rfl) (by simp [PC.active])
      (by simp [PC.pending])
  | @forkFailed pid p e y hp hpc hf =>
    exact hv.outside hp rfl rfl rfl rfl rfl (by simp [hpc,PC.committing]) id
  | @join pid p t k hp hpc =>
    exact hv.outside hp rfl rfl rfl rfl rfl (by simp [hpc,PC.committing]) id
  | @joined pid p t k s₁ hp hpc hw =>
    obtain ⟨rfl,-⟩ | ⟨rfl,-⟩ := waitExited_spec hw <;>
    exact hv.outside hp rfl rfl rfl rfl rfl (by simp [hpc,PC.committing]) id
  | @interrupted pid p q hp hq hu =>
    refine hv.outside hp rfl rfl rfl rfl rfl ?_ id
    obtain ⟨e,hpc,-⟩ | ⟨k,hpc⟩ := Proc.waitsFor_cases hq <;> simp [hpc,PC.committing]
  | @exit pid p hp hpc =>
    exact hv.outside hp rfl rfl rfl rfl rfl (by simp [hpc,PC.committing]) id
  | @reap pid p hp he ho =>
    exact hv.advance hp (Function.update_eq_self_iff.mpr hp.symm).symm rfl rfl rfl rfl .rfl id
      subset_rfl

end GThread
