import GThread.Conflicts
import GThread.Execute

/-! Committed transactions are serializable in the order of their validation. Three things
carry the proof: an attempt that nobody disturbed is a run of its code alone on the current
file, the private mapping being its memory; validation passes only undisturbed attempts; and
while a commit is under way the file and the mapping of the committer together hold the
memory it leads to. -/
namespace GThread
open Replay Transition
variable {σ : Type}

theorem System.shown_live {S : System σ} (hlive : S.live = true) {s : State σ} {p : Proc σ}
    {i : Nat} {m : Moment} (h : S.shown s p i = some m) : m = s.now := by
  unfold System.shown at h
  split at h
  · rename_i hi
    obtain rfl := hi.1 hlive
    simpa using h.symm
  · cases h

theorem view_of_none {t : Attempt} {a : Nat} (h : t.copies (pageOf a) = none) (file : Heap) :
    t.view file a = file a := by simp [Attempt.view,h]

theorem view_of_some {t : Attempt} {a : Nat} {c : PrivatePage}
    (h : t.copies (pageOf a) = some c) (file : Heap) : t.view file a = c.bytes a := by
  simp [Attempt.view,h]

theorem view_clean {t : Attempt} (h : t.copies = fun _ => none) (file : Heap) :
    t.view file = file := by
  funext a
  exact view_of_none (by rw [h]) file

theorem view_store (t : Attempt) (m : Moment) (a : Nat) (b : Byte) :
    (t.store m a b).view m.bytes = Function.update (t.view m.bytes) a b := by
  funext c
  by_cases hpage : pageOf c = pageOf a
  · by_cases hca : c = a
    · subst c; simp [Attempt.view,Attempt.store]
    · cases ht : t.copies (pageOf a) <;> simp [Attempt.view,Attempt.store,hpage,hca,ht]
  · have hca : c ≠ a := fun h => hpage (h ▸ rfl)
    simp [Attempt.view,Attempt.store,hpage,hca]

/-- The part of a page that `memcpy` has copied does not show in the copier's own view. -/
theorem view_memcpy {L : Layout} (t : Attempt) {page : Nat} (hp : L.HeapPage page)
    (part : Nat → Bool) (file : Heap) :
    t.view (L.memcpy (L.globalPos page) page part (t.view file) file) = t.view file := by
  funext a
  cases hc : t.copies (pageOf a) with
  | none => simp [view_of_none hc,L.memcpy_globalPos hp]
  | some c => rw [view_of_some hc,view_of_some hc]

/-- An attempt depends on the pages of its read set only. -/
theorem Tracked.reframe {L : Layout} {t : Attempt} (ht : Tracked L t) {op : σ → Op Nat Byte σ}
    {x y : σ} {file file' : Heap} (h : Exec op x file t.log y (t.view file))
    (agree : ∀ a, pageOf a ∈ t.readSetVersion → file' a = file a) :
    Exec op x file' t.log y (t.view file') := by
  obtain ⟨g,he,hin,hout⟩ := h.frame (A := {a | pageOf a ∈ t.readSetVersion}) ht.logged agree
  convert he using 1
  funext a
  by_cases ha : pageOf a ∈ t.readSetVersion
  · rw [hin a ha]
    cases hc : t.copies (pageOf a) with
    | none => rw [view_of_none hc,view_of_none hc,agree a ha]
    | some c => rw [view_of_some hc,view_of_some hc]
  · have hc : t.copies (pageOf a) = none := by
      by_contra hc
      exact ha (ht.written _ (ht.copied _ hc))
    rw [hout a ha,view_of_none hc]

/-- Under the mutex the check passes exactly the undisturbed attempts. -/
theorem consistent_iff {S : System σ} {s : State σ} {pid : Nat} {p : Proc σ}
    (hl : Local S p) (hv : Versions s) (hc : Conflicts s) (hp : s.procs pid = some p)
    (ho : p.pc.open) (hm : s.mutex = none) :
    isHeapConsistent p.readSetVersion s.globalPageVersion = true ↔ s.undisturbed p := by
  rw [isHeapConsistent_iff (hl.tracked ho.active) fun page =>
    (hv.old pid p hp ho.active page).trans (hv.counts page).ge]
  have hiff := hc.conflict pid p hp ho
  simp only [hv.not_pending hm,or_false] at hiff
  constructor
  · intro h tx htx page hw hr
    exact (hiff page).mp ⟨tx,htx,hw⟩ ((h page hr).trans (hv.counts page))
  · intro h page hr
    by_contra hne
    rw [hv.counts] at hne
    obtain ⟨tx,htx,hw⟩ := (hiff page).mpr hne
    exact h tx htx page hw hr

structure Alone (S : System σ) (file : Heap) (p : Proc σ) : Prop where
  exec : Exec S.op p.context.next file p.log p.cur (p.view file)
  seen : ∀ r ∈ p.seen, file r.addr = r.value

structure Serialized (S : System σ) (file : Heap) (s : State σ) : Prop where
  idle : s.mutex = none → Serial S.op file (s.txs.map Tx.span) s.now.bytes
  busy : ∀ q p, s.procs q = some p → p.pc.committing →
    ∃ H, Serial S.op file (s.txs.map Tx.span) H ∧ ∀ a,
      (pageOf a ∈ p.pc.pending → p.view s.now.bytes a = H a) ∧
      (pageOf a ∉ p.pc.pending → s.now.bytes a = H a)
  attempt : ∀ q p, s.procs q = some p → p.pc.open → s.undisturbed p → Alone S s.now.bytes p

theorem Serialized.advance {S : System σ} {file : Heap} {s s' : State σ} {pid : Nat}
    {p : Proc σ} (h : Serialized S file s)
    (procs : s'.procs = Function.update s.procs pid (some p)) (mutex : s'.mutex = s.mutex)
    (bytes : s'.now.bytes = s.now.bytes) (txs : s'.txs = s.txs)
    (busy : p.pc.committing → ∃ r, s.procs pid = some r ∧ r.pc.committing ∧
      r.pc.pending = p.pc.pending ∧ r.copies = p.copies)
    (attempt : p.pc.open → s.undisturbed p → Alone S s.now.bytes p) :
    Serialized S file s' := by
  have each {I : Nat → Proc σ → Prop} (hs : ∀ q r, s.procs q = some r → I q r) (hp : I pid p) :
      ∀ q r, s'.procs q = some r → I q r := by
    rw [procs]; exact forall_put hs hp
  refine ⟨?_,each ?_ ?_,each ?_ ?_⟩
  · rw [mutex,bytes,txs]; exact h.idle
  · rw [bytes,txs]; exact h.busy
  · intro hc
    obtain ⟨r,hr,hrc,hpend,hcop⟩ := busy hc
    obtain ⟨H,hs,ha⟩ := h.busy pid r hr hrc
    rw [bytes,txs]
    refine ⟨H,hs,fun a => ?_⟩
    have hview : p.view s.now.bytes a = r.view s.now.bytes a := by
      simp [Attempt.view,hcop]
    rw [hview,← hpend]
    exact ha a
  · rw [bytes]
    intro q r hr ho hu
    rw [State.undisturbed,State.since,txs] at hu
    exact h.attempt q r hr ho hu
  · rw [bytes]
    intro ho hu
    rw [State.undisturbed,State.since,txs] at hu
    exact attempt ho hu

theorem Serialized.arrive {S : System σ} {file : Heap} {s : State σ} {pid : Nat} {p : Proc σ}
    (h : Serialized S file s) (hl : ∀ q p, s.procs q = some p → Local S p) (hc : Conflicts s)
    (hp : s.procs pid = some p) {page : Nat} (hpage : page ∈ p.pc.pending)
    (part : Nat → Bool) {q : Nat} {r : Proc σ} (hr : s.procs q = some r) (ho : r.pc.open)
    (hu : s.undisturbed r) :
    Alone S (S.layout.memcpy (S.layout.globalPos page) page part
      (p.view s.now.bytes) s.now.bytes) r := by
  have hheap := ((hl pid p hp).heapPage hpage).1
  obtain ⟨tx,htx,hw⟩ := (hc.conflict q r hr ho page).mpr (.inr ⟨pid,p,hp,hpage⟩)
  have ht := (hl q r hr).tracked ho.active
  have hsame : ∀ a, pageOf a ∈ r.readSetVersion → S.layout.memcpy (S.layout.globalPos page)
      page part (p.view s.now.bytes) s.now.bytes a = s.now.bytes a := by
    intro a ha
    have hne : pageOf a ≠ page := fun h => hu tx htx page hw (h ▸ ha)
    simp [S.layout.memcpy_globalPos hheap,hne]
  obtain ⟨hexec,hseen⟩ := h.attempt q r hr ho hu
  exact ⟨ht.reframe hexec hsame,fun x hx => (hsame _ (ht.saw x hx)).trans (hseen x hx)⟩

theorem serialized_lock {S : System σ} {file : Heap} {s s' : State σ} {pid : Nat}
    (h : Step S s (pid,.lock) s') (hl : ∀ q p, s.procs q = some p → Local S p)
    (hv : Versions s) (hc : Conflicts s) (hs : Serialized S file s) : Serialized S file s' := by
  cases h with
  | @commit _ p e hp hpc hm hcons =>
    have ho : p.pc.open := by rw [hpc]; trivial
    have ht := (hl pid p hp).tracked ho.active
    have hu := (consistent_iff (hl pid p hp) hv hc hp ho hm).mp hcons
    have hop : S.op p.cur = .leave := by
      have he := (hl pid p hp).ending e (by rw [hpc]; rfl)
      unfold System.endOf at he
      unfold System.op
      cases hk : S.code p.cur <;> simp_all [Instr.op]
    have hserial : Serial S.op file
        (⟨p.context.next,p.log,p.cur⟩ :: s.txs.map Tx.span) (p.view s.now.bytes) :=
      .cons (hs.idle hm) (hs.attempt pid p hp ho hu).exec hop
    constructor
    · intro hm'; cases hm'
    · refine forall_put (p := { p with pc := .commit e p.writeSetVersion.keys })
        (fun q r hr hcom => ?_) fun _ => ⟨_,hserial,fun a => ⟨fun _ => rfl,fun ha => ?_⟩⟩
      · cases hm.symm.trans (hv.holds q r hr hcom)
      · have hnone : p.copies (pageOf a) = none := by
          by_contra hcopy
          exact ha (Finmap.mem_keys.mpr (ht.copied _ hcopy))
        exact (view_of_none hnone _).symm
    · refine forall_put (p := { p with pc := .commit e p.writeSetVersion.keys })
        (fun q r hr ho' hu' => ?_) fun ho' => ho'.elim
      refine hs.attempt q r hr ho' fun tx htx => hu' tx ?_
      rw [since_cons rfl rfl (hc.begun q r hr ho'.active)]
      exact List.mem_cons_of_mem _ htx
  | @reject _ p e hp hpc hm hcons =>
    exact hs.advance (p := { p with pc := .abort }) rfl rfl rfl rfl (fun hcom => hcom.elim)
      fun ho => ho.elim

theorem serialized_memcpy {S : System σ} {file : Heap} {s s' : State σ} {pid : Nat}
    {part : Nat → Bool} (h : Step S s (pid,.memcpy part) s')
    (hl : ∀ q p, s.procs q = some p → Local S p) (hv : Versions s) (hc : Conflicts s)
    (hs : Serialized S file s) : Serialized S file s' := by
  cases h with
  | @memcpy _ p e todo page _ hp hpc =>
    have hpage : page ∈ p.pc.pending := by simp [hpc,PC.pending]
    have hheap := ((hl pid p hp).heapPage hpage).1
    have hmutex := hv.holds pid p hp (by rw [hpc]; trivial)
    constructor
    · intro hm; cases hm.symm.trans hmutex
    · intro q r hr hcom
      obtain rfl : pid = q := Option.some.inj (hmutex.symm.trans (hv.holds q r hr hcom))
      obtain rfl : p = r := Option.some.inj (hp.symm.trans hr)
      obtain ⟨H,hser,ha⟩ := hs.busy pid p hp hcom
      refine ⟨H,hser,fun a => ⟨fun hin => ?_,fun hout => ?_⟩⟩
      · simp only [State.write,view_memcpy _ hheap]
        exact (ha a).1 hin
      · have hne : pageOf a ≠ page := fun h => hout (h ▸ hpage)
        simpa [State.write,S.layout.memcpy_globalPos hheap,hne] using (ha a).2 hout
    · exact fun q r hr ho hu => hs.arrive hl hc hp hpage part hr ho hu

/-- The last bytes of a page arrive: the file and the copies left still hold the memory that the
commit leads to. -/
theorem serialized_publish {S : System σ} {file : Heap} {s s' : State σ} {pid : Nat}
    (h : Step S s (pid,.publish) s') (hl : ∀ q p, s.procs q = some p → Local S p)
    (hv : Versions s) (hc : Conflicts s) (hs : Serialized S file s) : Serialized S file s' := by
  cases h with
  | @publish _ p e todo page v hp hpc hlook =>
    have hpage : page ∈ p.pc.pending := by simp [hpc,PC.pending]
    have hheap := ((hl pid p hp).heapPage hpage).1
    have hmutex := hv.holds pid p hp (by rw [hpc]; trivial)
    constructor
    · intro hm; cases hm.symm.trans hmutex
    · refine forall_put_ne (p := { p with pc := .commit e todo }) (s := s.write _)
        (fun q r hq hr hcom => ?_) fun _ => ?_
      · exact absurd (Option.some.inj ((hv.holds q r hr hcom).symm.trans hmutex)) hq
      · obtain ⟨H,hser,ha⟩ := hs.busy pid p hp (by rw [hpc]; trivial)
        refine ⟨H,hser,fun a => ⟨fun hin => ?_,fun hout => ?_⟩⟩
        · simp only [State.write,State.put,view_memcpy _ hheap]
          exact (ha a).1 (by rw [hpc]; exact Finset.mem_insert_of_mem hin)
        · by_cases hpa : pageOf a = page
          · simpa [State.write,State.put,S.layout.memcpy_globalPos hheap,hpa] using
              (ha a).1 (hpa ▸ hpage)
          · simpa [State.write,State.put,S.layout.memcpy_globalPos hheap,hpa] using
              (ha a).2 (by rw [hpc]; simpa [PC.pending,hpa] using hout)
    · refine forall_put (p := { p with pc := .commit e todo }) (s := s.write _)
        (fun q r hr ho hu => ?_) fun ho => ho.elim
      exact hs.arrive hl hc hp hpage (fun _ => true) hr ho hu

theorem serialized_unlock {S : System σ} {file : Heap} {s s' : State σ} {pid : Nat}
    (h : Step S s (pid,.unlock) s') (hs : Serialized S file s) : Serialized S file s' := by
  cases h with
  | @unlock _ p e hp hpc =>
    obtain ⟨H,hser,ha⟩ := hs.busy pid p hp (by rw [hpc]; trivial)
    have hH : s.now.bytes = H := funext fun a => (ha a).2 (by simp [hpc,PC.pending])
    constructor
    · intro _; exact hH ▸ hser
    · refine forall_put (p := { p with
        toAttempt := p.toAttempt.updateHeap s.past.length
        pc := .ended e }) hs.busy fun hcom => hcom.elim
    · exact forall_put (p := { p with
        toAttempt := p.toAttempt.updateHeap s.past.length
        pc := .ended e }) hs.attempt fun ho => ho.elim

theorem serialized_step {S : System σ} (hlive : S.live = true) {file : Heap} {s s' : State σ}
    {x : Nat × Act} (h : Step S s x s') (hl : ∀ q p, s.procs q = some p → Local S p)
    (hv : Versions s) (hc : Conflicts s) (hs : Serialized S file s) : Serialized S file s' := by
  have stop {pid : Nat} {p : Proc σ} {s' : State σ} (procs : s'.procs =
      Function.update s.procs pid (some p)) (mutex : s'.mutex = s.mutex)
      (bytes : s'.now.bytes = s.now.bytes) (txs : s'.txs = s.txs) (hno : ¬ p.pc.active) :
      Serialized S file s' :=
    hs.advance procs mutex bytes txs (fun hc => absurd hc.active hno)
      fun ho _ => absurd ho.active hno
  cases h with
  | @atomicBegin pid p c hp hpc hm =>
    refine hs.advance rfl rfl rfl rfl (fun h => h.elim) fun _ _ => ?_
    have hclean : p.copies = fun _ => none := (hl pid p hp).clean (by rw [hpc]; trivial)
    have hview := view_clean (t := p.toAttempt.atomicBegin s.globalPageVersion s.txs.length)
      hclean s.now.bytes
    refine ⟨?_,fun r hr => by simp [Proc.atomicBegin,Attempt.atomicBegin] at hr⟩
    simp only [Proc.atomicBegin,hview]
    exact .nil
  | @load pid p a k i m hp hpc hk ha hm =>
    obtain rfl := S.shown_live hlive hm
    refine hs.advance rfl rfl rfl rfl (fun h => by simp [hpc,PC.committing] at h) ?_
    intro ho hu
    obtain ⟨hexec,hseen⟩ := hs.attempt pid p hp ho hu
    refine ⟨hexec.load (by simp [System.op,hk,Instr.op]),fun r hr => ?_⟩
    dsimp only [Attempt.load] at hr
    split at hr
    · exact hseen r hr
    · rename_i hnone
      obtain rfl | hr := List.mem_cons.mp hr
      · exact (view_of_none hnone _).symm
      · exact hseen r hr
  | @store pid p a b k i m hp hpc hk ha hm =>
    obtain rfl := S.shown_live hlive hm
    refine hs.advance rfl rfl rfl rfl (fun h => by simp [hpc,PC.committing] at h) ?_
    intro ho hu
    obtain ⟨hexec,hseen⟩ := hs.attempt pid p hp ho hu
    refine ⟨?_,hseen⟩
    rw [view_store]
    exact hexec.store (by simp [System.op,hk,Instr.op])
  | @fault pid p t a hp hpc ha hf =>
    refine hs.advance rfl rfl rfl rfl (fun h => by simp [hpc,PC.committing] at h) ?_
    intro ho hu
    obtain ⟨-,⟨-,rfl⟩ | ⟨-,rfl⟩⟩ := segfaultHandler_ok hf
    · obtain ⟨hexec,hseen⟩ := hs.attempt pid p hp ho hu
      exact ⟨hexec,hseen⟩
    · obtain ⟨hexec,hseen⟩ := hs.attempt pid p hp ho fun tx htx page hw hr =>
        hu tx htx page hw (Finmap.mem_insert.mpr (.inr hr))
      exact ⟨hexec,hseen⟩
  | @killed pid p _ _ hp hpc | @signaled pid p _ hp hpc => exact stop rfl rfl rfl rfl id
  | @atomicEnd pid p e hp hpc he =>
    unfold Proc.atomicEnd
    split
    · exact stop rfl rfl rfl rfl id
    · refine hs.advance rfl rfl rfl rfl (fun h => h.elim) fun _ hu => ?_
      obtain ⟨hexec,hseen⟩ := hs.attempt pid p hp (by rw [hpc]; trivial) hu
      exact ⟨hexec,hseen⟩
  | @waited pid p e s₁ hp hpc hw =>
    have same (hu : s.undisturbed p) : Alone S s.now.bytes { p with pc := .lock e } := by
      obtain ⟨hexec,hseen⟩ := hs.attempt pid p hp (by rw [hpc]; trivial) hu
      exact ⟨hexec,hseen⟩
    obtain ⟨rfl,-⟩ | ⟨rfl,-⟩ := waitExited_spec hw <;>
    exact hs.advance rfl rfl rfl rfl (fun h => h.elim) fun _ hu => same hu
  | @commit pid p e hp hpc hm hcons =>
    exact serialized_lock (.commit hp hpc hm hcons) hl hv hc hs
  | @reject pid p e hp hpc hm hcons =>
    exact serialized_lock (.reject hp hpc hm hcons) hl hv hc hs
  | @page pid p e todo page hp hpc hpage =>
    refine hs.advance rfl rfl rfl rfl (fun _ => ⟨p,hp,by rw [hpc]; trivial,?_,rfl⟩)
      fun ho => ho.elim
    simp [hpc,PC.pending,Finset.insert_erase hpage]
  | @memcpy pid p e todo page part hp hpc => exact serialized_memcpy (.memcpy hp hpc) hl hv hc hs
  | @publish pid p e todo page v hp hpc hlook =>
    exact serialized_publish (.publish hp hpc hlook) hl hv hc hs
  | @unlock pid p e hp hpc => exact serialized_unlock (.unlock hp hpc) hs
  | @abort pid p hp hpc => exact stop rfl rfl rfl rfl id
  | @fork pid p e child f c hp hpc hf hc0 hn =>
    have hparent : Serialized S file (s.put pid
        { p with predecessor := child, pc := .atomicBegin (c child) }) :=
      stop rfl rfl rfl rfl id
    exact hparent.advance rfl rfl rfl rfl (fun h => h.elim) fun h => h.elim
  | @forkFailed pid p e y hp hpc hf => exact stop rfl rfl rfl rfl id
  | @join pid p t k hp hpc => exact stop rfl rfl rfl rfl id
  | @joined pid p t k s₁ hp hpc hw =>
    obtain ⟨rfl,-⟩ | ⟨rfl,-⟩ := waitExited_spec hw <;> exact stop rfl rfl rfl rfl id
  | @interrupted pid p q hp hq hu => exact stop rfl rfl rfl rfl id
  | @exit pid p hp hpc => exact stop rfl rfl rfl rfl id
  | @reap pid p hp he ho =>
    refine hs.advance (Function.update_eq_self_iff.mpr hp.symm).symm rfl rfl rfl
      (fun h => ⟨p,hp,h,rfl,rfl⟩) fun ho hu => hs.attempt pid p hp ho hu

structure Sound (S : System σ) (s : State σ) : Prop where
  each : ∀ q p, s.procs q = some p → Local S p
  versions : Versions s
  conflicts : Conflicts s

theorem sound_initial (S : System σ) (root : Nat) (x : σ) (file : Heap) :
    Sound S (initial root x file) := by
  refine ⟨local_initial S root x file,⟨?_,?_,?_,?_,?_⟩,⟨?_,?_⟩⟩
  · intro q hq; cases hq
  · intro q p hp hc; simp [(initial_procs hp).2,PC.committing] at hc
  · intro page; rfl
  · intro q p hp ha; simp [(initial_procs hp).2,PC.active] at ha
  · intro q p hp page hpage; simp [(initial_procs hp).2,PC.pending] at hpage
  · intro q p hp ha; simp [(initial_procs hp).2,PC.active] at ha
  · intro q p hp ho; simp [(initial_procs hp).2,PC.open] at ho

theorem Sound.reachable {S : System σ} {s t : State σ} (hs : Sound S s)
    (h : Reachable (Step S) s t) : Sound S t := by
  refine h.invariant hs fun t a u ht hstep => ?_
  exact ⟨local_step hstep ht.each,versions_step hstep ht.each ht.versions,
    conflicts_step hstep ht.each ht.versions ht.conflicts⟩

theorem sound_reachable {S : System σ} {root : Nat} {x : σ} {file : Heap} {s : State σ}
    (h : Reachable (Step S) (initial root x file) s) : Sound S s :=
  (sound_initial S root x file).reachable h

theorem serialized_reachable {S : System σ} (hlive : S.live = true) {root : Nat} {x : σ}
    {file : Heap} {s : State σ} (h : Reachable (Step S) (initial root x file) s) :
    Serialized S file s := by
  refine h.invariant_within (fun t ht => sound_reachable ht) ⟨?_,?_,?_⟩
    fun t a u ht hser hstep =>
      serialized_step hlive hstep ht.each ht.versions ht.conflicts hser
  · exact fun _ => .nil
  · intro q p hp hc; simp [(initial_procs hp).2,PC.committing] at hc
  · intro q p hp ho; simp [(initial_procs hp).2,PC.open] at ho

/-- Strict serializability. At every point of every run the validated transactions, run one
after another in the order of their validation from the initial heap, make exactly the
accesses they made in the run, and the heap they lead to is the file once no commit is
under way. -/
theorem strictly_serializable (S : System σ) (hlive : S.live = true) (root : Nat) (x : σ)
    (file : Heap) (s : State σ) (h : Reachable (Step S) (initial root x file) s) :
    ∃ H, Serial S.op file (s.txs.map Tx.span) H ∧ (s.mutex = none → s.now.bytes = H) := by
  have hv := (sound_reachable h).versions
  have hs := serialized_reachable hlive h
  cases hm : s.mutex with
  | none => exact ⟨s.now.bytes,hs.idle hm,fun _ => rfl⟩
  | some q =>
    obtain ⟨p,hp,hc⟩ := hv.holder q hm
    obtain ⟨H,hser,-⟩ := hs.busy q p hp hc
    exact ⟨H,hser,fun h => by cases h⟩

/-- Two threads that add one to the first byte of the heap each, in the way of `test.cc`. -/
inductive Counter where
  | main
  | one (t : Nat)
  | two (t u : Nat)
  | last (u : Nat)
  | thread
  | add (b : Byte)
  | done

def Counter.code : Counter → Instr Counter
  | .main => .create .thread .one
  | .one t => .create .thread (.two t)
  | .two t u => .join t (.last u)
  | .last u => .join u .done
  | .thread => .load Layout.adjacent.localHeap .add
  | .add b => .store Layout.adjacent.localHeap (b + 1) .done
  | .done => .ret

def counter : System Counter := ⟨Counter.code,.adjacent,false,true⟩

def counterRun : List (Nat × Act) :=
  [(1,.atomicBegin),(1,.atomicEnd),(1,.fork 2),(1,.atomicBegin),(1,.atomicEnd),(1,.fork 3),
    (2,.atomicBegin),(3,.atomicBegin),(2,.fault),(2,.load 0),(3,.fault),(3,.load 0),
    (2,.fault),(3,.fault),(3,.store 0),(2,.store 0),(2,.atomicEnd),(3,.atomicEnd),
    (2,.waited),(3,.waited)] ++ commitActs 2 0x100000 ++
  [(3,.lock),(3,.abort),(3,.atomicBegin),(3,.fault),(3,.load 0),(3,.fault),(3,.store 0),
    (3,.atomicEnd),(3,.waited)] ++ commitActs 3 0x100000

theorem strictly_serializable_counter : ∃ s : State Counter, s.now.bytes 0x100000 = 2 ∧
    s.rollbackCount = 1 ∧ ∃ H, Serial counter.op (fun _ => 0) (s.txs.map Tx.span) H ∧
      (s.mutex = none → s.now.bytes = H) := by
  obtain ⟨s,hs,hv⟩ := System.run_any counter (initial 1 .main fun _ => 0)
    counterRun (fun s => s.now.bytes 0x100000 = 2 && s.rollbackCount = 1)
    (by decide +kernel)
  simp only [Bool.and_eq_true,decide_eq_true_eq] at hv
  obtain ⟨hb,hr⟩ := hv
  exact ⟨s,hb,hr,strictly_serializable counter rfl 1 .main (fun _ => 0) s hs⟩

end GThread
