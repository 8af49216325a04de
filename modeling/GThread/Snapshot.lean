import GThread.Serializability

/-! Page contents against page versions when it is unspecified whether a page of the
private mapping follows the file. A process then shows its unwritten pages as they were at
some moment since it last mapped its heap, but `AtomicBegin` copies the versions later. -/
namespace GThread
open Replay Transition
variable {σ : Type}

/-- The moments of the file since `p` last mapped its heap or dropped its private copies. -/
def State.moments (s : State σ) (p : Proc σ) : List Moment :=
  (s.now :: s.past).take (s.past.length - p.mapped + 1)

theorem moments_cons {s s' : State σ} {p p' : Proc σ} (past : s'.past = s.now :: s.past)
    (mapped : p'.mapped = p.mapped) (h : p.mapped ≤ s.past.length) :
    s'.moments p' = s'.now :: s.moments p := by
  have hlen : s.past.length + 1 - p.mapped + 1 = s.past.length - p.mapped + 1 + 1 := by omega
  rw [State.moments,past,mapped,List.length_cons,hlen,List.take_succ_cons,State.moments]

theorem System.shown_mem {S : System σ} {s : State σ} {p : Proc σ} {i : Nat} {m : Moment}
    (h : S.shown s p i = some m) : m ∈ s.moments p := by
  unfold System.shown at h
  split at h
  · rename_i hi
    obtain ⟨hlt,rfl⟩ := List.getElem?_eq_some_iff.mp h
    rw [State.moments,List.mem_take_iff_getElem]
    exact ⟨i,by omega,rfl⟩
  · cases h

theorem System.exists_shown {S : System σ} (hlive : S.live = false) {s : State σ}
    {p : Proc σ} {m : Moment} (h : m ∈ s.moments p) : ∃ i, S.shown s p i = some m := by
  rw [State.moments,List.mem_take_iff_getElem] at h
  obtain ⟨i,hi,rfl⟩ := h
  refine ⟨i,?_⟩
  rw [System.shown,if_pos ⟨by simp [hlive],by omega⟩]
  exact List.getElem?_eq_getElem (by omega)

def Attempt.Unwritten (t : Attempt) (a : Nat) : Prop := ∀ b, .store a b ∉ t.log

structure Attempt.From (t : Attempt) (l : List Moment) : Prop where
  seen : ∀ r ∈ t.seen, ∃ m ∈ l, r.value = m.bytes r.addr ∧ r.commits = m.commits (pageOf r.addr)
  copied : ∀ page c, t.copies page = some c → ∃ m ∈ l, c.commits = m.commits page ∧
    ∀ a, pageOf a = page → t.Unwritten a → c.bytes a = m.bytes a

theorem Attempt.From.mono {t : Attempt} {l l' : List Moment} (h : t.From l)
    (sub : ∀ m ∈ l, m ∈ l') : t.From l' where
  seen r hr := by
    obtain ⟨m,hm,he⟩ := h.seen r hr
    exact ⟨m,sub m hm,he⟩
  copied page c hc := by
    obtain ⟨m,hm,he⟩ := h.copied page c hc
    exact ⟨m,sub m hm,he⟩

theorem Attempt.From.load {t : Attempt} {l : List Moment} (h : t.From l) {m : Moment}
    (hm : m ∈ l) (a : Nat) : (t.load m a).From l where
  seen := by
    intro r hr
    dsimp only [Attempt.load] at hr
    split at hr
    · exact h.seen r hr
    · rename_i hnone
      obtain rfl | hr := List.mem_cons.mp hr
      · exact ⟨m,hm,view_of_none hnone _,rfl⟩
      · exact h.seen r hr
  copied := by
    intro page c hc
    obtain ⟨m',hm',hcom,hb⟩ := h.copied page c hc
    refine ⟨m',hm',hcom,fun a' hp hu => hb a' hp fun b hb => hu b ?_⟩
    exact List.mem_cons_of_mem _ hb

theorem Attempt.From.store {t : Attempt} {l : List Moment} (h : t.From l) {m : Moment}
    (hm : m ∈ l) (a : Nat) (b : Byte) : (t.store m a b).From l where
  seen := h.seen
  copied := by
    intro page c hc
    have keep {a'} (hu : (t.store m a b).Unwritten a') : a' ≠ a ∧ t.Unwritten a' := by
      refine ⟨?_,fun b' hb' => hu b' (List.mem_cons_of_mem _ hb')⟩
      intro heq
      subst heq
      exact hu b List.mem_cons_self
    by_cases hp : page = pageOf a
    · subst page
      have hc : { (t.copies (pageOf a)).getD ⟨m.bytes,m.commits (pageOf a)⟩ with
          bytes := Function.update ((t.copies (pageOf a)).getD
            ⟨m.bytes,m.commits (pageOf a)⟩).bytes a b } = c := by
        simpa [Attempt.store] using hc
      subst c
      cases ht : t.copies (pageOf a) with
      | none =>
        refine ⟨m,hm,rfl,fun a' _ hu => ?_⟩
        simp [(keep hu).1]
      | some c =>
        obtain ⟨m',hm',hcom,hb⟩ := h.copied _ c ht
        refine ⟨m',hm',hcom,fun a' hpage hu => ?_⟩
        simpa [(keep hu).1] using hb a' hpage (keep hu).2
    · obtain ⟨m',hm',hcom,hb⟩ := h.copied page c (by simpa [Attempt.store,hp] using hc)
      exact ⟨m',hm',hcom,fun a' hpage hu => hb a' hpage (keep hu).2⟩

structure History (s : State σ) : Prop where
  mapped : ∀ q p, s.procs q = some p → p.mapped ≤ s.past.length
  grows : ∀ m ∈ s.past, ∀ page, m.commits page ≤ s.now.commits page
  same : ∀ m ∈ s.past, ∀ page, m.commits page = s.now.commits page → ¬ s.pending page →
    ∀ a, pageOf a = page → m.bytes a = s.now.bytes a
  attempt : ∀ q p, s.procs q = some p → p.pc.open → p.From (s.moments p)

theorem History.advance {s s' : State σ} {pid : Nat} {p : Proc σ} (h : History s)
    (procs : s'.procs = Function.update s.procs pid (some p)) (now : s'.now = s.now)
    (past : s'.past = s.past) (pending : ∀ page, s.pending page → s'.pending page)
    (mapped : p.mapped ≤ s.past.length) (attempt : p.pc.open → p.From (s.moments p)) :
    History s' := by
  have each {I : Nat → Proc σ → Prop} (hs : ∀ q r, s.procs q = some r → I q r) (hp : I pid p) :
      ∀ q r, s'.procs q = some r → I q r := by
    rw [procs]; exact forall_put hs hp
  refine ⟨?_,?_,?_,?_⟩
  · rw [past]; exact each h.mapped mapped
  · rw [past,now]; exact h.grows
  · rw [past,now]
    exact fun m hm page he hn => h.same m hm page he fun hp => hn (pending page hp)
  · simp only [State.moments,now,past]
    exact each h.attempt attempt

theorem pending_mono {s s' : State σ} {pid : Nat} {r p : Proc σ} (hr : s.procs pid = some r)
    (procs : s'.procs = Function.update s.procs pid (some p))
    (sub : r.pc.pending ⊆ p.pc.pending) (page : Nat) (h : s.pending page) : s'.pending page := by
  obtain ⟨q,t,ht,hpage⟩ := h
  by_cases hq : q = pid
  · subst q
    obtain rfl : r = t := Option.some.inj (hr.symm.trans ht)
    exact ⟨pid,p,by simp [procs],sub hpage⟩
  · exact ⟨q,t,by simp [procs,hq,ht],hpage⟩

/-- Bytes of a pending page arrive. Nothing is known of earlier moments with that page. -/
theorem History.arrive {L : Layout} {s s' : State σ} {page : Nat} (h : History s)
    (hheap : L.HeapPage page) {part : Nat → Bool} {view : Heap} {commits : Nat → Nat}
    (procs : ∀ q p, s'.procs q = some p → ∃ r, s.procs q = some r ∧
      p.toAttempt = r.toAttempt ∧ (p.pc.open → r.pc.open))
    (now : s'.now = ⟨L.memcpy (L.globalPos page) page part view s.now.bytes,commits⟩)
    (past : s'.past = s.now :: s.past)
    (others : ∀ page', page' ≠ page → commits page' = s.now.commits page')
    (here : commits page = s.now.commits page ∧ s'.pending page ∨
      commits page = s.now.commits page + 1)
    (pending : ∀ page', page' ≠ page → s.pending page' → s'.pending page') : History s' := by
  have hgrow : ∀ page', s.now.commits page' ≤ commits page' := by
    intro page'
    by_cases hp : page' = page
    · subst page'; omega
    · exact (others page' hp).ge
  refine ⟨?_,?_,?_,?_⟩
  · intro q p hp
    obtain ⟨r,hr,ht,-⟩ := procs q p hp
    have := h.mapped q r hr
    simp only [ht,past,List.length_cons]
    omega
  · rw [now,past]
    intro m hm page'
    obtain rfl | hm := List.mem_cons.mp hm
    · exact hgrow page'
    · exact (h.grows m hm page').trans (hgrow page')
  · rw [now,past]
    intro m hm page' he hn a ha
    dsimp only at he ⊢
    have hold : m.commits page' ≤ s.now.commits page' := by
      obtain rfl | hm := List.mem_cons.mp hm
      · exact le_rfl
      · exact h.grows m hm page'
    by_cases hp : page' = page
    · rw [hp] at he hn hold
      obtain ⟨-,hpend⟩ | hinc := here
      · exact absurd hpend hn
      · omega
    · have hfile : L.memcpy (L.globalPos page) page part view s.now.bytes a =
          s.now.bytes a := by
        have hpa : pageOf a ≠ page := fun h => hp (ha.symm.trans h)
        simp [L.memcpy_globalPos hheap,hpa]
      rw [hfile]
      obtain rfl | hm := List.mem_cons.mp hm
      · rfl
      · exact h.same m hm page' (he.trans (others page' hp)) (fun hs => hn (pending page' hp hs))
          a ha
  · intro q p hp ho
    obtain ⟨r,hr,ht,hro⟩ := procs q p hp
    rw [ht,moments_cons past (congrArg Attempt.mapped ht) (h.mapped q r hr)]
    exact (h.attempt q r hr (hro ho)).mono fun m hm => List.mem_cons_of_mem _ hm

theorem History.move {s s' : State σ} {pid : Nat} {r p : Proc σ} (h : History s)
    (hr : s.procs pid = some r) (procs : s'.procs = Function.update s.procs pid (some p))
    (now : s'.now = s.now) (past : s'.past = s.past) (pending : r.pc.pending ⊆ p.pc.pending)
    (mapped : p.mapped = r.mapped ∨ p.mapped = s.past.length)
    (attempt : p.pc.open → p.From (s.moments p)) : History s' := by
  refine h.advance procs now past (pending_mono hr procs pending) ?_ attempt
  have := h.mapped pid r hr
  omega

theorem history_publish {S : System σ} {s s' : State σ} {pid : Nat}
    (h : Step S s (pid,.publish) s') (hl : ∀ q p, s.procs q = some p → Local S p)
    (hh : History s) : History s' := by
  cases h with
  | @publish _ p e todo page v hp hpc hlook =>
    have hpage : page ∈ p.pc.pending := by simp [hpc,PC.pending]
    refine hh.arrive ((hl pid p hp).heapPage hpage).1 ?_ rfl rfl (fun page' hne => by simp [hne])
      (.inr (by simp)) ?_
    · exact forall_put (p := { p with pc := .commit e todo }) (s := s.write _)
        (fun q r hr => ⟨r,hr,rfl,id⟩) ⟨p,hp,rfl,fun ho => ho.elim⟩
    · intro page' hne hpend
      obtain ⟨q,r,hr,hpage'⟩ := hpend
      by_cases hq : q = pid
      · subst q
        obtain rfl : p = r := Option.some.inj (hp.symm.trans hr)
        refine ⟨pid,{ p with pc := .commit e todo },by simp [State.put],?_⟩
        rw [hpc] at hpage'
        exact (Finset.mem_insert.mp hpage').resolve_left hne
      · exact ⟨q,r,by simp [State.put,State.write,hq,hr],hpage'⟩

theorem history_fork {S : System σ} {s s' : State σ} {pid child : Nat}
    (h : Step S s (pid,.fork child) s') (hh : History s) : History s' := by
  cases h with
  | @fork _ p e _ f c hp hpc hf hc hn =>
    have hparent : History (s.put pid
        { p with predecessor := child, pc := .atomicBegin (c child) }) :=
      hh.move hp rfl rfl rfl (by simp [hpc,PC.pending]) (.inl rfl) fun ho => ho.elim
    exact hparent.advance rfl rfl rfl (fun page => (pending_new hp hn rfl rfl page).mpr)
      (hh.mapped pid p hp) fun ho => ho.elim

theorem history_step {S : System σ} {s s' : State σ} {x : Nat × Act} (h : Step S s x s')
    (hl : ∀ q p, s.procs q = some p → Local S p) (hh : History s) : History s' := by
  cases h with
  | @atomicBegin pid p c hp hpc hm =>
    have hclean : p.copies = fun _ => none := (hl pid p hp).clean (by rw [hpc]; trivial)
    refine hh.move hp rfl rfl rfl (by simp [hpc,PC.pending]) (.inl rfl) fun _ => ⟨?_,?_⟩
    · simp [Proc.atomicBegin,Attempt.atomicBegin]
    · simp [Proc.atomicBegin,Attempt.atomicBegin,hclean]
  | @load pid p a k i m hp hpc hk ha hm =>
    refine hh.move hp rfl rfl rfl subset_rfl (.inl rfl) fun ho => ?_
    exact (hh.attempt pid p hp ho).load (S.shown_mem hm) a
  | @store pid p a b k i m hp hpc hk ha hm =>
    refine hh.move hp rfl rfl rfl subset_rfl (.inl rfl) fun ho => ?_
    exact (hh.attempt pid p hp ho).store (S.shown_mem hm) a b
  | @fault pid p t a hp hpc ha hf =>
    obtain ⟨-,⟨-,rfl⟩ | ⟨-,rfl⟩⟩ := segfaultHandler_ok hf <;>
    exact hh.move hp rfl rfl rfl subset_rfl (.inl rfl) fun ho =>
      ⟨(hh.attempt pid p hp ho).seen,(hh.attempt pid p hp ho).copied⟩
  | @killed pid p _ _ hp hpc | @signaled pid p _ hp hpc =>
    exact hh.move hp rfl rfl rfl (by simp [hpc,PC.pending]) (.inl rfl) fun ho => ho.elim
  | @atomicEnd pid p e hp hpc he =>
    unfold Proc.atomicEnd
    split
    · exact hh.move hp rfl rfl rfl (by simp [hpc,PC.pending]) (.inr rfl) fun ho => ho.elim
    · exact hh.move hp rfl rfl rfl (by simp [hpc,PC.pending]) (.inl rfl)
        fun _ => hh.attempt pid p hp (by rw [hpc]; trivial)
  | @waited pid p e s₁ hp hpc hw =>
    obtain ⟨rfl,-⟩ | ⟨rfl,-⟩ := waitExited_spec hw <;>
    exact hh.move hp rfl rfl rfl (by simp [hpc,PC.pending]) (.inl rfl)
      fun _ => hh.attempt pid p hp (by rw [hpc]; trivial)
  | @commit pid p e hp hpc hm hc =>
    exact hh.move (p := { p with pc := .commit e p.writeSetVersion.keys }) hp rfl rfl rfl
      (by simp [hpc,PC.pending]) (.inl rfl) fun ho => ho.elim
  | @reject pid p e hp hpc hm hc =>
    exact hh.move (p := { p with pc := .abort }) hp rfl rfl rfl (by simp [hpc,PC.pending])
      (.inl rfl) fun ho => ho.elim
  | @page pid p e todo page hp hpc hpage =>
    refine hh.move hp rfl rfl rfl ?_ (.inl rfl) fun ho => ho.elim
    simp [hpc,PC.pending,Finset.insert_erase hpage]
  | @memcpy pid p e todo page part hp hpc =>
    have hpage : page ∈ p.pc.pending := by simp [hpc,PC.pending]
    exact hh.arrive ((hl pid p hp).heapPage hpage).1 (fun q r hr => ⟨r,hr,rfl,id⟩) rfl rfl
      (fun _ _ => rfl) (.inl ⟨rfl,pid,p,hp,hpage⟩) fun _ _ h => h
  | @publish pid p e todo page v hp hpc hlook =>
    exact history_publish (.publish hp hpc hlook) hl hh
  | @unlock pid p e hp hpc =>
    exact hh.move (p := { p with
      toAttempt := p.toAttempt.updateHeap s.past.length
      pc := .ended e }) hp rfl rfl rfl (by simp [hpc,PC.pending]) (.inr rfl) fun ho => ho.elim
  | @abort pid p hp hpc =>
    exact hh.move hp rfl rfl rfl (by simp [hpc,PC.pending]) (.inr rfl) fun ho => ho.elim
  | @fork pid p e child f c hp hpc hf hc hn => exact history_fork (.fork hp hpc hf hc hn) hh
  | @forkFailed pid p e y hp hpc hf =>
    exact hh.move hp rfl rfl rfl (by simp [hpc,PC.pending]) (.inl rfl) fun ho => ho.elim
  | @join pid p t k hp hpc =>
    exact hh.move hp rfl rfl rfl (by simp [hpc,PC.pending]) (.inl rfl) fun ho => ho.elim
  | @joined pid p t k s₁ hp hpc hw =>
    obtain ⟨rfl,-⟩ | ⟨rfl,-⟩ := waitExited_spec hw <;>
    exact hh.move hp rfl rfl rfl (by simp [hpc,PC.pending]) (.inl rfl) fun ho => ho.elim
  | @interrupted pid p q hp hq hu =>
    refine hh.move hp rfl rfl rfl ?_ (.inl rfl) fun ho => ho.elim
    obtain ⟨e,hpc,-⟩ | ⟨k,hpc⟩ := Proc.waitsFor_cases hq <;> simp [hpc,PC.pending]
  | @exit pid p hp hpc =>
    exact hh.move hp rfl rfl rfl (by simp [hpc,PC.pending]) (.inl rfl) fun ho => ho.elim
  | @reap pid p hp he ho =>
    exact hh.move hp (Function.update_eq_self_iff.mpr hp.symm).symm rfl rfl subset_rfl (.inl rfl)
      (hh.attempt pid p hp)

theorem open_step {S : System σ} {s s' : State σ} {x : Nat × Act} (h : Step S s x s') :
    ∀ q r, s'.procs q = some r → r.pc.open →
      (x = (q,.atomicBegin) ∧ ∃ p c, s.procs q = some p ∧
        r = p.atomicBegin c s.globalPageVersion s.txs.length) ∨
      ∃ p, s.procs q = some p ∧ p.pc.open ∧ r.localPageVersion = p.localPageVersion ∧
        r.mapped = p.mapped ∧ r.begun = p.begun := by
  have stay : ∀ q r, s.procs q = some r → r.pc.open →
      (x = (q,.atomicBegin) ∧ ∃ p c, s.procs q = some p ∧
        r = p.atomicBegin c s.globalPageVersion s.txs.length) ∨
      ∃ p, s.procs q = some p ∧ p.pc.open ∧ r.localPageVersion = p.localPageVersion ∧
        r.mapped = p.mapped ∧ r.begun = p.begun := fun q r hr ho => .inr ⟨r,hr,ho,rfl,rfl,rfl⟩
  cases h with
  | atomicBegin hp hpc hm => exact forall_put stay fun _ => .inl ⟨rfl,_,_,hp,rfl⟩
  | load hp hpc hk ha hm => exact forall_put stay fun ho => .inr ⟨_,hp,ho,rfl,rfl,rfl⟩
  | store hp hpc hk ha hm => exact forall_put stay fun ho => .inr ⟨_,hp,ho,rfl,rfl,rfl⟩
  | fault hp hpc ha hf =>
    refine forall_put stay fun ho => .inr ⟨_,hp,ho,?_⟩
    obtain ⟨-,⟨-,rfl⟩ | ⟨-,rfl⟩⟩ := segfaultHandler_ok hf <;> exact ⟨rfl,rfl,rfl⟩
  | atomicEnd hp hpc he =>
    refine forall_put stay ?_
    unfold Proc.atomicEnd
    split
    · exact fun ho => ho.elim
    · exact fun _ => .inr ⟨_,hp,by rw [hpc]; trivial,rfl,rfl,rfl⟩
  | waited hp hpc hw =>
    obtain ⟨rfl,-⟩ | ⟨rfl,-⟩ := waitExited_spec hw <;>
    exact forall_put stay fun _ => .inr ⟨_,hp,by rw [hpc]; trivial,rfl,rfl,rfl⟩
  | joined hp hpc hw =>
    obtain ⟨rfl,-⟩ | ⟨rfl,-⟩ := waitExited_spec hw <;>
    exact forall_put stay fun ho => ho.elim
  | memcpy hp hpc => exact stay
  | reap hp he ho => exact stay
  | @fork pid p e child f c hp hpc hf hc hn =>
    exact forall_fork stay (fun ho => ho.elim) fun ho => ho.elim
  | _ => exact forall_put stay fun ho => ho.elim

theorem moments_step {S : System σ} {s s' : State σ} {x : Nat × Act} (h : Step S s x s') :
    s'.now = s.now ∧ s'.past = s.past ∨ s'.past = s.now :: s.past := by
  cases h with
  | waited _ _ hw | joined _ _ hw =>
    obtain ⟨rfl,-⟩ | ⟨rfl,-⟩ := waitExited_spec hw <;> exact .inl ⟨rfl,rfl⟩
  | memcpy | publish => exact .inr rfl
  | _ => exact .inl ⟨rfl,rfl⟩

def State.Covered (s : State σ) : Prop :=
  ∀ q p, s.procs q = some p → p.pc.open → ∀ m ∈ s.moments p, ∀ page,
    version p.localPageVersion page ≤ m.commits page

/-- No commit completed a page between the moment a process last mapped its heap or dropped
its private copies and its `AtomicBegin`. -/
def State.Fresh (s : State σ) (x : Nat × Act) : Prop :=
  x.2 = .atomicBegin → ∀ p, s.procs x.1 = some p → ∀ m ∈ s.moments p, m.commits = s.now.commits

theorem covered_step {S : System σ} {s s' : State σ} {x : Nat × Act} (h : Step S s x s')
    (hs : Sound S s) (hh : History s) (fresh : s.Fresh x) (hc : s.Covered) : s'.Covered := by
  have hv' := versions_step h hs.each hs.versions
  intro q r hr ho m hm page
  have hnow := hv'.old q r hr ho.active page
  obtain ⟨rfl,p,c,hp,rfl⟩ | ⟨p,hp,hpo,hl,hmap,-⟩ := open_step h q r hr ho
  · have hcount : m.commits = s.now.commits := by
      cases h with
      | atomicBegin hp' _ _ =>
        cases hp.symm.trans hp'
        exact fresh rfl p hp m hm
    rw [hcount]
    exact (hs.versions.counts page).le
  · rw [hl]
    have hold := hc q p hp hpo
    obtain ⟨hsame,hpast⟩ | hpast := moments_step h
    · rw [State.moments,hsame,hpast,hmap] at hm
      exact hold m hm page
    · rw [moments_cons hpast hmap (hh.mapped q p hp)] at hm
      obtain rfl | hm := List.mem_cons.mp hm
      · exact hl ▸ hnow
      · exact hold m hm page

/-- The versions of an attempt are in everything it may read and has read; where the check
passes it has read the latest contents, and its private copies hold the latest byte wherever
it stored none. -/
structure Snapshot (S : System σ) (s : State σ) : Prop where
  shown : ∀ q p, s.procs q = some p → p.pc.open → ∀ i m, S.shown s p i = some m →
    ∀ page, version p.localPageVersion page ≤ m.commits page
  seen : ∀ q p, s.procs q = some p → p.pc.open → ∀ r ∈ p.seen,
    version p.localPageVersion (pageOf r.addr) ≤ r.commits
  copied : ∀ q p, s.procs q = some p → p.pc.open → ∀ page c, p.copies page = some c →
    version p.localPageVersion page ≤ c.commits
  latest : ∀ q p, s.procs q = some p → p.pc.open → s.mutex = none →
    isHeapConsistent p.readSetVersion s.globalPageVersion = true →
    (∀ r ∈ p.seen, r.commits = s.now.commits (pageOf r.addr) ∧
      r.value = s.now.bytes r.addr) ∧
    ∀ a, p.Unwritten a → p.view s.now.bytes a = s.now.bytes a

theorem snapshot_of_covered {S : System σ} {s : State σ} (hs : Sound S s) (hh : History s)
    (hc : s.Covered) : Snapshot S s := by
  refine ⟨?_,?_,?_,?_⟩
  · exact fun q p hp ho i m hm page => hc q p hp ho m (S.shown_mem hm) page
  · intro q p hp ho r hr
    obtain ⟨m,hm,-,he⟩ := (hh.attempt q p hp ho).seen r hr
    exact he ▸ hc q p hp ho m hm _
  · intro q p hp ho page c hcopy
    obtain ⟨m,hm,he,-⟩ := (hh.attempt q p hp ho).copied page c hcopy
    exact he ▸ hc q p hp ho m hm page
  · intro q p hp ho hmutex hcons
    have ht := (hs.each q p hp).tracked ho.active
    have hcur := (isHeapConsistent_iff ht fun page =>
      (hs.versions.old q p hp ho.active page).trans (hs.versions.counts page).ge).mp hcons
    -- a moment that may be shown has the latest contents of the pages in the read set
    have hlatest : ∀ m ∈ s.moments p, ∀ page ∈ p.readSetVersion,
        m.commits page = s.now.commits page ∧
        ∀ a, pageOf a = page → m.bytes a = s.now.bytes a := by
      intro m hm page hread
      have hlo := hc q p hp ho m hm page
      have heq := (hcur page hread).trans (hs.versions.counts page)
      obtain rfl | hpast := List.mem_cons.mp (List.mem_of_mem_take hm)
      · exact ⟨rfl,fun _ _ => rfl⟩
      · have hhi := hh.grows m hpast page
        have hcount : m.commits page = s.now.commits page := by omega
        exact ⟨hcount,hh.same m hpast page hcount (hs.versions.not_pending hmutex page)⟩
    constructor
    · intro r hr
      obtain ⟨m,hm,hvalue,hcom⟩ := (hh.attempt q p hp ho).seen r hr
      obtain ⟨hcount,hbytes⟩ := hlatest m hm _ (ht.saw r hr)
      exact ⟨hcom.trans hcount,hvalue.trans (hbytes _ rfl)⟩
    · intro a hu
      cases hcopy : p.copies (pageOf a) with
      | none => exact view_of_none hcopy _
      | some c =>
        obtain ⟨m,hm,-,hb⟩ := (hh.attempt q p hp ho).copied _ c hcopy
        have hread : pageOf a ∈ p.readSetVersion :=
          ht.written _ (ht.copied _ (by simp [hcopy]))
        rw [view_of_some hcopy,hb a rfl hu]
        exact (hlatest m hm _ hread).2 a rfl

theorem history_initial (root : Nat) (x : σ) (file : Heap) :
    History (initial root x file) := by
  refine ⟨?_,by simp [initial],by simp [initial],?_⟩
  · exact forall_put (s := { initial root x file with procs := fun _ => none }) (by simp)
      le_rfl
  · intro q p hp ho; simp [(initial_procs hp).2,PC.open] at ho

theorem history_reachable {S : System σ} {root : Nat} {x : σ} {file : Heap} {s : State σ}
    (h : Reachable (Step S) (initial root x file) s) : History s :=
  h.invariant_within (fun _ ht => sound_reachable ht) (history_initial root x file)
    fun _ _ _ ht hh hstep => history_step hstep ht.each hh

/-- In a run whose `AtomicBegin`s are all fresh the snapshot is never newer than what the
attempts read. An `AtomicBegin` that is not starts an attempt that may read older contents
than its versions say. -/
theorem snapshot_not_newer (S : System σ) (root : Nat) (x : σ) (file : Heap) :
    (∀ s, Reachable (Guarded State.Fresh (Step S)) (initial root x file) s → Snapshot S s) ∧
    (S.live = false → ∀ s s' pid, Reachable (Step S) (initial root x file) s →
      Step S s (pid,.atomicBegin) s' → ¬ s.Fresh (pid,.atomicBegin) → ¬ Snapshot S s') := by
  constructor
  · intro s h
    have hr := h.forget
    refine snapshot_of_covered (sound_reachable hr) (history_reachable hr) ?_
    refine h.invariant_within (J := fun t => Sound S t ∧ History t)
      (fun t ht => ⟨sound_reachable ht.forget,history_reachable ht.forget⟩) ?_
      fun t a u ht hc hstep => covered_step hstep.2 ht.1 ht.2 hstep.1 hc
    intro q p hp ho
    simp [(initial_procs hp).2,PC.open] at ho
  · intro hlive s s' pid h hstep hstale hsnap
    have hs := sound_reachable h
    have hh := history_reachable h
    cases hstep with
    | @atomicBegin _ p c hp hpc hm =>
      refine hstale fun _ q hq m hmoment => ?_
      cases hp.symm.trans hq
      obtain ⟨i,hi⟩ := S.exists_shown hlive hmoment
      funext page
      have hlo := hsnap.shown pid (p.atomicBegin c s.globalPageVersion s.txs.length)
        (by simp [State.put]) trivial i m hi page
      have hhi : m.commits page ≤ s.now.commits page := by
        obtain rfl | hpast := List.mem_cons.mp (List.mem_of_mem_take hmoment)
        · exact le_rfl
        · exact hh.grows m hpast page
      have := hs.versions.counts page
      exact le_antisymm hhi (this ▸ hlo)

inductive Handover where
  | main
  | wait (t : Nat)
  | look
  | sign (b : Byte)
  | thread
  | done

def Handover.code : Handover → Instr Handover
  | .main => .create .thread .wait
  | .wait t => .join t .look
  | .look => .load 0x100000 .sign
  | .sign _ => .store 0x100001 1 .done
  | .thread => .store 0x100000 1 .done
  | .done => .ret

def handover : System Handover := ⟨Handover.code,.adjacent,true,false⟩

/-- `Join` maps the heap, and only then waits for the thread, which commits. -/
def joinRun : List (Nat × Act) :=
  [(1,.atomicBegin),(1,.atomicEnd),(1,.fork 2),(1,.atomicBegin),(1,.atomicEnd),(1,.join)] ++
  storeActs 2 ++ [(2,.exit),(1,.joined)]

def freshRun : List (Nat × Act) :=
  [(1,.atomicBegin),(1,.atomicEnd),(1,.fork 2),(1,.atomicBegin)] ++ storeActs 2 ++
  [(2,.exit),(1,.atomicEnd),(1,.join),(1,.joined),(1,.atomicBegin),(1,.fault),(1,.load 0)]

def staleRun : List (Nat × Act) :=
  joinRun ++ [(1,.atomicBegin),(1,.fault),(1,.load 1),(1,.fault),(1,.store 1),
    (1,.atomicEnd),(1,.waited)]

def mapsLast (s : State σ) : Nat × Act → Bool
  | (pid,.atomicBegin) => (s.procs pid).all fun p => p.mapped = s.past.length
  | _ => true

theorem fresh_of_mapsLast (s : State σ) (x : Nat × Act) (h : mapsLast s x = true) :
    s.Fresh x := by
  obtain ⟨pid,act⟩ := x
  rintro rfl p hp m hm
  have hmapped : p.mapped = s.past.length := by simpa [mapsLast,hp] using h
  have hnow : m = s.now := by simpa [State.moments,hmapped] using hm
  rw [hnow]

/-- The main program begins and reads after the thread's commit; in the other run it mapped
the heap before. -/
theorem snapshot_not_newer_handover :
    (∃ s p r, s.procs 1 = some p ∧ p.pc.open ∧ r ∈ p.seen ∧ r.commits = 1 ∧ r.value = 1 ∧
      Snapshot handover s) ∧
    ∃ s s', Step handover s (1,.atomicBegin) s' ∧ ¬ s.Fresh (1,.atomicBegin) ∧
      ¬ Snapshot handover s' := by
  have hmain := snapshot_not_newer handover 1 .main fun _ => 0
  constructor
  · have hrun : (execute (guarded mapsLast handover.step) (initial 1 .main fun _ => 0)
        freshRun).any (fun s => (s.procs 1).any fun p => p.pc.open &&
          p.seen.any fun r => r.commits = 1 && r.value = 1) = true := by decide +kernel
    obtain ⟨s,hr,hv⟩ := execute_any (guarded_sound fresh_of_mapsLast handover.step_sound) hrun
    simp only [Bool.and_eq_true,decide_eq_true_eq,Option.any_eq_true,List.any_eq_true] at hv
    obtain ⟨p,hp,ho,r,hseen,hcommits,hvalue⟩ := hv
    exact ⟨s,p,r,hp,ho,hseen,hcommits,hvalue,hmain.1 s hr⟩
  obtain ⟨s,hs,hv⟩ := System.run_any handover (initial 1 .main fun _ => 0)
    joinRun (fun s => ((s.procs 1).any fun p =>
      (s.moments p).map (fun m => m.commits 0x100000) = [1,0]) &&
        s.now.commits 0x100000 = 1 && (handover.step s (1,.atomicBegin)).isSome)
    (by decide +kernel)
  simp only [Bool.and_eq_true,decide_eq_true_eq,Option.any_eq_true,
    Option.isSome_iff_exists] at hv
  obtain ⟨⟨⟨p,hp,hmoments⟩,hnow⟩,s',hs'⟩ := hv
  have hstale : ¬ s.Fresh (1,.atomicBegin) := by
    intro h
    obtain ⟨m,hm,h0⟩ := List.mem_map.mp
      (hmoments ▸ (by simp : 0 ∈ [1,0]) : 0 ∈ (s.moments p).map fun m => m.commits 0x100000)
    rw [h rfl p hp m hm,hnow] at h0
    cases h0
  have hstep := handover.step_sound _ _ _ hs'
  exact ⟨s,s',hstep,hstale,hmain.2 rfl s s' 1 hs hstep hstale⟩

/-- The attempt recorded version 1 of a page that it read without the commit, it passes the
check, and its commit takes the thread's byte back. -/
theorem snapshot_fails : ∃ s p r, Reachable (Step handover) (initial 1 .main fun _ => 0) s ∧
    s.procs 1 = some p ∧ p.pc.open ∧ r ∈ p.seen ∧
    r.commits < version p.localPageVersion (pageOf r.addr) ∧ s.mutex = none ∧
    isHeapConsistent p.readSetVersion s.globalPageVersion = true ∧
    r.value ≠ s.now.bytes r.addr ∧
    ∃ s', Reachable (Step handover) s s' ∧ s'.mutex = none ∧ s.now.bytes 0x100000 = 1 ∧
      s'.now.bytes 0x100000 = 0 := by
  obtain ⟨s,hs,hv⟩ := System.run_any handover (initial 1 .main fun _ => 0)
    staleRun (fun s => ((s.procs 1).any fun p => p.pc.open &&
      (p.seen.any fun r => r.commits < version p.localPageVersion (pageOf r.addr) &&
        r.value ≠ s.now.bytes r.addr) &&
      isHeapConsistent p.readSetVersion s.globalPageVersion) &&
      s.mutex = none && s.now.bytes 0x100000 = 1 &&
      (handover.run s (commitActs 1 0x100000)).any fun s' => s'.mutex = none &&
        s'.now.bytes 0x100000 = 0) (by decide +kernel)
  simp only [Bool.and_eq_true,decide_eq_true_eq,Option.any_eq_true,List.any_eq_true] at hv
  obtain ⟨⟨⟨⟨p,hp,⟨ho,r,hr,hlt,hne⟩,hcons⟩,hm⟩,hnow⟩,s',hs',hm',hnow'⟩ := hv
  exact ⟨s,p,r,hs,hp,ho,hr,hlt,hm,hcons,hne,s',handover.run_reachable hs',hm',hnow,hnow'⟩

end GThread
