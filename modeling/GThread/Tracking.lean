import GThread.System
import GThread.Library.Processes

/-! The tracking sets, the page protections and the private copies of one process stay in
step through every fault, access and remapping. -/
namespace GThread
open Replay Transition
variable {σ : Type}

/-- From the end of `AtomicBegin` until the heap is mapped again. -/
def PC.active : PC σ → Prop
  | .run | .waitPred _ | .lock _ | .commit _ _ | .copy _ _ _ => True
  | _ => False

def PC.pending : PC σ → Finset Nat
  | .commit _ todo => todo
  | .copy _ todo page => insert page todo
  | _ => ∅

def PC.clean : PC σ → Prop
  | .atomicBegin _ | .ended _ | .wait _ _ => True
  | _ => False

def PC.ending : PC σ → Option (End σ)
  | .waitPred e | .lock e | .commit e _ | .copy e _ _ | .ended e => some e
  | _ => none

theorem PC.active_iff {pc : PC σ} : pc.active ↔ pc.open ∨ pc.committing := by
  cases pc <;> simp [PC.active,PC.open,PC.committing]

theorem PC.open.active {pc : PC σ} (h : pc.open) : pc.active := PC.active_iff.mpr (.inl h)
theorem PC.committing.active {pc : PC σ} (h : pc.committing) : pc.active :=
  PC.active_iff.mpr (.inr h)

theorem PC.committing_of_pending {pc : PC σ} {page : Nat} (h : page ∈ pc.pending) :
    pc.committing := by
  cases pc <;> simp_all [PC.pending,PC.committing]

structure Tracked (L : Layout) (t : Attempt) : Prop where
  readVersion : ∀ page v, t.readSetVersion.lookup page = some v →
    v = version t.localPageVersion page
  writeVersion : ∀ page v, t.writeSetVersion.lookup page = some v →
    v = version t.localPageVersion page + 1
  written : ∀ page ∈ t.writeSetVersion, page ∈ t.readSetVersion
  heap : ∀ page ∈ t.readSetVersion, L.HeapPage page
  prot : ∀ page, t.prot page = if page ∈ t.writeSetVersion then .readWrite
    else if page ∈ t.readSetVersion then .read else .none
  copied : ∀ page, t.copies page ≠ none → page ∈ t.writeSetVersion
  logged : ∀ x ∈ t.log, pageOf x.addr ∈ t.readSetVersion
  saw : ∀ r ∈ t.seen, pageOf r.addr ∈ t.readSetVersion

theorem tracked_atomicBegin {L : Layout} {t : Attempt} (h : t.copies = fun _ => none)
    (g : VersionMap) (n : Nat) : Tracked L (t.atomicBegin g n) := by
  constructor <;> simp [Attempt.atomicBegin,h,Finmap.notMem_empty]

theorem mprotectIn_ok {L : Layout} {M : Memory L} {t t' : Attempt} {page : Nat} {prot : Prot}
    (h : t.mprotectIn M page prot = (t',none)) :
    M.mapped page = true ∧ t' = { t with prot := Function.update t.prot page prot } := by
  unfold Attempt.mprotectIn at h
  split at h
  · cases h
    exact ⟨‹_›,rfl⟩
  · cases h

theorem handleReadsIn_ok {L : Layout} {M : Memory L} {t t' : Attempt} {page : Nat}
    (h : t.handleReadsIn M page = (t',none)) : M.mapped page = true ∧
      t' = { t with
        readSetVersion := t.readSetVersion.insert page (version t.localPageVersion page)
        prot := Function.update t.prot page .read } := by
  obtain ⟨hp,rfl⟩ := mprotectIn_ok h
  refine ⟨hp,?_⟩
  unfold version
  cases t.localPageVersion.lookup page <;> rfl

theorem handleWritesIn_ok {L : Layout} {M : Memory L} {t t' : Attempt} {page : Nat}
    (h : t.handleWritesIn M page = (t',none)) : M.mapped page = true ∧
      t' = { t with
        writeSetVersion := t.writeSetVersion.insert page (version t.localPageVersion page + 1)
        prot := Function.update t.prot page .readWrite } := by
  obtain ⟨hp,rfl⟩ := mprotectIn_ok h
  refine ⟨hp,?_⟩
  unfold version
  cases t.localPageVersion.lookup page <;> rfl

theorem segfaultHandler_eq_ok {L : Layout} {t t' : Attempt} {a : Nat} :
    t.segfaultHandler L a = .ok t' ↔ t.segfaultHandlerIn (.heapOnly L) a = (t',none) := by
  unfold Attempt.segfaultHandler
  split <;> simp_all

theorem segfaultHandler_ok {L : Layout} {t t' : Attempt} {a : Nat}
    (h : t.segfaultHandler L a = .ok t') : L.HeapPage (pageOf a) ∧
      (pageOf a ∈ t.readSetVersion ∧ t' = { t with
        writeSetVersion := t.writeSetVersion.insert (pageOf a)
          (version t.localPageVersion (pageOf a) + 1)
        prot := Function.update t.prot (pageOf a) .readWrite } ∨
      pageOf a ∉ t.readSetVersion ∧ t' = { t with
        readSetVersion := t.readSetVersion.insert (pageOf a)
          (version t.localPageVersion (pageOf a))
        prot := Function.update t.prot (pageOf a) .read }) := by
  rw [segfaultHandler_eq_ok] at h
  dsimp only [Attempt.segfaultHandlerIn] at h
  split at h
  · cases h
  · split at h
    · obtain ⟨hp,rfl⟩ := handleWritesIn_ok h
      exact ⟨of_decide_eq_true hp,.inl ⟨‹_›,rfl⟩⟩
    · obtain ⟨hp,rfl⟩ := handleReadsIn_ok h
      exact ⟨of_decide_eq_true hp,.inr ⟨‹_›,rfl⟩⟩

theorem segfaultHandler_error {L : Layout} {t : Attempt} {a : Nat} {e : Exit}
    (h : t.segfaultHandler L a = .error e) : e = .segv ∨ e = .abort := by
  dsimp only [Attempt.segfaultHandler,Attempt.segfaultHandlerIn,Attempt.handleWritesIn,
    Attempt.handleReadsIn,Attempt.mprotectIn] at h
  split_ifs at h <;> cases h
  · exact .inl rfl
  · exact .inr rfl
  · exact .inr rfl

theorem segfaultHandler_inHeap {L : Layout} (t : Attempt) {a : Nat} (h : L.InHeap a) :
    ∃ t', t.segfaultHandler L a = .ok t' := by
  have hpage : L.HeapPage (roundDown a pageSize) := L.heapPage_pageOf h
  have hmapped := (Memory.heapOnly L).heap _ hpage
  obtain ⟨hlo,hhi⟩ := hpage.2
  simp only [segfaultHandler_eq_ok]
  dsimp only [Attempt.segfaultHandlerIn]
  rw [if_neg (by omega)]
  simp only [Attempt.handleWritesIn,Attempt.handleReadsIn,Attempt.mprotectIn,hmapped,if_true]
  split <;> exact ⟨_,rfl⟩

theorem lookup_insert_cases {m : VersionMap} {k k' v v' : Nat}
    (h : (m.insert k v).lookup k' = some v') : k' = k ∧ v' = v ∨ m.lookup k' = some v' := by
  by_cases hk : k' = k
  · subst k'
    rw [Finmap.lookup_insert] at h
    exact .inl ⟨rfl,(Option.some.inj h).symm⟩
  · rw [Finmap.lookup_insert_of_ne _ hk] at h
    exact .inr h

theorem Tracked.segfaultHandler {L : Layout} {t t' : Attempt} {a : Nat} (h : Tracked L t)
    (ht : t.segfaultHandler L a = .ok t') : Tracked L t' := by
  obtain ⟨hp,⟨hr,rfl⟩ | ⟨hr,rfl⟩⟩ := segfaultHandler_ok ht
  · have hold : ∀ page, page ∈ t.writeSetVersion.insert (pageOf a)
        (version t.localPageVersion (pageOf a) + 1) ↔ page = pageOf a ∨ page ∈ t.writeSetVersion :=
      fun page => Finmap.mem_insert
    refine ⟨h.readVersion,?_,?_,h.heap,?_,?_,h.logged,h.saw⟩
    · intro page v hv
      obtain ⟨rfl,rfl⟩ | hv := lookup_insert_cases hv
      · rfl
      · exact h.writeVersion page v hv
    · intro page hw
      obtain rfl | hw := (hold page).mp hw
      · exact hr
      · exact h.written page hw
    · intro page
      by_cases hpage : page = pageOf a
      · subst page; simp [Finmap.mem_insert]
      · simp [Finmap.mem_insert,hpage,h.prot page]
    · exact fun page hc => (hold page).mpr (.inr (h.copied page hc))
  · have hnw : pageOf a ∉ t.writeSetVersion := fun hw => hr (h.written _ hw)
    have grow : ∀ page ∈ t.readSetVersion, page ∈ t.readSetVersion.insert (pageOf a)
        (version t.localPageVersion (pageOf a)) :=
      fun page hp => Finmap.mem_insert.mpr (.inr hp)
    refine ⟨?_,h.writeVersion,fun page hw => grow _ (h.written page hw),?_,?_,h.copied,
      fun x hx => grow _ (h.logged x hx),fun r hr => grow _ (h.saw r hr)⟩
    · intro page v hv
      obtain ⟨rfl,rfl⟩ | hv := lookup_insert_cases hv
      · rfl
      · exact h.readVersion page v hv
    · intro page hin
      obtain rfl | hin := Finmap.mem_insert.mp hin
      · exact hp
      · exact h.heap page hin
    · intro page
      by_cases hpage : page = pageOf a
      · subst page; simp [Finmap.mem_insert,hnw]
      · simp [Finmap.mem_insert,hpage,h.prot page]

theorem Tracked.mem_of_readable {L : Layout} {t : Attempt} (h : Tracked L t) {page : Nat}
    (hp : t.prot page ≠ .none) : page ∈ t.readSetVersion := by
  rw [h.prot page] at hp
  by_cases hw : page ∈ t.writeSetVersion
  · exact h.written page hw
  · by_contra hr
    simp [hw,hr] at hp

theorem Tracked.mem_of_writable {L : Layout} {t : Attempt} (h : Tracked L t) {page : Nat}
    (hp : t.prot page = .readWrite) : page ∈ t.writeSetVersion := by
  rw [h.prot page] at hp
  by_contra hw
  rw [if_neg hw] at hp
  split at hp <;> cases hp

theorem Tracked.load {L : Layout} {t : Attempt} (h : Tracked L t) {a : Nat}
    (ha : t.prot (pageOf a) ≠ .none) (m : Moment) : Tracked L (t.load m a) := by
  have hr := h.mem_of_readable ha
  refine ⟨h.readVersion,h.writeVersion,h.written,h.heap,h.prot,h.copied,?_,?_⟩
  · intro x hx
    obtain rfl | hx := List.mem_cons.mp hx
    · exact hr
    · exact h.logged x hx
  · intro r hs
    unfold Attempt.load at hs
    dsimp only at hs
    split at hs
    · exact h.saw r hs
    · obtain rfl | hs := List.mem_cons.mp hs
      · exact hr
      · exact h.saw r hs

theorem Tracked.store {L : Layout} {t : Attempt} (h : Tracked L t) {a : Nat}
    (ha : t.prot (pageOf a) = .readWrite) (m : Moment) (b : Byte) :
    Tracked L (t.store m a b) := by
  have hw := h.mem_of_writable ha
  refine ⟨h.readVersion,h.writeVersion,h.written,h.heap,h.prot,?_,?_,h.saw⟩
  · intro page hc
    by_cases hp : page = pageOf a
    · exact hp ▸ hw
    · exact h.copied page (by simpa [Attempt.store,hp] using hc)
  · intro x hx
    obtain rfl | hx := List.mem_cons.mp hx
    · exact h.written _ hw
    · exact h.logged x hx

structure Local (S : System σ) (p : Proc σ) : Prop where
  tracked : p.pc.active → Tracked S.layout p.toAttempt
  pending : p.pc.pending ⊆ p.writeSetVersion.keys
  clean : p.pc.clean → p.copies = fun _ => none
  single : ∀ e todo page, p.pc = .copy e todo page → page ∉ todo
  ending : ∀ e, p.pc.ending = some e → S.endOf p = some e

theorem Local.heapPage {S : System σ} {p : Proc σ} (h : Local S p) {page : Nat}
    (hpage : page ∈ p.pc.pending) : S.layout.HeapPage page ∧ page ∈ p.writeSetVersion := by
  have ht := h.tracked (PC.committing_of_pending hpage).active
  have hw := Finmap.mem_keys.mp (h.pending hpage)
  exact ⟨ht.heap page (ht.written page hw),hw⟩

theorem forall_put_ne {I : Nat → Proc σ → Prop} {s : State σ} {pid : Nat} {p : Proc σ}
    (hs : ∀ q r, q ≠ pid → s.procs q = some r → I q r) (hp : I pid p) :
    ∀ q r, (s.put pid p).procs q = some r → I q r :=
  Processes.forall_update_ne hs fun _ hr => Option.some.inj hr ▸ hp

theorem forall_put {I : Nat → Proc σ → Prop} {s : State σ} {pid : Nat} {p : Proc σ}
    (hs : ∀ q r, s.procs q = some r → I q r) (hp : I pid p) :
    ∀ q r, (s.put pid p).procs q = some r → I q r :=
  forall_put_ne (fun q r _ => hs q r) hp

theorem forall_fork {I : Nat → Proc σ → Prop} {S : System σ} {s : State σ} {pid child : Nat}
    {p : Proc σ} {f : σ} {c : Nat → Context σ} (hs : ∀ q r, s.procs q = some r → I q r)
    (parent : I pid { p with predecessor := child, pc := .atomicBegin (c child) })
    (new : I child { p with
      parent := pid
      predecessor := if S.order then p.predecessor else 0
      elder := if S.order then p.predecessor else 0
      pc := .atomicBegin ⟨none,f⟩ }) :
    ∀ q r, (S.forkChild s pid child p f c).procs q = some r → I q r :=
  forall_put (forall_put hs parent) new

/-- All that `WaitExited` can change is that a zombie child gets reaped. -/
theorem waitExited_spec {s s' : State σ} {pid q : Nat} (h : s.waitExited pid q = some s') :
    s' = s ∧ (q = 0 ∨ s.procs q = none ∨ q ∈ s.reaped) ∨
    s' = { s with reaped := insert q s.reaped } ∧
      ∃ r, s.procs q = some r ∧ r.parent = pid ∧ r.pc.exited = true := by
  unfold State.waitExited at h
  split at h
  · exact .inl ⟨(Option.some.inj h).symm,.inl ‹_›⟩
  · split at h
    · exact .inl ⟨(Option.some.inj h).symm,.inr (.inl ‹_›)⟩
    · split at h
      · exact .inl ⟨(Option.some.inj h).symm,.inr (.inr ‹_›)⟩
      · split at h
        · split at h
          · exact .inr ⟨(Option.some.inj h).symm,_,‹_›,‹_›,‹_›⟩
          · cases h
        · cases h

theorem waitExited_procs {s s' : State σ} {pid q : Nat} (h : s.waitExited pid q = some s') :
    s'.procs = s.procs := by
  obtain ⟨rfl,-⟩ | ⟨rfl,-⟩ := waitExited_spec h <;> rfl

theorem Local.tracked_run {S : System σ} {p : Proc σ} (h : Local S p) (hp : p.pc = .run) :
    Tracked S.layout p.toAttempt := h.tracked (by rw [hp]; trivial)

theorem Local.of_pc {S : System σ} {p : Proc σ} {pc : PC σ} (h : Local S p)
    (active : pc.active → p.pc.active) (pending : pc.pending ⊆ p.pc.pending)
    (clean : pc.clean → p.pc.clean) (single : ∀ e todo page, pc ≠ .copy e todo page)
    (ending : ∀ e, pc.ending = some e → p.pc.ending = some e) :
    Local S { p with pc := pc } where
  tracked ha := h.tracked (active ha)
  pending := pending.trans h.pending
  clean hc := h.clean (clean hc)
  single e todo page he := absurd he (single e todo page)
  ending e he := h.ending e (ending e he)

/-- Each step keeps what holds of every process by itself. -/
theorem local_step {S : System σ} {s s' : State σ} {x : Nat × Act} (h : Step S s x s')
    (hs : ∀ q p, s.procs q = some p → Local S p) : ∀ q p, s'.procs q = some p → Local S p := by
  cases h with
  | @atomicBegin pid p c hp hpc hm =>
    have hl := hs pid p hp
    have hc := hl.clean (by rw [hpc]; trivial)
    refine forall_put hs ⟨fun _ => tracked_atomicBegin hc _ _,?_,?_,?_,?_⟩
    · simp [Proc.atomicBegin,PC.pending]
    · exact fun h => h.elim
    · intro _ _ _ h; cases h
    · intro _ h; cases h
  | @load pid p a k i m hp hpc hc ha hm =>
    have ht := (hs pid p hp).tracked_run hpc
    refine forall_put hs ⟨fun _ => ht.load ha.2 m,?_,?_,?_,?_⟩ <;>
      simp [hpc,PC.pending,PC.clean,PC.ending]
  | @store pid p a b k i m hp hpc hc ha hm =>
    have ht := (hs pid p hp).tracked_run hpc
    refine forall_put hs ⟨fun _ => ht.store ha.2 m b,?_,?_,?_,?_⟩ <;>
      simp [hpc,PC.pending,PC.clean,PC.ending]
  | @fault pid p t a hp hpc ha hf =>
    have ht := (hs pid p hp).tracked_run hpc
    refine forall_put hs ⟨fun _ => ht.segfaultHandler hf,?_,?_,?_,?_⟩ <;>
      simp [hpc,PC.pending,PC.clean,PC.ending]
  | @killed pid p _ _ hp hpc | @signaled pid p _ hp hpc =>
    exact forall_put hs ((hs pid p hp).of_pc (by simp [PC.active]) (by simp [PC.pending])
      (by simp [PC.clean]) (by simp) (by simp [PC.ending]))
  | @atomicEnd pid p e hp hpc he =>
    have hl := hs pid p hp
    refine forall_put hs ?_
    unfold Proc.atomicEnd
    split
    · refine ⟨?_,?_,?_,?_,?_⟩
      case refine_5 => rintro _ ⟨⟩; exact he
      all_goals simp [PC.active,PC.pending,Attempt.updateHeap,Attempt.discard]
    · refine ⟨fun _ => hl.tracked_run hpc,?_,?_,?_,?_⟩
      case refine_4 => rintro _ ⟨⟩; exact he
      all_goals simp [PC.pending,PC.clean]
  | @waited pid p e s₁ hp hpc hw =>
    rw [← waitExited_procs hw] at hs hp
    exact forall_put hs ((hs pid p hp).of_pc (by simp [hpc,PC.active]) (by simp [PC.pending])
      (by simp [PC.clean]) (by simp) (by simp [hpc,PC.ending]))
  | @commit pid p e hp hpc hm hc =>
    have hl := hs pid p hp
    refine forall_put (p := { p with pc := .commit e p.writeSetVersion.keys }) hs
      ⟨fun _ => hl.tracked (by rw [hpc]; trivial),?_,?_,?_,?_⟩
    case refine_4 => rintro _ ⟨⟩; exact hl.ending e (by rw [hpc]; rfl)
    all_goals simp [PC.pending,PC.clean]
  | @reject pid p e hp hpc hm hc =>
    exact forall_put (p := { p with pc := .abort }) hs ((hs pid p hp).of_pc
      (by simp [PC.active]) (by simp [PC.pending]) (by simp [PC.clean]) (by simp)
      (by simp [PC.ending]))
  | @page pid p e todo page hp hpc hpage =>
    have hl := hs pid p hp
    have hpend : insert page (todo.erase page) = p.pc.pending := by
      rw [Finset.insert_erase hpage,hpc]; rfl
    refine forall_put hs ⟨fun _ => hl.tracked (by rw [hpc]; trivial),?_,?_,?_,?_⟩
    · exact hpend.subset.trans hl.pending
    · exact fun h => h.elim
    · intro _ _ _ he
      cases he
      exact Finset.notMem_erase page todo
    · intro _ he
      cases he
      exact hl.ending e (by rw [hpc]; rfl)
  | @memcpy pid p e todo page part hp hpc => exact hs
  | @publish pid p e todo page v hp hpc hv =>
    exact forall_put (p := { p with pc := .commit e todo }) hs ((hs pid p hp).of_pc
      (by simp [hpc,PC.active]) (by simp [hpc,PC.pending]) (by simp [PC.clean]) (by simp)
      (by simp [hpc,PC.ending]))
  | @unlock pid p e hp hpc =>
    have hl := hs pid p hp
    refine forall_put (p := { p with
      toAttempt := p.toAttempt.updateHeap s.past.length
      pc := .ended e }) hs ⟨?_,?_,?_,?_,?_⟩
    case refine_5 => rintro _ ⟨⟩; exact hl.ending e (by rw [hpc]; rfl)
    all_goals simp [PC.active,PC.pending,Attempt.updateHeap,Attempt.discard]
  | @abort pid p hp hpc =>
    refine forall_put hs ?_
    constructor <;> simp [PC.active,PC.pending,PC.ending,Attempt.discard]
  | @fork pid p e child f c hp hpc hf hc hn =>
    have hclean := (hs pid p hp).clean (by rw [hpc]; trivial)
    refine forall_fork hs ?_ ?_ <;>
    constructor <;> simp [PC.active,PC.pending,PC.ending,hclean]
  | @forkFailed pid p e y hp hpc hf =>
    exact forall_put hs ((hs pid p hp).of_pc (by simp [PC.active]) (by simp [PC.pending])
      (by simp [PC.clean]) (by simp) (by simp [PC.ending]))
  | @join pid p t k hp hpc =>
    exact forall_put hs ((hs pid p hp).of_pc (by simp [PC.active]) (by simp [PC.pending])
      (by simp [hpc,PC.clean]) (by simp) (by simp [PC.ending]))
  | @joined pid p t k s₁ hp hpc hw =>
    rw [← waitExited_procs hw] at hs hp
    exact forall_put hs ((hs pid p hp).of_pc (by simp [PC.active]) (by simp [PC.pending])
      (by simp [hpc,PC.clean]) (by simp) (by simp [PC.ending]))
  | @interrupted pid p q hp hq hu =>
    exact forall_put hs ((hs pid p hp).of_pc (by simp [PC.active]) (by simp [PC.pending])
      (by simp [PC.clean]) (by simp) (by simp [PC.ending]))
  | @exit pid p hp hpc =>
    exact forall_put hs ((hs pid p hp).of_pc (by simp [PC.active]) (by simp [PC.pending])
      (by simp [PC.clean]) (by simp) (by simp [PC.ending]))
  | @reap pid p hp he ho => exact hs

theorem initial_procs {root : Nat} {x : σ} {file : Heap} {q : Nat} {p : Proc σ}
    (h : (initial root x file).procs q = some p) : q = root ∧ p.pc = .atomicBegin ⟨none,x⟩ := by
  by_cases hq : q = root
  · subst q
    simp only [initial,Function.update_self,Option.some.injEq] at h
    exact ⟨rfl,h ▸ rfl⟩
  · simp [initial,hq] at h

theorem local_initial (S : System σ) (root : Nat) (x : σ) (file : Heap) :
    ∀ q p, (initial root x file).procs q = some p → Local S p := by
  refine forall_put (s := { initial root x file with procs := fun _ => none })
    (by simp) ?_
  constructor <;> simp [PC.active,PC.pending,PC.ending]

end GThread
