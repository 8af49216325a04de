import GThread.Serializability

/-! What a transaction sees while it runs. Nothing is validated before `AtomicCommit`, so
only an attempt that no commit has disturbed is sure to see one committed state. -/
namespace GThread
open Replay Transition
variable {σ : Type}

def System.Committed (S : System σ) (file : Heap) (s : State σ) (H : Heap) : Prop :=
  ∃ k, Serial S.op file ((s.txs.drop k).map Tx.span) H

def System.Touches (S : System σ) (x : σ) (a : Nat) : Prop :=
  (∃ k, S.code x = .load a k) ∨ ∃ b k, S.code x = .store a b k

theorem System.touches_of_faultAddr {S : System σ} {p : Proc σ} {a : Nat}
    (h : S.faultAddr p = some a) : S.Touches p.cur a := by
  unfold System.faultAddr at h
  split at h
  · rename_i a' k hk
    split at h <;> cases h
    exact .inl ⟨k,hk⟩
  · rename_i a' b k hk
    split at h <;> cases h
    exact .inr ⟨b,k,hk⟩
  · cases h

theorem segfaultHandler_segv {L : Layout} {t : Attempt} {a : Nat}
    (h : t.segfaultHandler L a = .error .segv) : ¬ L.InHeap a := by
  intro hin
  obtain ⟨t',ht⟩ := segfaultHandler_inHeap t hin
  cases h.symm.trans ht

/-- An undisturbed attempt is a run of its code alone on the latest committed state. -/
theorem alone_committed {S : System σ} {file : Heap} {s : State σ} {pid : Nat} {p : Proc σ}
    (hs : Sound S s) (hser : Serialized S file s) (hp : s.procs pid = some p)
    (ho : p.pc.open) (hu : s.undisturbed p) :
    ∃ H, Serial S.op file (s.txs.map Tx.span) H ∧ Alone S H p := by
  have halone := hser.attempt pid p hp ho hu
  cases hm : s.mutex with
  | none => exact ⟨s.now.bytes,hser.idle hm,halone⟩
  | some q =>
    obtain ⟨r,hr,hc⟩ := hs.versions.holder q hm
    obtain ⟨H,hH,ha⟩ := hser.busy q r hr hc
    have ht := (hs.each pid p hp).tracked ho.active
    -- the pages still to come were written by a transaction that would disturb `p`
    have hsame : ∀ a, pageOf a ∈ p.readSetVersion → H a = s.now.bytes a := by
      intro a hread
      refine ((ha a).2 fun hpend => ?_).symm
      obtain ⟨tx,htx,hw⟩ :=
        (hs.conflicts.conflict pid p hp ho (pageOf a)).mpr (.inr ⟨q,r,hr,hpend⟩)
      exact hu tx htx _ hw hread
    exact ⟨H,hH,ht.reframe halone.exec hsame,
      fun x hx => (hsame _ (ht.saw x hx)).trans (halone.seen x hx)⟩

/-- As long as no transaction validated since its `AtomicBegin` wrote a page of its read
set, an attempt has seen a part of the latest committed state and does what its code does
alone on that state, and so is killed only where that run touches a bad address. Any other
attempt is rolled back when it gets to the check. -/
theorem undisturbed_consistent (S : System σ) (hlive : S.live = true) (root : Nat) (x : σ)
    (file : Heap) (s : State σ) (h : Reachable (Step S) (initial root x file) s) (pid : Nat)
    (p : Proc σ) (hp : s.procs pid = some p) (ho : p.pc.open) :
    (s.undisturbed p → ∃ H, Serial S.op file (s.txs.map Tx.span) H ∧
      (∀ r ∈ p.seen, H r.addr = r.value) ∧
      (∃ g, Exec S.op p.context.next H p.log p.cur g) ∧
      ∀ s', Step S s (pid,.fault) s' →
        (∃ q, s'.procs pid = some q ∧ q.pc = .zombie .segv) →
        ∃ a, S.Touches p.cur a ∧ ¬ S.layout.InHeap a) ∧
    (¬ s.undisturbed p → ∀ s', Step S s (pid,.lock) s' →
      s'.procs pid = some { p with pc := .abort } ∧ s'.txs = s.txs) := by
  have hs := sound_reachable h
  constructor
  · intro hu
    obtain ⟨H,hH,halone⟩ := alone_committed hs (serialized_reachable hlive h) hp ho hu
    refine ⟨H,hH,halone.seen,⟨_,halone.exec⟩,?_⟩
    intro s' hstep hend
    obtain ⟨q,hq,hpc⟩ := hend
    cases hstep with
    | fault hp' hpc' ha hf =>
      cases hp.symm.trans hp'
      obtain rfl := Option.some.inj ((by simpa [State.put] using hq) : some _ = some q)
      simp [hpc'] at hpc
    | killed hp' hpc' ha hf =>
      cases hp.symm.trans hp'
      obtain rfl := Option.some.inj ((by simpa [State.put] using hq) : some _ = some q)
      obtain rfl := PC.zombie.inj hpc
      exact ⟨_,S.touches_of_faultAddr ha,segfaultHandler_segv hf⟩
  · intro hu s' hstep
    cases hstep with
    | commit hp' hpc hm hc =>
      cases hp.symm.trans hp'
      exact absurd ((consistent_iff (hs.each pid p hp) hs.versions hs.conflicts hp ho hm).mp hc)
        hu
    | reject hp' hpc hm hc =>
      cases hp.symm.trans hp'
      exact ⟨by simp [State.put],rfl⟩

/-- A thread sets two bytes on different pages to 1; the main program reads both and
touches address 0 if they differ. -/
inductive Pair where
  | main
  | first (t : Nat)
  | second (t : Nat) (a : Byte)
  | check (t : Nat) (a b : Byte)
  | thread
  | half
  | done
  deriving DecidableEq

def pairLow : Nat := 0x100000
def pairHigh : Nat := 0x101000

def Pair.code : Pair → Instr Pair
  | .main => .create .thread .first
  | .first t => .load pairLow (.second t)
  | .second t a => .load pairHigh (.check t a)
  | .check t a b => if a = b then .join t .done else .load 0 fun _ => .done
  | .thread => .store pairLow 1 .half
  | .half => .store pairHigh 1 .done
  | .done => .ret

def pair : System Pair := ⟨Pair.code,.adjacent,true,true⟩

def Pair.Even : Pair → Heap → Prop
  | .half, g => g pairLow = 1
  | _, g => g pairLow = g pairHigh

theorem Pair.Even.exec {x y : Pair} {H g : Heap} {l : List (Access Nat Byte)}
    (hx : x.Even H) (h : Exec pair.op x H l y g) : y.Even g := by
  induction h with
  | nil => exact hx
  | @load l y g a k hl ho ih =>
    cases y with
    | check t b c =>
      by_cases hbc : b = c
      · simp [System.op,pair,Pair.code,hbc,Instr.op] at ho
      · simp only [System.op,pair,Pair.code,hbc,Instr.op,if_false,Op.load.injEq] at ho
        rw [← ho.2]
        exact ih
    | first t | second t b =>
      simp only [System.op,pair,Pair.code,Instr.op,Op.load.injEq] at ho
      rw [← ho.2]
      exact ih
    | _ => simp [System.op,pair,Pair.code,Instr.op] at ho
  | @store l y g a b k hl ho ih =>
    cases y with
    | thread =>
      simp only [System.op,pair,Pair.code,Instr.op,Op.store.injEq] at ho
      obtain ⟨rfl,rfl,rfl⟩ := ho
      simp [Pair.Even]
    | half =>
      simp only [System.op,pair,Pair.code,Instr.op,Op.store.injEq] at ho
      obtain ⟨rfl,rfl,rfl⟩ := ho
      have hlow : g pairLow = 1 := ih
      simpa [Pair.Even,pairLow,pairHigh] using hlow
    | check t b c =>
      by_cases hbc : b = c <;> simp [System.op,pair,Pair.code,hbc,Instr.op] at ho
    | _ => simp [System.op,pair,Pair.code,Instr.op] at ho

theorem Pair.serial_even {file H : Heap} (hfile : file pairLow = file pairHigh)
    {spans : List (Span Nat Byte Pair)} (starts : ∀ x ∈ spans, x.start ≠ .half)
    (h : Serial pair.op file spans H) : H pairLow = H pairHigh := by
  induction h with
  | nil => exact hfile
  | @cons x l g g' hl he ho ih =>
    have hg := ih fun y hy => starts y (List.mem_cons_of_mem _ hy)
    have hstart : x.start.Even g := by
      have := starts x List.mem_cons_self
      cases hx : x.start <;> simp_all [Pair.Even]
    have hstop := hstart.exec he
    cases hx : x.stop <;>
      simp_all [Pair.Even,System.op,pair,Pair.code,Instr.op]

theorem Pair.exec_first {t : Nat} {y : Pair} {H g : Heap} {l : List (Access Nat Byte)}
    (heq : H pairLow = H pairHigh) (h : Exec pair.op (.first t) H l y g) :
    g = H ∧ (y = .first t ∨ y = .second t (H pairLow) ∨
      y = .check t (H pairLow) (H pairLow)) := by
  induction h with
  | nil => exact ⟨rfl,.inl rfl⟩
  | @load l y g a k hl ho ih =>
    obtain ⟨rfl,rfl | rfl | rfl⟩ := ih
    · simp only [System.op,pair,Pair.code,Instr.op,Op.load.injEq] at ho
      obtain ⟨rfl,rfl⟩ := ho
      exact ⟨rfl,.inr (.inl rfl)⟩
    · simp only [System.op,pair,Pair.code,Instr.op,Op.load.injEq] at ho
      obtain ⟨rfl,rfl⟩ := ho
      exact ⟨rfl,.inr (.inr (by rw [← heq]))⟩
    · simp [System.op,pair,Pair.code,Instr.op] at ho
  | @store l y g a b k hl ho ih =>
    obtain ⟨-,rfl | rfl | rfl⟩ := ih <;> simp [System.op,pair,Pair.code,Instr.op] at ho

def pairRun : List (Nat × Act) :=
  [(1,.atomicBegin),(1,.atomicEnd),(1,.fork 2),(1,.atomicBegin),(1,.fault),(1,.load 0),
    (2,.atomicBegin),(2,.fault),(2,.fault),(2,.store 0),(2,.fault),(2,.fault),(2,.store 0),
    (2,.atomicEnd),(2,.waited),(2,.lock),(2,.page pairLow),(2,.publish),(2,.page pairHigh),
    (2,.publish),(2,.unlock),(1,.fault),(1,.load 0)]

theorem undisturbed_consistent_pair : ∃ s p, s.procs 1 = some p ∧ s.undisturbed p ∧
    p.seen ≠ [] ∧
    (s.undisturbed p → ∃ H, Serial pair.op (fun _ => 0) (s.txs.map Tx.span) H ∧
      (∀ r ∈ p.seen, H r.addr = r.value) ∧
      (∃ g, Exec pair.op p.context.next H p.log p.cur g) ∧
      ∀ s', Step pair s (1,.fault) s' →
        (∃ q, s'.procs 1 = some q ∧ q.pc = .zombie .segv) →
        ∃ a, pair.Touches p.cur a ∧ ¬ pair.layout.InHeap a) ∧
    (¬ s.undisturbed p → ∀ s', Step pair s (1,.lock) s' →
      s'.procs 1 = some { p with pc := .abort } ∧ s'.txs = s.txs) := by
  obtain ⟨s,hs,hv⟩ := System.run_any pair (initial 1 .main fun _ => 0)
    (pairRun.take 6) (fun s => s.txs.length = 0 && (s.procs 1).any fun p =>
      p.pc.open && p.seen.length = 1) (by decide +kernel)
  simp only [Bool.and_eq_true,decide_eq_true_eq,Option.any_eq_true] at hv
  obtain ⟨htxs,p,hp,ho,hseen⟩ := hv
  refine ⟨s,p,hp,?_,?_,undisturbed_consistent pair rfl 1 .main (fun _ => 0) s hs 1 p hp ho⟩
  · intro tx htx
    simp [State.since,List.length_eq_zero_iff.mp htxs] at htx
  · intro h
    simp [h] at hseen

/-- The bytes the main program has read are in no committed state, and the access it makes
because of them kills it, although it makes none alone on any heap that transactions of this
program lead to. -/
theorem opacity_fails : ∃ s p, Reachable (Step pair) (initial 1 .main fun _ => 0) s ∧
    s.procs 1 = some p ∧ p.pc.open ∧
    (¬ ∃ H, pair.Committed (fun _ => 0) s H ∧ ∀ r ∈ p.seen, H r.addr = r.value) ∧
    (∃ s' q, Step pair s (1,.fault) s' ∧ s'.procs 1 = some q ∧ q.pc = .zombie .segv) ∧
    ∀ spans H, (∀ x ∈ spans, x.start ≠ .half) → Serial pair.op (fun _ => 0) spans H →
      ∀ t l y g, Exec pair.op (.first t) H l y g →
        ∀ a, pair.Touches y a → pair.layout.InHeap a := by
  obtain ⟨s,hs,hv⟩ := System.run_any pair (initial 1 .main fun _ => 0)
    pairRun (fun s => s.txs.map (·.span.start) = [.thread] &&
      ((s.procs 1).any fun p => p.pc.open &&
        p.seen.map (fun r => (r.addr,r.value)) = [(pairHigh,1),(pairLow,0)]) &&
      (pair.step s (1,.fault)).any fun s' => (s'.procs 1).any fun p => p.pc.exit = some .segv)
    (by decide +kernel)
  simp only [Bool.and_eq_true,decide_eq_true_eq,Option.any_eq_true] at hv
  obtain ⟨⟨htxs,p,hp,ho,hseen⟩,s',hs',q,hq,he⟩ := hv
  refine ⟨s,p,hs,hp,ho,?_,?_,?_⟩
  · intro hex
    obtain ⟨H,⟨k,hH⟩,hall⟩ := hex
    have heq : H pairLow = H pairHigh := Pair.serial_even rfl (fun x hx => ?_) hH
    · have hall : ∀ x ∈ p.seen.map fun r => (r.addr,r.value), H x.1 = x.2 := by
        simpa using hall
      simp [hseen,heq] at hall
      simp [hall.1] at hall
    · obtain ⟨t,ht,rfl⟩ := List.mem_map.mp hx
      have := List.mem_map_of_mem (f := fun t : Tx Pair => t.span.start)
        (List.mem_of_mem_drop ht)
      rw [htxs] at this
      simp [List.mem_singleton.mp this]
  · exact ⟨s',q,pair.step_sound _ _ _ hs',hq,PC.exit_eq.mp he⟩
  · intro spans H starts hser t l y g he a ha
    have heq := Pair.serial_even rfl starts hser
    obtain ⟨-,rfl | rfl | rfl⟩ := Pair.exec_first heq he <;>
      simp [System.Touches,pair,Pair.code] at ha
    · subst ha; decide
    · subst ha; decide

end GThread
