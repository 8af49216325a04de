import GThread.Determinacy
import Mathlib.Order.CompletePartialOrder

/-! Data-race freedom on the atomic machine is enough for the sequential result. A program has it
when every thread gives away for good the memory that the threads it creates may touch. -/
namespace GThread
open Replay Transition Insertion
variable {τ : Type}

section
variable {code : τ → Cmd τ}

/-- Each part of the program has its own memory, and a thread and the rest of its creator
have nothing in common. -/
structure Separated (code : τ → Cmd τ) (own : τ → Set Nat) : Prop where
  load : ∀ x a k, code x = .load a k → a ∈ own x ∧ ∀ b, own (k b) ⊆ own x
  store : ∀ x a b k, code x = .store a b k → a ∈ own x ∧ own k ⊆ own x
  create : ∀ x f k, code x = .create f k →
    own f ⊆ own x ∧ own k ⊆ own x ∧ Disjoint (own f) (own k)
  join : ∀ x i k, code x = .join i k → own k ⊆ own x

variable {own : τ → Set Nat} {S : System (τ × List Nat)} {a a' : AtomicMachine (τ × List Nat)}

theorem Separated.reaches (h : Separated code own) {x y : τ} (hr : Reaches code x y) :
    own y ⊆ own x := by
  induction hr with
  | refl => exact subset_rfl
  | load hc _ ih => exact ih.trans ((h.load _ _ _ hc).2 _)
  | store hc _ ih => exact ih.trans (h.store _ _ _ _ hc).2
  | child hc _ ih => exact ih.trans (h.create _ _ _ hc).1
  | create hc _ ih => exact ih.trans (h.create _ _ _ hc).2.1
  | join hc _ ih => exact ih.trans (h.join _ _ _ hc)

theorem Separated.accesses (h : Separated code own) {x : τ} {b : Nat}
    (hacc : Accesses code x b) : b ∈ own x := by
  obtain ⟨y,c,k,hr,hc⟩ | ⟨y,k,hr,hc⟩ := hacc
  · exact h.reaches hr (h.store y b c k hc).1
  · exact h.reaches hr (h.load y b k hc).1

theorem Separated.exec (h : Separated code own) (hS : S.code = forkJoin code)
    {x y : τ × List Nat} {m g : Heap} {log : List (Access Nat Byte)}
    (he : Exec S.op x m log y g) :
    own y.1 ⊆ own x.1 ∧ ∀ z ∈ log, z.addr ∈ own x.1 := by
  rw [op_eq hS S.layout] at he
  induction he with
  | nil => exact ⟨subset_rfl,by simp⟩
  | load _ ho ih =>
    obtain ⟨k',hk,hk'⟩ := forkJoin_load (Instr.op_load ho)
    obtain ⟨hin,hsub⟩ := h.load _ _ _ hk
    refine ⟨?_,fun z hz => ?_⟩
    · rw [hk']
      exact (hsub _).trans ih.1
    · obtain rfl | hz := List.mem_cons.mp hz
      · exact ih.1 hin
      · exact ih.2 z hz
  | store _ ho ih =>
    obtain ⟨k',hk,rfl⟩ := forkJoin_store (Instr.op_store ho)
    obtain ⟨hin,hsub⟩ := h.store _ _ _ _ hk
    refine ⟨hsub.trans ih.1,fun z hz => ?_⟩
    obtain rfl | hz := List.mem_cons.mp hz
    · exact ih.1 hin
    · exact ih.2 z hz

def Parted (own : τ → Set Nat) (l : List τ) : Prop :=
  l.Pairwise fun x y => Disjoint (own x) (own y)

theorem Parted.refine {pre mid post r : List τ} (h : Parted own (pre ++ (mid ++ post)))
    (hr : Parted own r) (sub : ∀ y ∈ r, ∃ x ∈ mid, own y ⊆ own x) :
    Parted own (pre ++ (r ++ post)) := by
  obtain ⟨hpre,hrest,hcross⟩ := List.pairwise_append.mp h
  obtain ⟨-,hpost,hmid⟩ := List.pairwise_append.mp hrest
  refine List.pairwise_append.mpr ⟨hpre,List.pairwise_append.mpr ⟨hr,hpost,?_⟩,?_⟩
  · intro y hy z hz
    obtain ⟨x,hx,hyx⟩ := sub y hy
    exact (hmid x hx z hz).mono_left hyx
  · intro z hz y hy
    obtain hy | hy := List.mem_append.mp hy
    · obtain ⟨x,hx,hyx⟩ := sub y hy
      exact (hcross z hz x (List.mem_append_left _ hx)).mono_right hyx
    · exact hcross z hz y (List.mem_append_right _ hy)

theorem Separated.ends (h : Separated code own) (hS : S.code = forkJoin code)
    {gthreads : List Nat} {y : τ × List Nat} {e : End (τ × List Nat)}
    (he : S.ends gthreads y = some e) :
    Parted own e.residual ∧ ∀ z ∈ e.residual, own z ⊆ own y.1 := by
  unfold System.ends at he
  rw [hS] at he
  unfold forkJoin at he
  cases hc : code y.1 with
  | load b k => simp [hc] at he
  | store b v k => simp [hc] at he
  | create f k =>
    simp only [hc,Option.some.injEq] at he
    subst he
    obtain ⟨hf,hk,hdis⟩ := h.create _ _ _ hc
    simp [Parted,End.residual,hf,hk,hdis]
  | join i k =>
    simp only [hc,Option.some.injEq] at he
    subst he
    simpa [Parted,End.residual] using h.join _ _ _ hc
  | ret =>
    simp only [hc,Option.some.injEq] at he
    subst he
    simp [Parted,End.residual]

theorem parted_step (h : Separated code own) (hS : S.code = forkJoin code)
    {y : Nat × AtomicAct} (hstep : AtomicStep S a y a') (hl : Listed a) (hcall : a.Called S)
    (hp : Parted own a.residuals) : Parted own a'.residuals := by
  obtain hsame | ⟨pre,u,v,post,hold,hnew,hv⟩ := residuals_step hS hstep hl hcall
  · exact hsame ▸ hp
  · rw [hold] at hp
    rw [hnew]
    obtain rfl | ⟨z,log,w,heap,l,e,hexec,hend,rfl,rfl⟩ := hv
    · exact hp.refine .nil fun z hz => by cases hz
    · obtain ⟨hpart,hsub⟩ := h.ends hS hend
      exact hp.refine hpart fun x hx =>
        ⟨z.1,List.mem_singleton_self _,(hsub x hx).trans (h.exec hS hexec).1⟩

theorem parted_reachable (h : Separated code own) (hS : S.code = forkJoin code) {root : Nat}
    {x : τ} {file : Heap} (hr : Reachable (AtomicStep S) (.initial root (x,[]) file) a) :
    Parted own a.residuals := by
  suffices hboth : a.Called S ∧ Parted own a.residuals from hboth.2
  refine hr.invariant_within (J := Listed) (I := fun a => a.Called S ∧ Parted own a.residuals)
    (fun _ => listed_reachable) ⟨called_initial S root (x,[]) file,?_⟩ fun t y u hl hinv hstep => ?_
  · simp [AtomicMachine.residuals,AtomicMachine.residual,AtomicMachine.initial,Thread.residual,
      Parted]
  · exact ⟨called_step hstep hinv.1,parted_step h hS hstep hl hinv.1 hinv.2⟩

theorem raceFree_of_separated (h : Separated code own) (hS : S.code = forkJoin code) {root : Nat}
    {x : τ} {file : Heap} (hr : Reachable (AtomicStep S) (.initial root (x,[]) file) a) :
    a.RaceFree code S := by
  intro pid t c log y heap htx pre post hord
  have hparted := parted_reachable h hS hr
  rw [AtomicMachine.residuals,hord,List.flatMap_append,List.flatMap_cons,
    AtomicMachine.residual_of htx.thread,Thread.residual,htx.phase] at hparted
  obtain ⟨-,-,hcross⟩ := List.pairwise_append.mp hparted
  intro z hz x hx
  have hin := (h.exec hS htx.exec).2 z hz
  have hdis := hcross x hx c.next.1 (List.mem_append_left _ List.mem_cons_self)
  have hout : ¬ Accesses code x z.addr := fun hacc =>
    Set.disjoint_left.mp hdis (h.accesses hacc) hin
  cases z with
  | load b v => exact fun hw => hout (.inl hw)
  | store b v => exact hout

end

/-- A fork-join program that has no data race on the atomic machine computes, when all its threads
end regularly, the heap of the sequential program, whatever the build, the scheduler and the
conflicts on its pages were. -/
theorem race_free_sequential (code : τ → Cmd τ) (S : System (τ × List Nat))
    (hS : S.code = forkJoin code) (hlive : S.live = true) (root : Nat) (x : τ) (file : Heap)
    (hfree : ∀ a, Reachable (AtomicStep S) (.initial root (x,[]) file) a → a.RaceFree code S)
    (s : State (τ × List Nat)) (h : Reachable (Step S) (initial root (x,[]) file) s)
    (hall : ∀ q p, s.procs q = some p → p.pc = .zombie .finished) (H : Heap) :
    Seq code x file H ↔ H = s.now.bytes := by
  have hseq := sequential_of_independent hS hlive (fun a ha => (hfree a ha).independent) h hall
  exact ⟨fun hH => hH.unique hseq,fun hH => hH ▸ hseq⟩

inductive Halves where
  | main
  | second
  | joinFirst
  | joinSecond
  | low
  | high
  | done

def Halves.code : Halves → Cmd Halves
  | .main => .create .low .second
  | .second => .create .high .joinFirst
  | .joinFirst => .join 0 .joinSecond
  | .joinSecond => .join 1 .done
  | .low => .store 0x100000 1 .done
  | .high => .store 0x100001 2 .done
  | .done => .ret

def Halves.own : Halves → Set Nat
  | .main => {0x100000,0x100001}
  | .second | .high => {0x100001}
  | .low => {0x100000}
  | .joinFirst | .joinSecond | .done => ∅

theorem Halves.separated : Separated Halves.code Halves.own := by
  constructor <;> intro x <;> cases x <;> simp [Halves.code,Halves.own]

def halves : System (Halves × List Nat) := ⟨forkJoin Halves.code,.adjacent,false,true⟩

def halvesRun : List (Nat × Act) :=
  [(1,.atomicBegin),(1,.atomicEnd),(1,.fork 2),(1,.atomicBegin),(1,.atomicEnd),(1,.fork 3),
    (2,.atomicBegin),(3,.atomicBegin),(2,.fault),(2,.fault),(3,.fault),(3,.fault),
    (2,.store 0),(3,.store 0),(2,.atomicEnd),(3,.atomicEnd),(2,.waited),(3,.waited)] ++
  commitActs 2 0x100000 ++ [(2,.exit),(3,.lock),(3,.abort),(3,.atomicBegin),(3,.fault),
    (3,.fault),(3,.store 0),(3,.atomicEnd),(3,.waited)] ++ commitActs 3 0x100000 ++
  [(3,.exit),(1,.atomicBegin),(1,.atomicEnd),(1,.join),(1,.joined),(1,.atomicBegin),
    (1,.atomicEnd),(1,.join),(1,.joined),(1,.atomicBegin),(1,.atomicEnd),(1,.exit)]

theorem race_free_sequential_halves : ∃ s : State (Halves × List Nat),
    s.rollbackCount = 1 ∧ Seq Halves.code .main (fun _ => 0) s.now.bytes := by
  obtain ⟨s,hs,hv⟩ := System.run_any halves (initial 1 (.main,[]) fun _ => 0) halvesRun
    (fun s => s.rollbackCount = 1 && s.order.all fun q => (s.procs q).any fun p =>
      p.pc.exit = some .finished) (by decide +kernel)
  simp only [Bool.and_eq_true,decide_eq_true_eq,List.all_eq_true,Option.any_eq_true] at hv
  obtain ⟨hr,hall⟩ := hv
  have hgone : ∀ q p, s.procs q = some p → p.pc = .zombie .finished := by
    intro q p hp
    obtain ⟨p',hp',he⟩ := hall q ((mem_order_reachable hs q).mpr (by simp [hp]))
    cases hp.symm.trans hp'
    exact PC.exit_eq.mp he
  exact ⟨s,hr,(race_free_sequential Halves.code halves rfl rfl 1 .main (fun _ => 0)
    (fun a ha => raceFree_of_separated Halves.separated rfl ha) s hs hgone _).mpr rfl⟩

end GThread
