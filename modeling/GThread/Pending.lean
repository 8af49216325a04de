import GThread.Determinacy

/-! Programs whose result depends on the order of their transactions. What each transaction keeps
of what is left to do and of the heap, wherever it comes, holds at the end of every run. -/
namespace GThread
open Replay Transition
variable {τ : Type} {code : τ → Cmd τ}

def Turns (S : System (τ × List Nat)) (z : τ) (h : Heap) (v : List τ) (h' : Heap) : Prop :=
  ∃ l log w gthreads e, Exec S.op (z,l) h log w h' ∧ S.ends gthreads w = some e ∧
    v = End.residual e

def KeptByTurns (S : System (τ × List Nat)) (I : List τ → Heap → Prop) : Prop :=
  ∀ pre z post h v h', I (pre ++ z :: post) h → Turns S z h v h' → I (pre ++ (v ++ post)) h'

section
variable {S : System (τ × List Nat)} {a a' : AtomicMachine (τ × List Nat)} {x : τ} {file : Heap}
  {I : List τ → Heap → Prop}

theorem pending_step (hS : S.code = forkJoin code) (keep : KeptByTurns S I)
    {y : Nat × AtomicAct} (h : AtomicStep S a y a') (hl : Listed a) (hcall : a.Called S)
    (hclean : a'.Clean) (hi : I a.residuals a.heap) : I a'.residuals a'.heap := by
  have same {pid : Nat} {t t' : Thread (τ × List Nat)} (ht : a.threads pid = some t)
      (hres : t'.residual = t.residual) : I (a.put pid t').residuals a.heap := by
    obtain ⟨pre,post,hold,hnew⟩ := residuals_put (a := a) (a.put pid t') hl ht rfl rfl
    rwa [hnew,hres,← hold]
  have error {pid : Nat} {t : Thread (τ × List Nat)} {e : Exit}
      (hclean : (a.put pid { t with phase := .gone e }).Clean) (he : e ≠ .finished) :
      I (a.put pid { t with phase := .gone e }).residuals a.heap :=
    absurd (hclean pid _ e (by simp [AtomicMachine.put]; rfl) rfl) he
  cases h with
  | @transact pid t c l w heap e ht hphase hexec hend hpred =>
    obtain ⟨pre,post,hold,hnew⟩ := residuals_put ((a.put pid
      { t with gthreads := t.table c, phase := .ending e }).write heap) hl ht rfl rfl
    rw [hold,Thread.residual,hphase] at hi
    rw [hnew]
    exact keep pre c.next.1 post a.heap _ heap hi ⟨c.next.2,l,w,_,e,hexec,hend,rfl⟩
  | fork ht hphase hf hc hn =>
    rw [residuals_fork hS (.fork ht hphase hf hc hn) hl hcall]
    exact hi
  | retry ht hphase => exact same ht (by simp [Thread.residual,hphase])
  | join ht hphase | joined ht hphase | exit ht hphase =>
    exact same ht (by simp [Thread.residual,hphase,End.residual])
  | killed ht hphase hpath htouch hout he =>
    exact error hclean (by obtain rfl | rfl := he <;> simp)
  | signaled | forkFailed | interrupted => exact error hclean (by simp)

theorem pending_reachable (hS : S.code = forkJoin code) (keep : KeptByTurns S I)
    (begins : I [x] file) {root : Nat}
    (h : Reachable (AtomicStep S) (.initial root (x,[]) file) a) (hclean : a.Clean) :
    I a.residuals a.heap := by
  suffices hboth : a.Called S ∧ (a.Clean → I a.residuals a.heap) from hboth.2 hclean
  refine h.invariant_within (J := Listed) (I := fun a => a.Called S ∧ (a.Clean →
      I a.residuals a.heap)) (fun _ => listed_reachable)
    ⟨called_initial S root (x,[]) file,fun _ => ?_⟩ fun t y u hl hinv hstep => ?_
  · simpa [AtomicMachine.residuals,AtomicMachine.residual,AtomicMachine.initial,Thread.residual]
      using begins
  · exact ⟨called_step hstep hinv.1,fun hclean =>
      pending_step hS keep hstep hl hinv.1 hclean (hinv.2 (clean_step hstep hclean))⟩

/-- The rule for the processes: where all have ended regularly, nothing is left to do and the heap
is the shared file. -/
theorem finished_of_kept (hS : S.code = forkJoin code) (hlive : S.live = true)
    (keep : KeptByTurns S I) (begins : I [x] file) {root : Nat} {s : State (τ × List Nat)}
    (h : Reachable (Step S) (initial root (x,[]) file) s)
    (hall : ∀ q p, s.procs q = some p → p.pc = .zombie .finished) : I [] s.now.bytes := by
  obtain ⟨a,ha,hgone,hheap⟩ := refines_finished hlive h hall
  rw [hheap,← residuals_of_finished hgone]
  exact pending_reachable hS keep begins ha (clean_of_finished hgone)

end

end GThread
