import GThread.System

/-! The step relation as a function, so that a run of a concrete program can be evaluated. -/
namespace GThread
open Transition
variable {σ : Type}

instance (s : State σ) (pid q : Nat) : Decidable (s.unreapedChild pid q) :=
  match h : s.procs q with
  | none => .isFalse fun ⟨_,_,r,hr,_⟩ => by simp [h] at hr
  | some r =>
    decidable_of_iff (q ≠ 0 ∧ q ∉ s.reaped ∧ r.parent = pid) <| by
      simp [State.unreapedChild,h]

def State.orphan (s : State σ) (p : Proc σ) : Bool :=
  match s.procs p.parent with
  | none => true
  | some r => r.pc.exited

def System.next (S : System σ) (s : State σ) (pid : Nat) (p : Proc σ) :
    Act → PC σ → Option (State σ)
  | .atomicBegin, .atomicBegin c =>
    if s.mutex = none then
      some (s.put pid (p.atomicBegin c s.globalPageVersion s.txs.length))
    else none
  | .load i, .run =>
    match S.code p.cur, S.shown s p i with
    | .load a k, some m =>
      if S.mayLoad p a then
        some (s.put pid { p with toAttempt := p.toAttempt.load m a, cur := k (p.view m.bytes a) })
      else none
    | _, _ => none
  | .store i, .run =>
    match S.code p.cur, S.shown s p i with
    | .store a b k, some m =>
      if S.mayStore p a then
        some (s.put pid { p with toAttempt := p.toAttempt.store m a b, cur := k })
      else none
    | _, _ => none
  | .fault, .run =>
    match S.faultAddr p with
    | none => none
    | some a =>
      match p.segfaultHandler S.layout a with
      | .ok t => some (s.put pid { p with toAttempt := t })
      | .error e => some (s.put pid { p with pc := .zombie e })
  | .signaled, .run => (S.faultAddr p).map fun _ => s.put pid { p with pc := .zombie .signaled }
  | .atomicEnd, .run => (S.endOf p).map fun e => s.put pid (p.atomicEnd e s.past.length)
  | .waited, .waitPred e =>
    (s.waitExited pid p.predecessor).map fun s' => s'.put pid { p with pc := .lock e }
  | .lock, .lock e =>
    if s.mutex = none then
      if isHeapConsistent p.readSetVersion s.globalPageVersion then
        some { s.put pid { p with pc := .commit e p.writeSetVersion.keys } with
          mutex := some pid
          txs := ⟨pid,⟨p.context.next,p.log,p.cur⟩,p.writeSetVersion.keys⟩ :: s.txs }
      else
        some { s.put pid { p with pc := .abort } with rollbackCount := s.rollbackCount + 1 }
    else none
  | .page page, .commit e todo =>
    if page ∈ todo then some (s.put pid { p with pc := .copy e (todo.erase page) page }) else none
  | .memcpy part, .copy _ _ page =>
    some (s.write ⟨S.layout.memcpy (S.layout.globalPos page) page part
      (p.view s.now.bytes) s.now.bytes,s.now.commits⟩)
  | .publish, .copy e todo page =>
    (p.writeSetVersion.lookup page).map fun v =>
      { (s.write ⟨S.layout.memcpy (S.layout.globalPos page) page (fun _ => true)
          (p.view s.now.bytes) s.now.bytes,
          Function.update s.now.commits page (s.now.commits page + 1)⟩).put pid
          { p with pc := .commit e todo } with
        globalPageVersion := s.globalPageVersion.insert page v }
  | .unlock, .commit e todo =>
    if todo = ∅ then
      some
        { s.put pid { p with
            toAttempt := p.toAttempt.updateHeap s.past.length
            pc := .ended e } with
          mutex := none }
    else none
  | .abort, .abort => some (s.put pid { p with
      toAttempt := p.toAttempt.discard s.past.length
      pc := .atomicBegin p.context })
  | .fork child, .ended e =>
    match e.fork with
    | none => none
    | some (f,c) =>
      if child ≠ 0 ∧ (s.procs child).isNone then some (S.forkChild s pid child p f c) else none
  | .forkFailed, .ended e => e.fork.map fun _ => s.put pid { p with pc := .zombie .forkFailed }
  | .join, .ended (.join t k) => some (s.put pid { p with pc := .wait t k })
  | .joined, .wait t k =>
    (s.waitExited pid t).map fun s' => s'.put pid { p with pc := .atomicBegin ⟨none,k⟩ }
  | .interrupted, _ =>
    match p.waitsFor with
    | none => none
    | some q =>
      if s.unreapedChild pid q then some (s.put pid { p with pc := .zombie .interrupted })
      else none
  | .exit, .ended .exit => some (s.put pid { p with pc := .zombie .finished })
  | .reap, .zombie _ =>
    if s.orphan p then some { s with reaped := insert pid s.reaped } else none
  | _, _ => none

def System.step (S : System σ) (s : State σ) : Nat × Act → Option (State σ)
  | (pid,act) => (s.procs pid).bind fun p => S.next s pid p act p.pc

theorem System.next_sound {S : System σ} {s s' : State σ} {pid : Nat} {p : Proc σ} {act : Act}
    {pc : PC σ} (hp : s.procs pid = some p) (hpc : p.pc = pc)
    (h : S.next s pid p act pc = some s') : Step S s (pid,act) s' := by
  unfold System.next at h
  split at h
  · split at h <;> simp at h
    exact h ▸ .atomicBegin hp hpc ‹_›
  · split at h <;> try simp at h
    rename_i a k m hc hm
    obtain ⟨ha,rfl⟩ := h
    exact .load hp hpc hc ha hm
  · split at h <;> try simp at h
    rename_i a b k m hc hm
    obtain ⟨ha,rfl⟩ := h
    exact .store hp hpc hc ha hm
  · split at h
    · simp at h
    · rename_i a ha
      split at h
      · rename_i p' hf
        obtain rfl := Option.some.inj h
        exact .fault hp hpc ha hf
      · rename_i e hf
        obtain rfl := Option.some.inj h
        exact .killed hp hpc ha hf
  · obtain ⟨a,ha,rfl⟩ := Option.map_eq_some_iff.mp h
    exact .signaled hp hpc ha
  · obtain ⟨e,he,rfl⟩ := Option.map_eq_some_iff.mp h
    exact .atomicEnd hp hpc he
  · obtain ⟨s',hs,rfl⟩ := Option.map_eq_some_iff.mp h
    exact .waited hp hpc hs
  · split at h
    · split at h
      · obtain rfl := Option.some.inj h
        exact .commit hp hpc ‹_› ‹_›
      · obtain rfl := Option.some.inj h
        exact .reject hp hpc ‹_› (by simp_all)
    · simp at h
  · split at h <;> simp at h
    exact h ▸ .page hp hpc ‹_›
  · obtain rfl := Option.some.inj h
    exact .memcpy hp hpc
  · obtain ⟨v,hv,rfl⟩ := Option.map_eq_some_iff.mp h
    exact .publish hp hpc hv
  · split at h <;> simp at h
    rename_i htodo
    exact h ▸ .unlock hp (htodo ▸ hpc)
  · obtain rfl := Option.some.inj h
    exact .abort hp hpc
  · split at h
    · simp at h
    · rename_i f c hf
      split at h <;> simp at h
      rename_i hc
      exact h ▸ .fork hp hpc hf hc.1 (by simpa using hc.2)
  · obtain ⟨x,hx,rfl⟩ := Option.map_eq_some_iff.mp h
    exact .forkFailed hp hpc hx
  · obtain rfl := Option.some.inj h
    exact .join hp hpc
  · obtain ⟨s',hs,rfl⟩ := Option.map_eq_some_iff.mp h
    exact .joined hp hpc hs
  · split at h
    · simp at h
    · rename_i q hq
      split at h <;> simp at h
      exact h ▸ .interrupted hp hq ‹_›
  · obtain rfl := Option.some.inj h
    exact .exit hp hpc
  · split at h <;> simp at h
    rename_i ho
    refine h ▸ .reap hp (by rw [hpc]; rfl) fun r hr => ?_
    simpa [State.orphan,hr] using ho
  · simp at h

theorem System.step_sound (S : System σ) (s : State σ) (x : Nat × Act) (s' : State σ)
    (h : S.step s x = some s') : Step S s x s' := by
  obtain ⟨pid,act⟩ := x
  obtain ⟨p,hp,h⟩ := Option.bind_eq_some_iff.mp h
  exact System.next_sound hp rfl h

theorem System.step_of_next {S : System σ} {s s' : State σ} {pid : Nat} {p : Proc σ} {act : Act}
    {pc : PC σ} (hp : s.procs pid = some p) (hpc : p.pc = pc)
    (h : S.next s pid p act pc = some s') : S.step s (pid,act) = some s' := by
  simpa only [System.step,hp,Option.bind_some,hpc] using h

/-- The function makes every step of the relation. -/
theorem System.step_complete {S : System σ} {s s' : State σ} {x : Nat × Act}
    (h : Step S s x s') : S.step s x = some s' := by
  cases h with
  | atomicBegin hp hpc hm => exact S.step_of_next hp hpc (if_pos hm)
  | load hp hpc hk ha hm =>
    exact S.step_of_next hp hpc (by simp only [System.next,hk,hm,ha,if_true])
  | store hp hpc hk ha hm =>
    exact S.step_of_next hp hpc (by simp only [System.next,hk,hm,ha,if_true])
  | fault hp hpc ha hf => exact S.step_of_next hp hpc (by simp only [System.next,ha,hf])
  | killed hp hpc ha hf => exact S.step_of_next hp hpc (by simp only [System.next,ha,hf])
  | signaled hp hpc ha =>
    exact S.step_of_next hp hpc (by simp only [System.next,ha,Option.map_some])
  | atomicEnd hp hpc he =>
    exact S.step_of_next hp hpc (by simp only [System.next,he,Option.map_some])
  | waited hp hpc hw => exact S.step_of_next hp hpc (by simp only [System.next,hw,Option.map_some])
  | commit hp hpc hm hc => exact S.step_of_next hp hpc ((if_pos hm).trans (if_pos hc))
  | reject hp hpc hm hc => exact S.step_of_next hp hpc ((if_pos hm).trans (if_neg (by simp [hc])))
  | page hp hpc hpage => exact S.step_of_next hp hpc (if_pos hpage)
  | memcpy hp hpc => exact S.step_of_next hp hpc rfl
  | publish hp hpc hv => exact S.step_of_next hp hpc (by simp only [System.next,hv,Option.map_some])
  | unlock hp hpc => exact S.step_of_next hp hpc (by simp only [System.next,if_true])
  | abort hp hpc => exact S.step_of_next hp hpc rfl
  | fork hp hpc hf hc hn =>
    exact S.step_of_next hp hpc (by simp only [System.next,hf]; exact if_pos ⟨hc,by simp [hn]⟩)
  | forkFailed hp hpc hf =>
    exact S.step_of_next hp hpc (by simp only [System.next,hf,Option.map_some])
  | join hp hpc => exact S.step_of_next hp hpc rfl
  | joined hp hpc hw => exact S.step_of_next hp hpc (by simp only [System.next,hw,Option.map_some])
  | interrupted hp hq hu =>
    refine S.step_of_next hp rfl ?_
    simp only [System.next,hq,hu,if_true]
  | exit hp hpc => exact S.step_of_next hp hpc rfl
  | reap hp he ho =>
    obtain ⟨e,hpc⟩ := PC.exited_iff.mp he
    refine S.step_of_next hp hpc (if_pos ?_)
    unfold State.orphan
    split
    · rfl
    · exact ho _ ‹_›

def System.run (S : System σ) (s : State σ) (acts : List (Nat × Act)) : Option (State σ) :=
  execute S.step s acts

theorem System.run_cons {S : System σ} {s t : State σ} {a : Nat × Act} (h : Step S s a t)
    (acts : List (Nat × Act)) : S.run s (a :: acts) = S.run t acts := by
  simp only [System.run,execute,System.step_complete h,Option.bind_some]

theorem System.run_stuck {S : System σ} {s : State σ} {a : Nat × Act}
    (h : ∀ t, ¬ Step S s a t) (acts : List (Nat × Act)) : S.run s (a :: acts) = none := by
  have hnone : S.step s a = none :=
    Option.eq_none_iff_forall_ne_some.mpr fun t ht => h t (S.step_sound s a t ht)
  simp only [System.run,execute,hnone,Option.bind_none]

theorem System.run_reachable {S : System σ} {s s' : State σ} {acts : List (Nat × Act)}
    (h : S.run s acts = some s') : Reachable (Step S) s s' :=
  execute_reachable S.step_sound acts s s' h

theorem System.run_any (S : System σ) (s : State σ) (acts : List (Nat × Act))
    (f : State σ → Bool) (h : (S.run s acts).any f = true) :
    ∃ t, Reachable (Step S) s t ∧ f t = true := execute_any S.step_sound h

def commitActs (pid page : Nat) : List (Nat × Act) :=
  [(pid,.lock),(pid,.page page),(pid,.publish),(pid,.unlock)]

def storeActs (pid : Nat) : List (Nat × Act) :=
  [(pid,.atomicBegin),(pid,.fault),(pid,.fault),(pid,.store 0),(pid,.atomicEnd),(pid,.waited)] ++
    commitActs pid 0x100000

end GThread
