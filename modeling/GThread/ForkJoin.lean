import GThread.Tree

/-! Fork-join programs: threads that share the heap only and join nothing but the threads
they created themselves. Local states are those of the program together with the pids of
the created threads, which the program can use for nothing else. -/
namespace GThread
open Replay Transition
variable {τ : Type}

/-- What a thread does next; `join i` joins the `i`th thread it created. -/
inductive Cmd (τ : Type) where
  | load (a : Nat) (k : Byte → τ)
  | store (a : Nat) (b : Byte) (k : τ)
  | create (f k : τ)
  | join (i : Nat) (k : τ)
  | ret

def forkJoin (code : τ → Cmd τ) (x : τ × List Nat) : Instr (τ × List Nat) :=
  match code x.1 with
  | .load a k => .load a fun b => (k b,x.2)
  | .store a b k => .store a b (k,x.2)
  | .create f k => .create (f,[]) fun c => (k,x.2 ++ [c])
  | .join i k => .join (x.2.getD i 0) (k,x.2)
  | .ret => .ret

def ordered (code : τ → Cmd τ) (L : Layout) (live : Bool) : System (τ × List Nat) :=
  ⟨forkJoin code,L,true,live⟩

section
variable {code : τ → Cmd τ} {S : System (τ × List Nat)}

theorem forkJoin_load {x : τ × List Nat} {a : Nat} {k : Byte → τ × List Nat}
    (h : forkJoin code x = .load a k) : ∃ k', code x.1 = .load a k' ∧ ∀ b, k b = (k' b,x.2) := by
  unfold forkJoin at h
  split at h <;> cases h
  exact ⟨_,‹_›,fun _ => rfl⟩

theorem forkJoin_store {x k : τ × List Nat} {a : Nat} {b : Byte}
    (h : forkJoin code x = .store a b k) : ∃ k', code x.1 = .store a b k' ∧ k = (k',x.2) := by
  unfold forkJoin at h
  split at h <;> cases h
  exact ⟨_,‹_›,rfl⟩

theorem endOf_forkJoin (hS : S.code = forkJoin code) {p : Proc (τ × List Nat)}
    {e : End (τ × List Nat)} (h : S.endOf p = some e) :
    (∃ f k, code p.cur.1 = .create f k ∧ e = .create (f,[]) fun c => (k,p.cur.2 ++ [c])) ∨
    (∃ i k, code p.cur.1 = .join i k ∧ e = .join (p.cur.2.getD i 0) (k,p.cur.2)) ∨
    code p.cur.1 = .ret ∧ e = .exit := by
  unfold System.endOf at h
  rw [hS] at h
  unfold forkJoin at h
  cases hc : code p.cur.1 with
  | load a k => simp [hc] at h
  | store a b k => simp [hc] at h
  | create f k => exact .inl ⟨f,k,rfl,by simpa [hc] using h.symm⟩
  | join i k => exact .inr (.inl ⟨i,k,rfl,by simpa [hc] using h.symm⟩)
  | ret => exact .inr (.inr ⟨rfl,by simpa [hc] using h.symm⟩)

def Proc.handles (p : Proc (τ × List Nat)) : List Nat :=
  match p.pc with
  | .atomicBegin c => c.next.2
  | .wait t k => t :: k.2
  | .zombie _ => []
  | _ => p.context.next.2 ++ p.cur.2

def Owned (s : State (τ × List Nat)) : Prop :=
  ∀ q p, s.procs q = some p → ∀ c ∈ p.handles,
    c = 0 ∨ ∃ r, s.procs c = some r ∧ r.parent = q

theorem handles_fork (hS : S.code = forkJoin code) {s s' : State (τ × List Nat)}
    {pid child : Nat} (h : Step S s (pid,.fork child) s')
    (hl : ∀ q p, s.procs q = some p → Local S p) :
    ∀ q p', s'.procs q = some p' → ∀ c ∈ p'.handles,
      c = 0 ∨ (∃ p, s.procs q = some p ∧ c ∈ p.handles) ∨
      ∃ r, s'.procs c = some r ∧ r.parent = q := by
  cases h with
  | @fork _ p e _ f c hp hpc hf hc hn =>
    obtain ⟨f',k,-,rfl⟩ | ⟨i,k,-,rfl⟩ | ⟨-,rfl⟩ :=
      endOf_forkJoin hS ((hl pid p hp).ending e (by rw [hpc]; rfl))
    · simp only [End.fork,Option.some.injEq,Prod.mk.injEq] at hf
      obtain ⟨rfl,rfl⟩ := hf
      refine forall_put_ne (fun q p' hq hp' => ?_) (fun c hc => by simp [Proc.handles] at hc)
      refine forall_put_ne (s := s)
        (I := fun q p' => ∀ c ∈ p'.handles, c = 0 ∨
          (∃ p, s.procs q = some p ∧ c ∈ p.handles) ∨
          ∃ r, (System.forkChild S s pid child p (f',[])
            fun c => ⟨none,(k,p.cur.2 ++ [c])⟩).procs c = some r ∧ r.parent = q)
        (fun q t _ ht c hc => .inr (.inl ⟨t,ht,hc⟩)) ?_ q p' hp'
      intro c hc
      obtain hc | rfl : c ∈ p.cur.2 ∨ c = child := by simpa [Proc.handles] using hc
      · exact .inr (.inl ⟨p,hp,by simp [Proc.handles,hpc,hc]⟩)
      · exact .inr (.inr ⟨_,by simp [System.forkChild,State.put]; rfl,rfl⟩)
    · cases hf
    · cases hf

theorem handles_step (hS : S.code = forkJoin code) {s s' : State (τ × List Nat)}
    {x : Nat × Act} (h : Step S s x s') (hl : ∀ q p, s.procs q = some p → Local S p) :
    ∀ q p', s'.procs q = some p' → ∀ c ∈ p'.handles,
      c = 0 ∨ (∃ p, s.procs q = some p ∧ c ∈ p.handles) ∨
      ∃ r, s'.procs c = some r ∧ r.parent = q := by
  have stay : ∀ q p', s.procs q = some p' → ∀ c ∈ p'.handles,
      c = 0 ∨ (∃ p, s.procs q = some p ∧ c ∈ p.handles) ∨
      ∃ r, s'.procs c = some r ∧ r.parent = q :=
    fun q p' hp' c hc => .inr (.inl ⟨p',hp',hc⟩)
  have same {q : Nat} {p p' : Proc (τ × List Nat)} (hp : s.procs q = some p)
      (sub : ∀ c ∈ p'.handles, c ∈ p.handles) : ∀ c ∈ p'.handles,
      c = 0 ∨ (∃ p, s.procs q = some p ∧ c ∈ p.handles) ∨
      ∃ r, s'.procs c = some r ∧ r.parent = q :=
    fun c hc => .inr (.inl ⟨p,hp,sub c hc⟩)
  cases h with
  | atomicBegin hp hpc hm =>
    refine forall_put stay (same hp fun c hc => ?_)
    simpa [Proc.handles,hpc,Proc.atomicBegin] using hc
  | load hp hpc hk ha hm =>
    obtain ⟨k',-,hk'⟩ := forkJoin_load (hS ▸ hk)
    refine forall_put stay (same hp fun c hc => ?_)
    simpa [Proc.handles,hpc,hk'] using hc
  | store hp hpc hk ha hm =>
    obtain ⟨k',-,rfl⟩ := forkJoin_store (hS ▸ hk)
    refine forall_put stay (same hp fun c hc => ?_)
    simpa [Proc.handles,hpc] using hc
  | fault hp hpc ha hf =>
    refine forall_put stay (same hp fun c hc => ?_)
    simpa [Proc.handles,hpc] using hc
  | atomicEnd hp hpc he =>
    refine forall_put stay (same hp fun c hc => ?_)
    unfold Proc.atomicEnd at hc
    split at hc <;> simpa [Proc.handles,hpc] using hc
  | waited hp hpc hw =>
    obtain ⟨rfl,-⟩ | ⟨rfl,-⟩ := waitExited_spec hw <;>
    exact forall_put stay (same hp fun c hc => by simpa [Proc.handles,hpc] using hc)
  | abort hp hpc =>
    refine forall_put stay (same hp fun c hc => ?_)
    simp only [Proc.handles] at hc
    simp [Proc.handles,hpc,hc]
  | @fork pid p e child f c hp hpc hf hc hn => exact handles_fork hS (.fork hp hpc hf hc hn) hl
  | @join pid p t k hp hpc =>
    obtain ⟨f',k',-,he⟩ | ⟨i,k',-,he⟩ | ⟨-,he⟩ :=
      endOf_forkJoin hS ((hl pid p hp).ending _ (by rw [hpc]; rfl)) <;> cases he
    refine forall_put stay fun c hc => ?_
    obtain rfl | hc := List.mem_cons.mp hc
    · rw [List.getD_eq_getElem?_getD]
      cases hi : p.cur.2[i]? with
      | none => exact .inl rfl
      | some t =>
        have ht := List.mem_of_getElem? hi
        exact .inr (.inl ⟨p,hp,by simp [Proc.handles,hpc,ht]⟩)
    · exact .inr (.inl ⟨p,hp,by simp [Proc.handles,hpc,hc]⟩)
  | joined hp hpc hw =>
    obtain ⟨rfl,-⟩ | ⟨rfl,-⟩ := waitExited_spec hw <;>
    exact forall_put stay (same hp fun c hc => by
      simp only [Proc.handles] at hc
      simp [Proc.handles,hpc,hc])
  | memcpy hp hpc => exact stay
  | reap hp he ho => exact stay
  | @commit pid p e hp hpc hm hc =>
    refine forall_put (p := { p with pc := .commit e p.writeSetVersion.keys }) stay
      (same hp fun c hc => ?_)
    simpa [Proc.handles,hpc] using hc
  | @reject pid p e hp hpc hm hc =>
    refine forall_put (p := { p with pc := .abort }) stay (same hp fun c hc => ?_)
    simpa [Proc.handles,hpc] using hc
  | page hp hpc hpage =>
    exact forall_put stay (same hp fun c hc => by simpa [Proc.handles,hpc] using hc)
  | @publish pid p e todo page v hp hpc hv =>
    refine forall_put (s := s.write _) (p := { p with pc := .commit e todo }) stay
      (same hp fun c hc => ?_)
    simpa [Proc.handles,hpc] using hc
  | @unlock pid p e hp hpc =>
    refine forall_put (p := { p with
      toAttempt := p.toAttempt.updateHeap s.past.length
      pc := .ended e }) stay (same hp fun c hc => ?_)
    simpa [Proc.handles,hpc] using hc
  | killed | signaled | forkFailed | interrupted | exit =>
    exact forall_put stay fun c hc => by simp [Proc.handles] at hc

theorem owned_forkJoin (hS : S.code = forkJoin code) {root : Nat} {x : τ} {file : Heap}
    {s : State (τ × List Nat)} (h : Reachable (Step S) (initial root (x,[]) file) s) :
    Owned s := by
  refine h.invariant_within (J := fun s => ∀ q p, s.procs q = some p → Local S p)
    (fun t ht => ?_) ?_ fun t a u hl ho hstep => ?_
  · exact ht.invariant (local_initial S root (x,[]) file)
      fun _ _ _ hl hstep => local_step hstep hl
  · intro q p hp c hc
    simp [Proc.handles,(initial_procs hp).2] at hc
  · intro q p hp c hc
    obtain h0 | ⟨p₀,hp₀,hc₀⟩ | hnew := handles_step hS hstep hl q p hp c hc
    · exact .inl h0
    · refine (ho q p₀ hp₀ c hc₀).imp_right fun ⟨r,hr,hpar⟩ => ?_
      obtain ⟨r',hr',hpar',-⟩ := parent_step hstep hr
      exact ⟨r',hr',hpar'.trans hpar⟩
    · exact .inr hnew

end

section
variable {code : τ → Cmd τ} {L : Layout} {live : Bool}

theorem endOf_ordered {p : Proc (τ × List Nat)} {e : End (τ × List Nat)}
    (h : (ordered code L live).endOf p = some e) :
    (∃ f k, code p.cur.1 = .create f k ∧ e = .create (f,[]) fun c => (k,p.cur.2 ++ [c])) ∨
    (∃ i k, code p.cur.1 = .join i k ∧ e = .join (p.cur.2.getD i 0) (k,p.cur.2)) ∨
    code p.cur.1 = .ret ∧ e = .exit := endOf_forkJoin rfl h

theorem owned_reachable {root : Nat} {x : τ} {file : Heap} {s : State (τ × List Nat)}
    (h : Reachable (Step (ordered code L live)) (initial root (x,[]) file) s) : Owned s :=
  owned_forkJoin rfl h

end
end GThread
