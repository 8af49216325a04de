import GThread.Tracking
import GThread.Execute

/-! The thread table of `libgthread.hh` under rollback. An observer writes down the calls of
`pthread_create`, their verdicts and their forks; the table, which no rollback restores and
into which a call may push its child several times, agrees with what it writes. -/
namespace GThread
open Replay Transition
variable {σ : Type}

inductive Verdict where
  | pending
  | rejected
  | committed
  deriving DecidableEq

def PC.verdict : PC σ → Verdict
  | .commit _ _ | .copy _ _ _ | .ended _ => .committed
  | .abort => .rejected
  | _ => .pending

/-- A call of `pthread_create`: the value it stores through `thread`, what became of its
attempt, and the children it forked. -/
structure Call where
  handle : Nat
  verdict : Verdict
  children : List Nat
  deriving DecidableEq

/-- The calls of each process, the latest first, and the handles it has from its own calls
and from those its ancestors had made when they forked it, each with the child. -/
structure Calls where
  made : Nat → List Call
  handles : Nat → List (Nat × Nat)

def Calls.none : Calls := ⟨fun _ => [],fun _ => []⟩

def Calls.enter (w : Calls) (pid handle : Nat) (v : Verdict) : Calls :=
  { w with made := Function.update w.made pid (⟨handle,v,[]⟩ :: w.made pid) }

def amendLast (f : Call → Call) : List Call → List Call
  | [] => []
  | call :: rest => f call :: rest

def Calls.amend (w : Calls) (pid : Nat) (f : Call → Call) : Calls :=
  { w with made := Function.update w.made pid (amendLast f (w.made pid)) }

def Calls.inherit (w : Calls) (pid child : Nat) : Calls :=
  { w with handles := Function.update w.handles child (w.handles pid) }

def Calls.handle (w : Calls) (pid handle child : Nat) : Calls :=
  { w with handles := Function.update w.handles pid ((handle,child) :: w.handles pid) }

def PC.creating (pc : PC σ) : Option Nat :=
  match pc.ending with
  | some (.pthreadCreate _ h _) => some h
  | _ => none

def PC.working : PC σ → Bool
  | .atomicBegin _ | .zombie _ => false
  | _ => true

/-- The observer. A call is entered with its `AtomicEnd`, judged there or under the mutex,
and followed to its fork. -/
def watch (s : State σ) (x : Nat × Act) (s' : State σ) (w : Calls) : Calls :=
  match x.2, s.procs x.1, s'.procs x.1 with
  | .atomicEnd, _, some p' => match p'.pc.creating with
    | some h => w.enter x.1 h p'.pc.verdict
    | none => w
  | .lock, some p, some p' => match p.pc.creating with
    | some _ => w.amend x.1 fun call => { call with verdict := p'.pc.verdict }
    | none => w
  | .fork c, some p, _ => match p.pc.creating with
    | some h => ((w.inherit x.1 c).amend x.1 fun call =>
        { call with children := c :: call.children }).handle x.1 h c
    | none => w.inherit x.1 c
  | _, _, _ => w

def Call.Settled (handles : List (Nat × Nat)) (call : Call) : Prop :=
  call.verdict = .rejected ∧ call.children = [] ∨
  call.verdict = .committed ∧ ∃ c, call.children = [c] ∧ (call.handle,c) ∈ handles

structure Table (made : List Call) (handles : List (Nat × Nat)) (p : Proc σ) : Prop where
  last : ∀ call, made.head? = some call → call.Settled handles ∨ call.children = [] ∧
    (p.pc.creating = some call.handle ∧ call.verdict = p.pc.verdict ∨
      ∃ e, p.pc = .zombie e ∧ call.verdict ≠ .rejected ∧
        (call.verdict = .committed → e = .forkFailed))
  old : ∀ call ∈ made.tail, call.Settled handles
  creating : ∀ h, p.pc.creating = some h → p.gthreads.length = h ∧
    made.head? = some ⟨h,p.pc.verdict,[]⟩
  entries : ∀ x ∈ handles, p.gthreads[x.1]? = some x.2 ∨
    p.gthreads.length = x.1 ∧ ∃ k, p.pc = .atomicBegin ⟨some x.2,k⟩

theorem Table.settled {made : List Call} {handles : List (Nat × Nat)} {p : Proc σ}
    (h : Table made handles p) (live : p.pc.exited = false) (hc : p.pc.creating = none) :
    ∀ call ∈ made, call.Settled handles := by
  intro call hcall
  cases made with
  | nil => cases hcall
  | cons first rest =>
    obtain rfl | hcall := List.mem_cons.mp hcall
    · obtain hs | ⟨-,⟨hh,-⟩ | ⟨e,he,-⟩⟩ := h.last call rfl
      · exact hs
      · cases hc.symm.trans hh
      · simp [he,PC.exited] at live
    · exact h.old call hcall

theorem Table.found {made : List Call} {handles : List (Nat × Nat)} {p : Proc σ}
    (h : Table made handles p) (working : p.pc.working = true) :
    ∀ x ∈ handles, p.gthreads[x.1]? = some x.2 := by
  intro x hx
  obtain he | ⟨-,k,hk⟩ := h.entries x hx
  · exact he
  · simp [hk,PC.working] at working

theorem Table.move {made : List Call} {handles : List (Nat × Nat)} {p u : Proc σ}
    (h : Table made handles p) (working : p.pc.working = true) (gthreads : u.gthreads = p.gthreads)
    (creating : u.pc.creating = p.pc.creating)
    (verdict : p.pc.creating ≠ none → u.pc.verdict = p.pc.verdict) :
    Table made handles u := by
  refine ⟨?_,h.old,?_,?_⟩
  · intro call hcall
    obtain hs | ⟨hchildren,⟨hh,hv⟩ | ⟨e,he,-⟩⟩ := h.last call hcall
    · exact .inl hs
    · refine .inr ⟨hchildren,.inl ⟨creating.trans hh,?_⟩⟩
      rw [hv,verdict (by simp [hh])]
    · simp [he,PC.working] at working
  · intro i hi
    rw [creating] at hi
    obtain ⟨hlen,hhead⟩ := h.creating i hi
    rw [gthreads,verdict (by simp [hi])]
    exact ⟨hlen,hhead⟩
  · intro x hx
    rw [gthreads]
    exact .inl (h.found working x hx)

theorem Table.stop {made : List Call} {handles : List (Nat × Nat)} {p : Proc σ}
    (h : Table made handles p) (working : p.pc.working = true) (e : Exit)
    (verdict : p.pc.creating ≠ none → p.pc.verdict ≠ .rejected ∧
      (p.pc.verdict = .committed → e = .forkFailed)) :
    Table made handles { p with pc := .zombie e } := by
  refine ⟨?_,h.old,?_,fun x hx => .inl (h.found working x hx)⟩
  · intro call hcall
    obtain hs | ⟨hchildren,⟨hh,hv⟩ | ⟨e',he,-⟩⟩ := h.last call hcall
    · exact .inl hs
    · exact .inr ⟨hchildren,.inr ⟨e,rfl,hv ▸ verdict (by simp [hh])⟩⟩
    · simp [he,PC.working] at working
  · intro i hi; simp [PC.creating,PC.ending] at hi

theorem Call.Settled.mono {hs hs' : List (Nat × Nat)} {call : Call} (h : call.Settled hs)
    (sub : ∀ x ∈ hs, x ∈ hs') : call.Settled hs' := by
  obtain h | ⟨hv,c,hc,hm⟩ := h
  · exact .inl h
  · exact .inr ⟨hv,c,hc,sub _ hm⟩

theorem Table.fork {made : List Call} {handles : List (Nat × Nat)} {p u : Proc σ} {h child : Nat}
    (ht : Table made handles p) (working : p.pc.working = true)
    (creating : p.pc.creating = some h) (verdict : p.pc.verdict = .committed)
    (gthreads : u.gthreads = p.gthreads) {k : σ} (pc : u.pc = .atomicBegin ⟨some child,k⟩) :
    Table (amendLast (fun call => { call with children := child :: call.children }) made)
      ((h,child) :: handles) u := by
  obtain ⟨hlen,hhead⟩ := ht.creating h creating
  cases made with
  | nil => cases hhead
  | cons call rest =>
    obtain rfl := Option.some.inj hhead
    refine ⟨?_,?_,?_,?_⟩
    · intro _ he
      cases he
      exact .inl (.inr ⟨verdict,child,rfl,List.mem_cons_self⟩)
    · exact fun c hc => (ht.old c hc).mono fun x hx => List.mem_cons_of_mem _ hx
    · intro i hi; simp [pc,PC.creating,PC.ending] at hi
    · intro x hx
      rw [gthreads]
      obtain rfl | hx := List.mem_cons.mp hx
      · exact .inr ⟨hlen,k,pc⟩
      · exact .inl (ht.found working x hx)

def Tables (s : State σ) (w : Calls) : Prop :=
  (∀ q p, s.procs q = some p → Table (w.made q) (w.handles q) p) ∧
  ∀ q, s.procs q = none → w.made q = []

theorem Tables.put {s s' : State σ} {w w' : Calls} {pid : Nat} {p : Proc σ}
    (h : Tables s w)
    (procs : s'.procs = Function.update s.procs pid (some p))
    (others : ∀ q, q ≠ pid → w'.made q = w.made q ∧ w'.handles q = w.handles q)
    (hp : Table (w'.made pid) (w'.handles pid) p) : Tables s' w' := by
  constructor
  · rw [procs]
    refine forall_put_ne (s := s) (fun q t hq ht => ?_) hp
    rw [(others q hq).1,(others q hq).2]
    exact h.1 q t ht
  · intro q hq
    by_cases hpid : q = pid
    · subst q; simp [procs] at hq
    · rw [(others q hpid).1]
      exact h.2 q (by simpa [procs,hpid] using hq)

theorem Tables.stay {s s' : State σ} {w : Calls} {pid : Nat} {p : Proc σ} (h : Tables s w)
    (procs : s'.procs = Function.update s.procs pid (some p))
    (hp : Table (w.made pid) (w.handles pid) p) : Tables s' w :=
  h.put procs (fun _ _ => ⟨rfl,rfl⟩) hp

theorem Tables.move {s s' : State σ} {w : Calls} {pid : Nat} {r p : Proc σ} (h : Tables s w)
    (hr : s.procs pid = some r) (procs : s'.procs = Function.update s.procs pid (some p))
    (working : r.pc.working = true) (gthreads : p.gthreads = r.gthreads)
    (creating : p.pc.creating = r.pc.creating)
    (verdict : r.pc.creating ≠ none → p.pc.verdict = r.pc.verdict) : Tables s' w :=
  h.stay procs ((h.1 pid r hr).move working gthreads creating verdict)

theorem Tables.forked {S : System σ} {s : State σ} {w w' : Calls} {pid child : Nat} {p : Proc σ}
    {f : σ} {c : Nat → Context σ} (h : Tables s w) (hne : child ≠ pid)
    (parent : Table (w'.made pid) (w'.handles pid)
      { p with predecessor := child, pc := .atomicBegin (c child) })
    (new : Table (w'.made child) (w'.handles child) { p with
      parent := pid
      predecessor := if S.order then p.predecessor else 0
      elder := if S.order then p.predecessor else 0
      pc := .atomicBegin ⟨none,f⟩ })
    (others : ∀ q, q ≠ pid → q ≠ child → w'.made q = w.made q ∧ w'.handles q = w.handles q) :
    Tables (S.forkChild s pid child p f c) w' := by
  constructor
  · refine forall_put_ne (fun q t hq hqt => ?_) new
    by_cases hqp : q = pid
    · subst q
      obtain rfl := Option.some.inj ((by simpa [State.put] using hqt) : some _ = some t)
      exact parent
    · rw [(others q hqp hq).1,(others q hqp hq).2]
      exact h.1 q t (by simpa [State.put,hqp] using hqt)
  · intro q hq
    have hqp : q ≠ pid := by
      intro heq
      subst heq
      simp [System.forkChild,State.put,Ne.symm hne] at hq
    have hqc : q ≠ child := by
      intro heq
      subst heq
      simp [System.forkChild,State.put] at hq
    rw [(others q hqp hqc).1]
    exact h.2 q (by simpa [System.forkChild,State.put,hqp,hqc] using hq)

theorem PC.creating_eq {pc : PC σ} {h : Nat} :
    pc.creating = some h ↔ ∃ f k, pc.ending = some (.pthreadCreate f h k) := by
  unfold PC.creating
  split
  · rename_i f i k he
    constructor
    · intro he
      cases he
      exact ⟨f,k,he⟩
    · intro hfork
      obtain ⟨f',k',he'⟩ := hfork
      cases he.symm.trans he'
      rfl
  · rename_i hn
    exact ⟨fun hh => (nomatch hh),fun ⟨f,k,he⟩ => absurd he (hn f h k)⟩

theorem System.endOf_handle {S : System σ} {p : Proc σ} {f k : σ} {h : Nat}
    (he : S.endOf p = some (.pthreadCreate f h k)) : h = p.gthreads.length := by
  unfold System.endOf at he
  split at he <;> simp_all

theorem Table.enter {made : List Call} {handles : List (Nat × Nat)} {p u : Proc σ}
    (ht : Table made handles p) (hpc : p.pc = .run) (gthreads : u.gthreads = p.gthreads)
    {h : Nat} (creating : u.pc.creating = some h) (len : h = p.gthreads.length) :
    Table (⟨h,u.pc.verdict,[]⟩ :: made) handles u := by
  refine ⟨?_,?_,?_,?_⟩
  · intro _ he
    cases he
    exact .inr ⟨rfl,.inl ⟨creating,rfl⟩⟩
  · exact ht.settled (by rw [hpc]; rfl) (by rw [hpc]; rfl)
  · intro i hi
    obtain rfl := Option.some.inj (creating.symm.trans hi)
    exact ⟨by rw [gthreads,len],rfl⟩
  · intro x hx
    rw [gthreads]
    exact .inl (ht.found (by rw [hpc]; rfl) x hx)

theorem Table.judge {made : List Call} {handles : List (Nat × Nat)} {p u : Proc σ}
    (ht : Table made handles p) (working : p.pc.working = true) {h : Nat}
    (creating : p.pc.creating = some h) (gthreads : u.gthreads = p.gthreads)
    (verdict : u.pc.creating = some h ∨
      u.pc.creating = none ∧ u.pc.verdict = .rejected) :
    Table (amendLast (fun call => { call with verdict := u.pc.verdict }) made) handles u := by
  obtain ⟨hlen,hhead⟩ := ht.creating h creating
  cases made with
  | nil => cases hhead
  | cons call rest =>
    obtain rfl := Option.some.inj hhead
    refine ⟨?_,ht.old,?_,?_⟩
    · intro _ he
      cases he
      obtain hc | ⟨-,hr⟩ := verdict
      · exact .inr ⟨rfl,.inl ⟨hc,rfl⟩⟩
      · exact .inl (.inl ⟨hr,rfl⟩)
    · intro i hi
      obtain hc | ⟨hc,-⟩ := verdict
      · obtain rfl := Option.some.inj (hc.symm.trans hi)
        exact ⟨gthreads ▸ hlen,rfl⟩
      · cases hc.symm.trans hi
    · intro x hx
      rw [gthreads]
      exact .inl (ht.found working x hx)

theorem tables_atomicEnd {S : System σ} {s s' : State σ} {pid : Nat} {w : Calls}
    (h : Step S s (pid,.atomicEnd) s') (ht : Tables s w) :
    Tables s' (watch s (pid,.atomicEnd) s' w) := by
  cases h with
  | @atomicEnd _ p e hp hpc he =>
    have hend : (p.atomicEnd e s.past.length).pc.ending = some e ∧
        (p.atomicEnd e s.past.length).gthreads = p.gthreads := by
      unfold Proc.atomicEnd
      split <;> exact ⟨rfl,rfl⟩
    have hwatch : watch s (pid,.atomicEnd) (s.put pid (p.atomicEnd e s.past.length)) w =
        match (p.atomicEnd e s.past.length).pc.creating with
        | some h => w.enter pid h (p.atomicEnd e s.past.length).pc.verdict
        | none => w := by simp [watch,State.put]
    rw [hwatch]
    split
    · rename_i h hc
      obtain ⟨f,k,hek⟩ := PC.creating_eq.mp hc
      obtain rfl := Option.some.inj (hend.1.symm.trans hek)
      exact ht.put rfl (fun q hq => by simp [Calls.enter,hq])
        (by simpa [Calls.enter] using
          (ht.1 pid p hp).enter hpc hend.2 hc (S.endOf_handle he))
    · rename_i hc
      exact ht.move hp rfl (by rw [hpc]; rfl) hend.2 (by rw [hc,hpc]; rfl)
        (by simp [hpc,PC.creating,PC.ending])

theorem tables_lock {S : System σ} {s s' : State σ} {pid : Nat} {w : Calls}
    (h : Step S s (pid,.lock) s') (ht : Tables s w) : Tables s' (watch s (pid,.lock) s' w) := by
  cases h with
  | @commit _ p e hp hpc hm hc =>
    have hsame : (PC.commit e p.writeSetVersion.keys).creating = p.pc.creating := by rw [hpc]; rfl
    cases hcr : p.pc.creating with
    | none =>
      simp only [watch,hp,hcr,State.put,Function.update_self]
      exact ht.move (p := { p with pc := .commit e p.writeSetVersion.keys }) hp rfl
        (by rw [hpc]; rfl) rfl hsame (by simp [hcr])
    | some h =>
      simp only [watch,hp,hcr,State.put,Function.update_self]
      refine ht.put (p := { p with pc := .commit e p.writeSetVersion.keys }) rfl
        (fun q hq => by simp [Calls.amend,hq]) ?_
      simpa [Calls.amend] using (ht.1 pid p hp).judge
        (u := { p with pc := .commit e p.writeSetVersion.keys }) (by rw [hpc]; rfl) hcr rfl
        (.inl (hsame.trans hcr))
  | @reject _ p e hp hpc hm hc =>
    cases hcr : p.pc.creating with
    | none =>
      simp only [watch,hp,hcr,State.put,Function.update_self]
      exact ht.move (p := { p with pc := .abort }) hp rfl (by rw [hpc]; rfl) rfl hcr.symm
        (by simp [hcr])
    | some h =>
      simp only [watch,hp,hcr,State.put,Function.update_self]
      refine ht.put (p := { p with pc := .abort }) rfl (fun q hq => by simp [Calls.amend,hq]) ?_
      simpa [Calls.amend] using (ht.1 pid p hp).judge (u := { p with pc := .abort })
        (by rw [hpc]; rfl) hcr rfl (.inr ⟨rfl,rfl⟩)

/-- The child of the call takes over the handles of the process and starts without calls. -/
theorem tables_fork {S : System σ} {s s' : State σ} {pid child : Nat} {w : Calls}
    (h : Step S s (pid,.fork child) s') (ht : Tables s w) :
    Tables s' (watch s (pid,.fork child) s' w) := by
  cases h with
  | @fork _ p e _ f c hp hpc hf hc hn =>
    have hne : child ≠ pid := (Processes.ne_of_none hp hn).symm
    have htp := ht.1 pid p hp
    have hw : p.pc.working = true := by rw [hpc]; rfl
    have hchild : Table [] (w.handles pid) { p with
        parent := pid
        predecessor := if S.order then p.predecessor else 0
        elder := if S.order then p.predecessor else 0
        pc := .atomicBegin ⟨none,f⟩ } :=
      ⟨by simp,by simp,by simp [PC.creating,PC.ending],fun x hx => .inl (htp.found hw x hx)⟩
    cases hcr : p.pc.creating with
    | none =>
      simp only [watch,hp,hcr]
      refine ht.forked hne ?_ ?_ fun q hqp hqc => by simp [Calls.inherit,hqc]
      · simpa [Calls.inherit,Ne.symm hne] using htp.move
          (u := { p with predecessor := child, pc := .atomicBegin (c child) }) hw rfl
          (by rw [hcr]; rfl) (by simp [hcr])
      · simpa [Calls.inherit,ht.2 child hn] using hchild
    | some h =>
      obtain ⟨f',k,hek⟩ := PC.creating_eq.mp hcr
      have hee : e = .pthreadCreate f' h k := by simpa [hpc,PC.ending] using hek
      have hc' : c child = ⟨some child,k⟩ := by
        simp only [hee,End.fork,Option.some.injEq,Prod.mk.injEq] at hf
        rw [← hf.2]
      simp only [watch,hp,hcr]
      refine ht.forked hne ?_ ?_ fun q hqp hqc => ?_
      · simpa [Calls.inherit,Calls.amend,Calls.handle,Ne.symm hne] using htp.fork
          (u := { p with predecessor := child, pc := .atomicBegin (c child) }) hw hcr
          (by rw [hpc]; rfl) rfl (by rw [hc'])
      · simpa [Calls.inherit,Calls.amend,Calls.handle,hne,ht.2 child hn] using hchild
      · simp [Calls.inherit,Calls.amend,Calls.handle,hqp,hqc]

theorem tables_step {S : System σ} {s s' : State σ} {x : Nat × Act} {w : Calls}
    (h : Step S s x s') (ht : Tables s w) : Tables s' (watch s x s' w) := by
  cases h with
  | @atomicBegin pid p c hp hpc hm =>
    have htp := ht.1 pid p hp
    refine ht.stay rfl ⟨?_,htp.old,?_,?_⟩
    · intro call hcall
      exact .inl (htp.settled (by simp [hpc,PC.exited]) (by simp [hpc,PC.creating,PC.ending]) call
        (List.mem_of_mem_head? hcall))
    · intro i hi; simp [Proc.atomicBegin,PC.creating,PC.ending] at hi
    · intro x hx
      refine .inl ?_
      obtain he | ⟨hlen,k,hk⟩ := htp.entries x hx
      · exact List.getElem?_append_left (List.getElem?_eq_some_iff.mp he).1 ▸ he
      · obtain rfl : c = ⟨some x.2,k⟩ := by simpa [hpc] using hk
        simp [Proc.atomicBegin,hlen]
  | @load pid p a k i m hp hpc hk ha hm =>
    exact ht.move hp rfl (by rw [hpc]; rfl) rfl rfl fun _ => rfl
  | @store pid p a b k i m hp hpc hk ha hm =>
    exact ht.move hp rfl (by rw [hpc]; rfl) rfl rfl fun _ => rfl
  | @fault pid p t a hp hpc ha hf =>
    exact ht.move hp rfl (by rw [hpc]; rfl) rfl rfl fun _ => rfl
  | @killed pid p _ _ hp hpc | @signaled pid p _ hp hpc =>
    exact ht.stay rfl
      ((ht.1 pid p hp).stop (by rw [hpc]; rfl) _ (by simp [hpc,PC.creating,PC.ending]))
  | @atomicEnd pid p e hp hpc he => exact tables_atomicEnd (.atomicEnd hp hpc he) ht
  | @waited pid p e s₁ hp hpc hw =>
    obtain ⟨rfl,-⟩ | ⟨rfl,-⟩ := waitExited_spec hw <;>
    exact ht.move hp rfl (by rw [hpc]; rfl) rfl (by rw [hpc]; rfl) fun _ => by rw [hpc]; rfl
  | @commit pid p e hp hpc hm hc => exact tables_lock (S := S) (.commit hp hpc hm hc) ht
  | @reject pid p e hp hpc hm hc => exact tables_lock (S := S) (.reject hp hpc hm hc) ht
  | @page pid p e todo page hp hpc hpage =>
    exact ht.move hp rfl (by rw [hpc]; rfl) rfl (by rw [hpc]; rfl) fun _ => by rw [hpc]; rfl
  | @memcpy pid p e todo page part hp hpc => exact ht
  | @publish pid p e todo page v hp hpc hv =>
    exact ht.move (p := { p with pc := .commit e todo }) hp rfl (by rw [hpc]; rfl) rfl
      (by rw [hpc]; rfl) fun _ => by rw [hpc]; rfl
  | @unlock pid p e hp hpc =>
    exact ht.move (p := { p with
      toAttempt := p.toAttempt.updateHeap s.past.length
      pc := .ended e }) hp rfl (by rw [hpc]; rfl) rfl (by rw [hpc]; rfl) fun _ => by rw [hpc]; rfl
  | @abort pid p hp hpc =>
    exact ht.move hp rfl (by rw [hpc]; rfl) rfl (by rw [hpc]; rfl)
      (by simp [hpc,PC.creating,PC.ending])
  | @fork pid p e child f c hp hpc hf hc hn => exact tables_fork (.fork hp hpc hf hc hn) ht
  | @forkFailed pid p e y hp hpc hf =>
    exact ht.stay rfl ((ht.1 pid p hp).stop (by rw [hpc]; rfl) _ fun _ => by simp [hpc,PC.verdict])
  | @join pid p t k hp hpc =>
    exact ht.move hp rfl (by rw [hpc]; rfl) rfl (by rw [hpc]; rfl)
      (by simp [hpc,PC.creating,PC.ending])
  | @joined pid p t k s₁ hp hpc hw =>
    obtain ⟨rfl,-⟩ | ⟨rfl,-⟩ := waitExited_spec hw <;>
    exact ht.move hp rfl (by rw [hpc]; rfl) rfl (by rw [hpc]; rfl)
      (by simp [hpc,PC.creating,PC.ending])
  | @interrupted pid p q hp hq hu =>
    refine ht.stay rfl ((ht.1 pid p hp).stop ?_ _ fun _ => ?_) <;>
    obtain ⟨e,hpc,-⟩ | ⟨k,hpc⟩ := Proc.waitsFor_cases hq <;> simp [hpc,PC.working,PC.verdict]
  | @exit pid p hp hpc =>
    exact ht.move hp rfl (by rw [hpc]; rfl) rfl (by rw [hpc]; rfl)
      (by simp [hpc,PC.creating,PC.ending])
  | @reap pid p hp he ho => exact ht

theorem tables_initial (root : Nat) (x : σ) (file : Heap) :
    Tables (initial root x file) .none := by
  refine ⟨fun q p hp => ⟨by simp [Calls.none],by simp [Calls.none],?_,by simp [Calls.none]⟩,
    fun _ _ => rfl⟩
  intro i hi
  simp [(initial_procs hp).2,PC.creating,PC.ending] at hi

/-- A call of `pthread_create` forks nothing if its attempt is rejected and one child if it
commits, unless its process is still on the way to the fork or has quit because the fork
failed. From the return of the call on its handle finds that child in the table of the
caller, and of every process that inherits the handle. -/
structure CreatedOnce (w : Calls) (pid : Nat) (p : Proc σ) : Prop where
  rejected : ∀ call ∈ w.made pid, call.verdict = .rejected → call.children = []
  committed : ∀ call ∈ w.made pid, call.verdict = .committed →
    (∃ c, call.children = [c] ∧ (call.handle,c) ∈ w.handles pid) ∨
    call.children = [] ∧ (p.pc.creating = some call.handle ∨ p.pc = .zombie .forkFailed)
  handles : ∀ x ∈ w.handles pid, p.gthreads[x.1]? = some x.2 ∨
    p.gthreads.length = x.1 ∧ ∃ k, p.pc = .atomicBegin ⟨some x.2,k⟩

theorem created_once (S : System σ) (root : Nat) (x : σ) (file : Heap) (s : State σ)
    (w : Calls) (h : Reachable (Observed watch (Step S)) (initial root x file,.none) (s,w))
    (pid : Nat) (p : Proc σ) (hp : s.procs pid = some p) : CreatedOnce w pid p := by
  have htables : Tables s w := by
    refine h.invariant (I := fun t => Tables t.1 t.2) (tables_initial root x file) ?_
    intro y a z ht hgo
    obtain ⟨t,v⟩ := y
    obtain ⟨u,_⟩ := z
    obtain ⟨hstep,hv⟩ := hgo
    rw [hv]
    exact tables_step hstep ht
  have ht := htables.1 pid p hp
  have known : ∀ call ∈ w.made pid, call.Settled (w.handles pid) ∨ call.children = [] ∧
      (p.pc.creating = some call.handle ∨
        (call.verdict = .committed → p.pc = .zombie .forkFailed)) := by
    intro call hcall
    cases hmade : w.made pid with
    | nil => simp [hmade] at hcall
    | cons first rest =>
      rw [hmade] at hcall
      obtain rfl | hrest := List.mem_cons.mp hcall
      · obtain hs | ⟨hc,⟨hin,-⟩ | ⟨e,he,-,hf⟩⟩ := ht.last call (by simp [hmade])
        · exact .inl hs
        · exact .inr ⟨hc,.inl hin⟩
        · exact .inr ⟨hc,.inr fun h => hf h ▸ he⟩
      · exact .inl (ht.old call (by simpa [hmade] using hrest))
  refine ⟨fun call hcall hv => ?_,fun call hcall hv => ?_,ht.entries⟩
  · obtain (⟨-,hc⟩ | ⟨hv',-⟩) | ⟨hc,-⟩ := known call hcall
    · exact hc
    · cases hv.symm.trans hv'
    · exact hc
  · obtain (⟨hv',-⟩ | ⟨-,hc⟩) | ⟨hc,hq⟩ := known call hcall
    · cases hv.symm.trans hv'
    · exact .inl hc
    · exact .inr ⟨hc,hq.imp_right fun hq => hq hv⟩

inductive Twins where
  | main
  | read (h : Nat)
  | again (h : Nat)
  | look (h g : Nat)
  | leave (h g : Nat)
  | last (h : Nat)
  | thread
  | done
  deriving DecidableEq

def Twins.code : Twins → Instr Twins
  | .main => .pthreadCreate .thread .read
  | .read h => .load 0x100000 fun _ => .again h
  | .again h => .pthreadCreate .thread (.look h)
  | .look h g => .load 0x100000 fun _ => .leave h g
  | .leave h g => .pthreadJoin g (.last h)
  | .last h => .pthreadJoin h .done
  | .thread => .store 0x100000 1 .done
  | .done => .ret

def twins : System Twins := ⟨Twins.code,.adjacent,true,true⟩

def twinsRun : List (Nat × Act) :=
  [(1,.atomicBegin),(1,.atomicEnd),(1,.fork 2),(1,.atomicBegin),(1,.fault),(1,.load 0),
    (1,.atomicEnd)] ++ storeActs 2 ++
  [(2,.exit),(1,.waited),(1,.lock),(1,.abort),(1,.atomicBegin),(1,.fault),(1,.load 0),
    (1,.atomicEnd),(1,.waited),(1,.lock),(1,.unlock),(1,.fork 3),(1,.atomicBegin),(1,.fault),
    (1,.load 0),(1,.atomicEnd)] ++ storeActs 3 ++
  [(3,.exit),(1,.waited),(1,.lock),(1,.abort),(1,.atomicBegin)]

theorem created_once_twins : ∃ (s : State Twins) (w : Calls) (p : Proc Twins),
    s.procs 1 = some p ∧ p.gthreads = [2,2,3,3] ∧
    w.made 1 = [⟨2,.committed,[3]⟩,⟨1,.rejected,[]⟩,⟨0,.committed,[2]⟩] ∧
    w.handles 1 = [(2,3),(0,2)] ∧ CreatedOnce w 1 p := by
  have hrun : (execute (observe watch twins.step) (initial 1 .main fun _ => 0,.none)
      twinsRun).any (fun x => ((x.1.procs 1).any fun p => p.gthreads = [2,2,3,3]) &&
        x.2.made 1 = [⟨2,.committed,[3]⟩,⟨1,.rejected,[]⟩,⟨0,.committed,[2]⟩] &&
        x.2.handles 1 = [(2,3),(0,2)]) = true := by decide +kernel
  obtain ⟨⟨s,w⟩,hr,hv⟩ := execute_any (observe_sound twins.step_sound) hrun
  simp only [Bool.and_eq_true,decide_eq_true_eq,Option.any_eq_true] at hv
  obtain ⟨⟨⟨p,hp,hg⟩,hm⟩,hh⟩ := hv
  exact ⟨s,w,p,hp,hg,hm,hh,created_once twins 1 .main (fun _ => 0) s w hr 1 p hp⟩

end GThread
