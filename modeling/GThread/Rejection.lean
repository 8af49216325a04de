import GThread.Rollbacks
import GThread.StackContext

/-! What a rejected attempt leaves behind: nothing but the count. The processes run with their
stacks here, which every step of a process leaves in any state; only `SaveContext` copies one
and only `RestoreContext` brings it back, as often as the attempts that start from it fail. -/
namespace GThread
open Replay Transition
variable {σ : Type}

inductive Turn where
  | save (f : SaveFrames)
  | resume (f : SaveFrames)
  | restore (r : RestoreFrames)
  | run (mem : Nat → Byte)

/-- `AtomicBegin` is called, or gone on with after a `setcontext`; `AtomicAbort` restores the
stack; a child starts with a copy; and everything else leaves any contents on it. -/
def turn (ms : Nat → Machine) (a : (Nat × Act) × Turn) : Option (Nat → Machine) :=
  let pid := a.1.1
  match a.1.2, a.2 with
  | .atomicBegin, .save f =>
    if (ms pid).resumed = false ∧ f.Fit (ms pid) then
      some (Function.update ms pid ((ms pid).saveContext f))
    else none
  | .atomicBegin, .resume f =>
    if (ms pid).resumed = true then
      some (Function.update ms pid ((ms pid).afterGetcontext f))
    else none
  | .abort, .restore r =>
    if r.Fit (ms pid) then some (Function.update ms pid ((ms pid).restoreContext r)) else none
  | .atomicBegin, .run _ | .abort, .run _ => none
  | .fork child, .run mem =>
    let m := { ms pid with mem := mem }
    some (Function.update (Function.update ms pid m) child m)
  | _, .run mem => some (Function.update ms pid { ms pid with mem := mem })
  | _, _ => none

theorem turn_cases {ms ms' : Nat → Machine} {pid : Nat} {act : Act} {t : Turn}
    (h : turn ms ((pid,act),t) = some ms') :
    (∃ f, act = .atomicBegin ∧ t = .save f ∧ (ms pid).resumed = false ∧ f.Fit (ms pid) ∧
      ms' pid = (ms pid).saveContext f) ∨
    (∃ f, act = .atomicBegin ∧ t = .resume f ∧ (ms pid).resumed = true ∧
      ms' pid = (ms pid).afterGetcontext f) ∨
    (∃ r, act = .abort ∧ t = .restore r ∧ r.Fit (ms pid) ∧
      ms' pid = (ms pid).restoreContext r) ∨
    act ≠ .atomicBegin ∧ act ≠ .abort ∧ ∃ mem, t = .run mem ∧
      ms' pid = { ms pid with mem := mem } ∧
      ∀ child, act = .fork child → ms' child = { ms pid with mem := mem } := by
  unfold turn at h
  dsimp only at h
  split at h
  · split at h
    · rename_i hf
      cases h
      exact .inl ⟨_,rfl,rfl,hf.1,hf.2,Function.update_self ..⟩
    · cases h
  · split at h
    · rename_i hr
      cases h
      exact .inr (.inl ⟨_,rfl,rfl,hr,Function.update_self ..⟩)
    · cases h
  · split at h
    · rename_i hr
      cases h
      exact .inr (.inr (.inl ⟨_,rfl,rfl,hr,Function.update_self ..⟩))
    · cases h
  · cases h
  · cases h
  · rename_i child mem
    cases h
    refine .inr (.inr (.inr ⟨nofun,nofun,mem,rfl,?_,?_⟩))
    · by_cases hc : pid = child
      · subst hc
        exact Function.update_self ..
      · exact (Function.update_of_ne hc _ _).trans (Function.update_self ..)
    · intro _ he
      cases he
      exact Function.update_self ..
  · rename_i mem hb ha hf
    cases h
    exact .inr (.inr (.inr ⟨hb,ha,mem,rfl,Function.update_self ..,
      fun child hc => absurd hc (hf child)⟩))
  · cases h

theorem turn_fork {ms ms' : Nat → Machine} {pid child : Nat} {t : Turn}
    (h : turn ms ((pid,.fork child),t) = some ms') :
    ∃ mem, ms' child = { ms pid with mem := mem } := by
  obtain ⟨f,ha,-⟩ | ⟨f,ha,-⟩ | ⟨r,ha,-⟩ | ⟨-,-,mem,-,-,hchild⟩ := turn_cases h
  · cases ha
  · cases ha
  · cases ha
  · exact ⟨mem,hchild child rfl⟩

theorem turn_others {ms ms' : Nat → Machine} {pid : Nat} {act : Act} {t : Turn}
    (h : turn ms ((pid,act),t) = some ms') {q : Nat} (hq : q ≠ pid) (hc : act ≠ .fork q) :
    ms' q = ms q := by
  unfold turn at h
  dsimp only at h
  split at h
  case h_6 child mem =>
    cases h
    have hne : q ≠ child := fun he => hc (he ▸ rfl)
    exact (Function.update_of_ne hne _ _).trans (Function.update_of_ne hq _ _)
  case h_7 =>
    cases h
    exact Function.update_of_ne hq _ _
  all_goals try split at h
  all_goals
    cases h
    try exact Function.update_of_ne hq _ _

theorem turn_bottom {ms ms' : Nat → Machine} {pid : Nat} {act : Act} {t : Turn} {bottom : Nat}
    (h : turn ms ((pid,act),t) = some ms') (hb : ∀ q, (ms q).bottomOfStack = bottom) (q : Nat) :
    (ms' q).bottomOfStack = bottom := by
  by_cases hq : q = pid
  · subst q
    obtain ⟨f,-,-,-,-,hms⟩ | ⟨f,-,-,-,hms⟩ | ⟨r,-,-,-,hms⟩ | ⟨-,-,mem,-,hms,-⟩ := turn_cases h
    · rw [hms]
      exact (afterGetcontext_bottom _ f).trans (hb pid)
    · rw [hms]
      exact (afterGetcontext_bottom _ f).trans (hb pid)
    · rw [hms]
      exact hb pid
    · rw [hms]
      exact hb pid
  · by_cases hc : act = .fork q
    · subst hc
      obtain ⟨mem,hchild⟩ := turn_fork h
      rw [hchild]
      exact hb pid
    · rw [turn_others h hq hc]
      exact hb q

def Stacked (S : System σ) (y : State σ × (Nat → Machine)) (a : (Nat × Act) × Turn)
    (z : State σ × (Nat → Machine)) : Prop :=
  Step S y.1 a.1 z.1 ∧ turn y.2 a = some z.2

def stackedStep (S : System σ) (y : State σ × (Nat → Machine)) (a : (Nat × Act) × Turn) :
    Option (State σ × (Nat → Machine)) :=
  (S.step y.1 a.1).bind fun s => (turn y.2 a).map fun ms => (s,ms)

theorem stackedStep_sound (S : System σ) (y : State σ × (Nat → Machine))
    (a : (Nat × Act) × Turn) (z : State σ × (Nat → Machine))
    (h : stackedStep S y a = some z) : Stacked S y a z := by
  obtain ⟨s,hs,h⟩ := Option.bind_eq_some_iff.mp h
  obtain ⟨ms,hms,rfl⟩ := Option.map_eq_some_iff.mp h
  exact ⟨S.step_sound _ _ _ hs,hms⟩

theorem Stacked.forget {S : System σ} {y z : State σ × (Nat → Machine)}
    (h : Reachable (Stacked S) y z) : Reachable (Step S) y.1 z.1 :=
  Relation.ReflTransGen.lift Prod.fst (fun _ _ ⟨a,ha⟩ => ⟨a.1,ha.1⟩) _ _ h

/-- The stacks restrict no run. -/
theorem exists_stacked {S : System σ} {s t : State σ} (h : Reachable (Step S) s t)
    (mem : Nat → Byte) : ∃ ms, (∀ pid, (ms pid).bottomOfStack = 128 ∧ (ms pid).stackSize ≤ 32) ∧
      Reachable (Stacked S) (s,fun _ => .initStackContext 128 mem) (t,ms) := by
  induction h with
  | refl => exact ⟨_,fun _ => ⟨rfl,Nat.zero_le 32⟩,.refl _⟩
  | tail _ ha ih =>
    obtain ⟨ms,hms,hr⟩ := ih
    obtain ⟨⟨pid,act⟩,hstep⟩ := ha
    have sized {pid : Nat} {m : Machine} {q : Nat} (hm : m.stackSize ≤ 32) :
        (Function.update ms pid m q).stackSize ≤ 32 := by
      by_cases hq : q = pid
      · subst hq
        rwa [Function.update_self]
      · rw [Function.update_of_ne hq]
        exact (hms q).2
    have go (t : Turn) {ms' : Nat → Machine} (hturn : turn ms ((pid,act),t) = some ms')
        (hsize : ∀ q, (ms' q).stackSize ≤ 32) : ∃ ms', (∀ pid, (ms' pid).bottomOfStack = 128 ∧
          (ms' pid).stackSize ≤ 32) ∧ Reachable (Stacked S) _ (_,ms') :=
      ⟨ms',fun q => ⟨turn_bottom hturn (fun q => (hms q).1) q,hsize q⟩,
        hr.tail (a := ((pid,act),t)) ⟨hstep,hturn⟩⟩
    have hgot : ((ms pid).afterGetcontext .usual).stackSize ≤ 32 := by
      simp only [Machine.afterGetcontext]
      split
      · have hsize : usub (ms pid).bottomOfStack 96 = 32 := by rw [(hms pid).1]; rfl
        exact hsize.le
      · exact (hms pid).2
    have hsaved : ((ms pid).saveContext .usual).stackSize ≤ 32 := by
      have hsize : usub (ms pid).bottomOfStack 96 = 32 := by rw [(hms pid).1]; rfl
      exact hsize.le
    have hfit : SaveFrames.usual.Fit (ms pid) := by
      simp [SaveFrames.Fit,SaveFrames.usual,Frame.Below,(hms pid).1]
    cases act with
    | atomicBegin =>
      cases hres : (ms pid).resumed with
      | false => exact go (.save .usual) (if_pos ⟨hres,hfit⟩) fun q => sized hsaved
      | true => exact go (.resume .usual) (if_pos hres) fun q => sized hgot
    | abort =>
      exact go (.restore (.usual (ms pid)))
        (if_pos (restoreFrames_usual_fit (hms pid).1 (hms pid).2)) fun q => sized (hms pid).2
    | fork child =>
      refine go (.run mem) rfl fun q => ?_
      by_cases hq : q = child
      · subst hq
        rw [Function.update_self]
        exact (hms pid).2
      · rw [Function.update_of_ne hq]
        exact sized (hms pid).2
    | _ => exact go (.run mem) rfl fun q => sized (m := { ms pid with mem := mem }) (hms pid).2

/-- What a call of `SaveContext` was to keep: the continuation, its stack pointer, and the stack
from `top` on. -/
structure Saved (σ : Type) where
  context : Context σ
  sp : Nat
  top : Nat
  mem : Nat → Byte

def SaveFrames.saved (f : SaveFrames) (m : Machine) (c : Context σ) : Saved σ :=
  ⟨c,f.saveContext.sp,f.phase2Save.address,scribble m.mem f.sp f.writes⟩

/-- The stacks as they were saved, whether a process has changed the shared file or the version
table since its last `AtomicBegin`, and how many attempts were rejected. -/
structure Account (σ : Type) where
  saved : Nat → Option (Saved σ)
  changed : Nat → Prop
  rejections : Nat

def PC.begins : PC σ → Option (Context σ)
  | .atomicBegin c => some c
  | _ => none

def account (y : State σ × (Nat → Machine)) (a : (Nat × Act) × Turn)
    (z : State σ × (Nat → Machine)) (l : Account σ) : Account σ where
  saved := match a.2 with
    | .save f => Function.update l.saved a.1.1
        ((y.1.procs a.1.1).bind fun p => p.pc.begins.map (f.saved (y.2 a.1.1)))
    | _ => l.saved
  changed := Function.update l.changed a.1.1 (a.1.2 ≠ .atomicBegin ∧
    (l.changed a.1.1 ∨ z.1.now ≠ y.1.now ∨ z.1.globalPageVersion ≠ y.1.globalPageVersion))
  rejections := if y.1.rejects a.1 then l.rejections + 1 else l.rejections

structure Kept (m : Machine) (p : Proc σ) (o : Saved σ) : Prop where
  holds : m.Holds o.top o.mem
  state : m.state = o.sp
  context : p.context = o.context
  resumed : m.resumed = true → p.pc = .atomicBegin o.context ∧
    ∀ a, o.top ≤ a → a < m.bottomOfStack → m.mem a = o.mem a

/-- A process before its first `AtomicBegin`, or a later one it has called, has no copy that it
could still go back to; every other one has. -/
structure Standing (m : Machine) (p : Proc σ) (saved : Option (Saved σ)) (changed : Prop) :
    Prop where
  kept : m.resumed = false ∧ (∃ c, p.pc = .atomicBegin c) ∨ ∃ o, saved = some o ∧ Kept m p o
  unchanged : m.resumed = true ∨ p.pc.open ∨ p.pc = .abort → ¬ changed

theorem Standing.kept_of_resumed {m : Machine} {p : Proc σ} {saved : Option (Saved σ)}
    {changed : Prop} (h : Standing m p saved changed) (hr : m.resumed = true) :
    ∃ o, saved = some o ∧ Kept m p o := by
  obtain ⟨hr',-⟩ | hk := h.kept
  · cases hr.symm.trans hr'
  · exact hk

theorem Standing.away {m : Machine} {p : Proc σ} {saved : Option (Saved σ)} {changed : Prop}
    (h : Standing m p saved changed) (hpc : ∀ c, p.pc ≠ .atomicBegin c) :
    m.resumed = false ∧ ∃ o, saved = some o ∧ Kept m p o := by
  obtain ⟨-,c,hc⟩ | ⟨o,ho,hk⟩ := h.kept
  · exact absurd hc (hpc c)
  · exact ⟨Bool.eq_false_iff.mpr fun hr => hpc _ (hk.resumed hr).1,o,ho,hk⟩

structure Accounted (bottom : Nat) (y : State σ × (Nat → Machine)) (l : Account σ) : Prop where
  bottom : ∀ pid, (y.2 pid).bottomOfStack = bottom
  each : ∀ pid p, y.1.procs pid = some p →
    Standing (y.2 pid) p (l.saved pid) (l.changed pid)
  count : y.1.rollbackCount = l.rejections

theorem begin_step {S : System σ} {s s' : State σ} {pid : Nat}
    (h : Step S s (pid,.atomicBegin) s') : s.mutex = none ∧ ∃ p c, s.procs pid = some p ∧
      p.pc = .atomicBegin c ∧
      s'.procs pid = some (p.atomicBegin c s.globalPageVersion s.txs.length) := by
  cases h with
  | atomicBegin hp hpc hm => exact ⟨hm,_,_,hp,hpc,Function.update_self ..⟩

theorem abort_step {S : System σ} {s s' : State σ} {pid : Nat} (h : Step S s (pid,.abort) s') :
    ∃ p p', s.procs pid = some p ∧ p.pc = .abort ∧ s'.procs pid = some p' ∧
      p'.context = p.context ∧ p'.pc = .atomicBegin p.context ∧ s'.now = s.now ∧
      s'.globalPageVersion = s.globalPageVersion := by
  cases h with
  | abort hp hpc => exact ⟨_,_,hp,hpc,Function.update_self ..,rfl,rfl,rfl,rfl⟩

/-- Any other step starts outside `AtomicBegin` and keeps the continuation; an attempt goes on
after it, or is rejected, only from an attempt, and then nothing shared has changed. -/
theorem middle_step {S : System σ} {s s' : State σ} {pid : Nat} {act : Act}
    (h : Step S s (pid,act) s') (hbegin : act ≠ .atomicBegin) (habort : act ≠ .abort) :
    ∃ p p', s.procs pid = some p ∧ s'.procs pid = some p' ∧ (∀ c, p.pc ≠ .atomicBegin c) ∧
      p'.context = p.context ∧ (p'.pc.open ∨ p'.pc = .abort → p.pc.open ∧ s'.now = s.now ∧
        s'.globalPageVersion = s.globalPageVersion) := by
  cases h with
  | atomicBegin => exact absurd rfl hbegin
  | abort => exact absurd rfl habort
  | load hp hpc | store hp hpc | fault hp hpc | reject hp hpc =>
    exact ⟨_,_,hp,Function.update_self ..,by simp [hpc],rfl,fun _ => ⟨by rw [hpc]; trivial,rfl,rfl⟩⟩
  | atomicEnd hp hpc =>
    refine ⟨_,_,hp,Function.update_self ..,by simp [hpc],?_,
      fun _ => ⟨by rw [hpc]; trivial,rfl,rfl⟩⟩
    unfold Proc.atomicEnd
    split <;> rfl
  | waited hp hpc hw =>
    obtain ⟨rfl,-⟩ | ⟨rfl,-⟩ := waitExited_spec hw <;>
    exact ⟨_,_,hp,Function.update_self ..,by simp [hpc],rfl,
      fun _ => ⟨by rw [hpc]; trivial,rfl,rfl⟩⟩
  | joined hp hpc hw =>
    obtain ⟨rfl,-⟩ | ⟨rfl,-⟩ := waitExited_spec hw <;>
    exact ⟨_,_,hp,Function.update_self ..,by simp [hpc],rfl,fun ho => by simp [PC.open] at ho⟩
  | memcpy hp hpc =>
    exact ⟨_,_,hp,hp,by simp [hpc],rfl,fun ho => by simp [hpc,PC.open] at ho⟩
  | reap hp he =>
    obtain ⟨e,hpc⟩ := PC.exited_iff.mp he
    exact ⟨_,_,hp,hp,by simp [hpc],rfl,fun ho => by simp [hpc,PC.open] at ho⟩
  | @fork _ p e child f c hp hpc hf hc hn =>
    have hne : pid ≠ child := Processes.ne_of_none hp hn
    refine ⟨p,_,hp,(Function.update_of_ne hne _ _).trans (Function.update_self ..),
      by simp [hpc],rfl,fun ho => by simp [PC.open] at ho⟩
  | interrupted hp hq =>
    obtain ⟨e,hpc,-⟩ | ⟨k,hpc⟩ := Proc.waitsFor_cases hq <;>
    exact ⟨_,_,hp,Function.update_self ..,by simp [hpc],rfl,fun ho => by simp [PC.open] at ho⟩
  | killed hp hpc | signaled hp hpc | commit hp hpc | page hp hpc | publish hp hpc
  | unlock hp hpc | forkFailed hp hpc | join hp hpc | exit hp hpc =>
    exact ⟨_,_,hp,Function.update_self ..,by simp [hpc],rfl,fun ho => by simp [PC.open] at ho⟩

theorem child_step {S : System σ} {s s' : State σ} {pid child : Nat}
    (h : Step S s (pid,.fork child) s') :
    ∃ r c, s'.procs child = some r ∧ r.pc = .atomicBegin c := by
  cases h with
  | fork hp hpc hf hc hn => exact ⟨_,_,by simp [System.forkChild,State.put]; rfl,rfl⟩

theorem Kept.run {m : Machine} {p p' : Proc σ} {o : Saved σ} (h : Kept m p o)
    (hr : m.resumed = false) (hp : p'.context = p.context) (mem : Nat → Byte) :
    Kept { m with mem := mem } p' o :=
  ⟨⟨h.holds.firstTime,h.holds.size,h.holds.bytes⟩,h.state,hp.trans h.context,
    fun hr' => absurd (hr'.symm.trans hr) nofun⟩

theorem Kept.restore {m : Machine} {p p' : Proc σ} {o : Saved σ} (h : Kept m p o)
    (hb : m.bottomOfStack < 2^64) {r : RestoreFrames} (hr : r.Fit m)
    (hp : p'.context = p.context) (hpc : p'.pc = .atomicBegin p.context) :
    Kept (m.restoreContext r) p' o := by
  refine ⟨restoreContext_holds h.holds r,h.state,hp.trans h.context,fun _ => ⟨?_,?_⟩⟩
  · rw [hpc,h.context]
  · exact fun a hlo hhi => restoreContext_mem h.holds hb hr hlo hhi

theorem Kept.resume {m : Machine} {p p' : Proc σ} {o : Saved σ} (h : Kept m p o)
    (f : SaveFrames) (hp : p'.context = o.context) : Kept (m.afterGetcontext f) p' o := by
  rw [afterGetcontext_of_holds h.holds]
  exact ⟨⟨h.holds.firstTime,h.holds.size,h.holds.bytes⟩,h.state,hp,nofun⟩

theorem standing_step {S : System σ} {y z : State σ × (Nat → Machine)} {pid : Nat} {act : Act}
    {t : Turn} {l : Account σ} (h : Stacked S y ((pid,act),t) z) {p : Proc σ}
    (hp : y.1.procs pid = some p) (hb : (y.2 pid).bottomOfStack < 2^64)
    (hs : Standing (y.2 pid) p (l.saved pid) (l.changed pid)) {p' : Proc σ}
    (hp' : z.1.procs pid = some p') : Standing (z.2 pid) p'
      ((account y ((pid,act),t) z l).saved pid) ((account y ((pid,act),t) z l).changed pid) := by
  obtain ⟨hstep,hturn⟩ := h
  have hchanged : (account y ((pid,act),t) z l).changed pid ↔ act ≠ .atomicBegin ∧
      (l.changed pid ∨ z.1.now ≠ y.1.now ∨ z.1.globalPageVersion ≠ y.1.globalPageVersion) := by
    simp [account]
  have quiet (hold : ¬ l.changed pid) (hnow : z.1.now = y.1.now)
      (hglobal : z.1.globalPageVersion = y.1.globalPageVersion) :
      ¬ (account y ((pid,act),t) z l).changed pid := by
    intro hc
    obtain ⟨-,hc | hne | hne⟩ := hchanged.mp hc
    · exact hold hc
    · exact hne hnow
    · exact hne hglobal
  obtain ⟨f,rfl,rfl,-,hfit,hms⟩ | ⟨f,rfl,rfl,hr,hms⟩ | ⟨r,rfl,rfl,hfit,hms⟩ |
    ⟨hnb,hna,mem,rfl,hms,-⟩ := turn_cases hturn
  · obtain ⟨-,p₀,c,hp₀,hpc,hp₁⟩ := begin_step hstep
    cases hp.symm.trans hp₀
    cases hp'.symm.trans hp₁
    refine ⟨.inr ⟨f.saved (y.2 pid) c,?_,?_⟩,fun _ hc => (hchanged.mp hc).1 rfl⟩
    · simp [account,hp,hpc,PC.begins]
    · rw [hms]
      exact ⟨saveContext_holds hb hfit,rfl,rfl,nofun⟩
  · obtain ⟨-,p₀,c,hp₀,hpc,hp₁⟩ := begin_step hstep
    cases hp.symm.trans hp₀
    cases hp'.symm.trans hp₁
    obtain ⟨o,ho,hk⟩ := hs.kept_of_resumed hr
    have hsame : c = o.context := PC.atomicBegin.inj (hpc.symm.trans (hk.resumed hr).1)
    refine ⟨.inr ⟨o,ho,?_⟩,fun _ hc => (hchanged.mp hc).1 rfl⟩
    rw [hms]
    exact hk.resume f hsame
  · obtain ⟨p₀,p₁,hp₀,hpc,hp₁,hctx,hpc',hnow,hglobal⟩ := abort_step hstep
    cases hp.symm.trans hp₀
    cases hp'.symm.trans hp₁
    obtain ⟨-,o,ho,hk⟩ := hs.away (by simp [hpc])
    refine ⟨.inr ⟨o,ho,?_⟩,fun _ => quiet (hs.unchanged (.inr (.inr hpc))) hnow hglobal⟩
    rw [hms]
    exact hk.restore hb hfit hctx hpc'
  · obtain ⟨p₀,p₁,hp₀,hp₁,hpc,hctx,hopen⟩ := middle_step hstep hnb hna
    cases hp.symm.trans hp₀
    cases hp'.symm.trans hp₁
    obtain ⟨hr,o,ho,hk⟩ := hs.away hpc
    refine ⟨.inr ⟨o,ho,hms ▸ hk.run hr hctx mem⟩,fun hin => ?_⟩
    have hin' : p'.pc.open ∨ p'.pc = .abort := by
      refine hin.resolve_left ?_
      rw [hms]
      exact Bool.eq_false_iff.mp hr
    obtain ⟨ho,hnow,hglobal⟩ := hopen hin'
    exact quiet (hs.unchanged (.inr (.inl ho))) hnow hglobal

theorem account_others (y z : State σ × (Nat → Machine)) (act : Act) (t : Turn) (l : Account σ)
    {pid q : Nat} (hq : q ≠ pid) :
    (account y ((pid,act),t) z l).saved q = l.saved q ∧
      (account y ((pid,act),t) z l).changed q = l.changed q := by
  refine ⟨?_,by simp [account,hq]⟩
  cases t <;> simp [account,hq]

theorem standing_child {S : System σ} {y z : State σ × (Nat → Machine)} {pid child : Nat}
    {t : Turn} {l l' : Account σ} (h : Stacked S y ((pid,.fork child),t) z)
    (hs : ∀ p, y.1.procs pid = some p → Standing (y.2 pid) p (l.saved pid) (l.changed pid))
    {r : Proc σ} (hr : z.1.procs child = some r) :
    Standing (z.2 child) r (l'.saved child) (l'.changed child) := by
  obtain ⟨hstep,hturn⟩ := h
  obtain ⟨p,-,hp,-,hpc,-⟩ := middle_step hstep nofun nofun
  obtain ⟨r',c,hr',hrpc⟩ := child_step hstep
  cases hr.symm.trans hr'
  obtain ⟨mem,hchild⟩ := turn_fork hturn
  have hresumed : (z.2 child).resumed = false := by
    rw [hchild]
    exact ((hs p hp).away hpc).1
  refine ⟨.inl ⟨hresumed,c,hrpc⟩,fun hin => ?_⟩
  rw [hresumed,hrpc] at hin
  simp [PC.open] at hin

theorem accounted_step {S : System σ} {bottom : Nat} (hbottom : bottom < 2^64)
    {y z : State σ × (Nat → Machine)} {a : (Nat × Act) × Turn} {l : Account σ}
    (h : Stacked S y a z) (hl : Accounted bottom y l) :
    Accounted bottom z (account y a z l) := by
  obtain ⟨⟨pid,act⟩,t⟩ := a
  obtain ⟨hstep,hturn⟩ := h
  refine ⟨turn_bottom hturn hl.bottom,?_,?_⟩
  · intro q p' hp'
    by_cases hq : q = pid
    · subst q
      obtain ⟨p,hp,-⟩ := actor_step hstep
      exact standing_step ⟨hstep,hturn⟩ hp (hl.bottom pid ▸ hbottom) (hl.each pid p hp) hp'
    · by_cases hc : act = .fork q
      · subst hc
        exact standing_child ⟨hstep,hturn⟩ (hl.each pid) hp'
      · obtain ⟨hsaved,hchanged⟩ := account_others y z act t l hq
        rw [hsaved,hchanged,turn_others hturn hq hc]
        exact hl.each q p' (others_step hstep hq hc ▸ hp')
  · obtain ⟨hno,-,hcount⟩ | ⟨p,e,tx,-,-,hno,-,-,-,hcount⟩ | ⟨p,e,-,-,hyes,-,-,-,-,hcount⟩ :=
      verdict_step hstep
    · simpa [account,hno,hcount] using hl.count
    · simpa [account,hno,hcount] using hl.count
    · simpa [account,hyes,hcount] using hl.count

theorem accounted_initial (root : Nat) (x : σ) (file : Heap) (bottom : Nat) (mem : Nat → Byte) :
    Accounted bottom (initial root x file,fun _ => .initStackContext bottom mem)
      ⟨fun _ => none,fun _ => False,0⟩ :=
  ⟨fun _ => rfl,fun _ _ hp => ⟨.inl ⟨rfl,_,(initial_procs hp).2⟩,fun _ => id⟩,rfl⟩

/-- Process `p` starts the continuation of `o` as if for the first time: no page was accessed,
so each is inaccessible and shows the shared file, and the versions are those of `s`. -/
structure Anew (s : State σ) (o : Saved σ) (p : Proc σ) : Prop where
  readSet : p.readSetVersion = ∅
  writeSet : p.writeSetVersion = ∅
  versions : p.localPageVersion = s.globalPageVersion
  prot : ∀ page, p.prot page = .none
  copies : ∀ page, p.copies page = none
  shows : ∀ file, p.view file = file
  continues : p.pc = .run ∧ p.cur = o.context.next ∧ p.context = o.context

/-- A rejected attempt has changed nothing that others see but the count. `setcontext` goes on
from the stack that was saved, by the first call however many attempts were rejected since, and
`AtomicBegin` returns with a new attempt at the same continuation. -/
structure Traceless (S : System σ) (y : State σ × (Nat → Machine)) (l : Account σ) : Prop where
  untouched : ∀ pid p, y.1.procs pid = some p → p.pc = .abort ∨ (y.2 pid).resumed = true →
    ¬ l.changed pid
  counted : y.1.rollbackCount = l.rejections
  restored : ∀ pid p, y.1.procs pid = some p → (y.2 pid).resumed = true →
    ∃ o, l.saved pid = some o ∧ p.pc = .atomicBegin o.context ∧ (y.2 pid).state = o.sp ∧
      ∀ a, o.top ≤ a → a < (y.2 pid).bottomOfStack → (y.2 pid).mem a = o.mem a
  aborted : ∀ pid t z, Stacked S y ((pid,.abort),t) z →
    (z.2 pid).resumed = true ∧ (account y ((pid,.abort),t) z l).saved = l.saved
  retried : ∀ pid t z, Stacked S y ((pid,.atomicBegin),t) z → (y.2 pid).resumed = true →
    y.1.mutex = none ∧ z.2 pid = { y.2 pid with resumed := false } ∧
      (account y ((pid,.atomicBegin),t) z l).saved = l.saved ∧
      ∃ o p, l.saved pid = some o ∧ z.1.procs pid = some p ∧ Anew y.1 o p

theorem Accounted.retried {S : System σ} {bottom : Nat} {y z : State σ × (Nat → Machine)}
    {l : Account σ} (hl : Accounted bottom y l) (hs : Sound S y.1) {pid : Nat} {t : Turn}
    (h : Stacked S y ((pid,.atomicBegin),t) z) (hr : (y.2 pid).resumed = true) :
    y.1.mutex = none ∧ z.2 pid = { y.2 pid with resumed := false } ∧
      (account y ((pid,.atomicBegin),t) z l).saved = l.saved ∧
      ∃ o p, l.saved pid = some o ∧ z.1.procs pid = some p ∧ Anew y.1 o p := by
  obtain ⟨hstep,hturn⟩ := h
  obtain ⟨hm,p,c,hp,hpc,hp'⟩ := begin_step hstep
  obtain ⟨o,ho,hk⟩ := (hl.each pid p hp).kept_of_resumed hr
  have hc : c = o.context := PC.atomicBegin.inj (hpc.symm.trans (hk.resumed hr).1)
  have hclean : p.copies = fun _ => none := (hs.each pid p hp).clean (by rw [hpc]; trivial)
  obtain ⟨f,-,-,hr',-⟩ | ⟨f,-,rfl,-,hms⟩ | ⟨r,ha,-⟩ | ⟨hb,-⟩ := turn_cases hturn
  · cases hr.symm.trans hr'
  · rw [afterGetcontext_of_holds hk.holds] at hms
    refine ⟨hm,hms,rfl,o,_,ho,hp',⟨rfl,rfl,rfl,fun _ => rfl,?_,?_,rfl,?_,?_⟩⟩
    · exact fun page => congrFun hclean page
    · exact fun file => view_clean hclean file
    · exact congrArg Context.next hc
    · exact hc
  · cases ha
  · exact absurd rfl hb

theorem rejected_traceless (S : System σ) (root : Nat) (x : σ) (file : Heap) (bottom : Nat)
    (hbottom : bottom < 2^64) (mem : Nat → Byte) (y : State σ × (Nat → Machine)) (l : Account σ)
    (h : Reachable (Observed account (Stacked S))
      ((initial root x file,fun _ => .initStackContext bottom mem),
        ⟨fun _ => none,fun _ => False,0⟩) (y,l)) : Traceless S y l := by
  have hl : Accounted bottom y l := by
    refine h.invariant (I := fun x => Accounted bottom x.1 x.2)
      (accounted_initial root x file bottom mem) ?_
    intro t a u ht hgo
    obtain ⟨hstep,haccount⟩ := hgo
    rw [haccount]
    exact accounted_step hbottom hstep ht
  have hs : Sound S y.1 := sound_reachable (Stacked.forget h.unobserve)
  refine ⟨?_,hl.count,?_,?_,fun pid t z hz hr => hl.retried hs hz hr⟩
  · intro pid p hp hin
    exact (hl.each pid p hp).unchanged (hin.elim (.inr ∘ .inr) .inl)
  · intro pid p hp hr
    obtain ⟨o,ho,hk⟩ := (hl.each pid p hp).kept_of_resumed hr
    exact ⟨o,ho,(hk.resumed hr).1,hk.state,(hk.resumed hr).2⟩
  · intro pid t z hz
    obtain ⟨f,ha,-⟩ | ⟨f,ha,-⟩ | ⟨r,-,rfl,-,hms⟩ | ⟨-,ha,-⟩ := turn_cases hz.2
    · cases ha
    · cases ha
    · exact ⟨by rw [hms]; rfl,rfl⟩
    · exact absurd rfl ha

def shallow (a : Nat × Act) : (Nat × Act) × Turn :=
  (a,match a.2 with
    | .atomicBegin => .save .usual
    | .abort => .restore ⟨124,⟨116,112⟩,92,⟨88,84⟩,fun _ => 2,fun _ => 3⟩
    | _ => .run fun _ => 7)

/-- The second thread is back in `SaveContext`, on the bytes it had there before. -/
theorem rejected_traceless_counter : ∃ (y : State Counter × (Nat → Machine))
    (l : Account Counter), (y.2 3).resumed = true ∧ l.rejections = 1 ∧ (y.2 3).mem 100 = 1 ∧
      Traceless counter y l := by
  have hrun : (execute (observe account (stackedStep counter))
      ((initial 1 .main fun _ => 0,fun _ => .initStackContext 128 fun _ => 0),
        ⟨fun _ => none,fun _ => False,0⟩) ((counterRun.take 26).map shallow)).any
      (fun x => (x.1.2 3).resumed && x.2.rejections = 1 && (x.1.2 3).mem 100 = 1) = true := by
    decide +kernel
  obtain ⟨⟨y,l⟩,h,hv⟩ := execute_any (observe_sound (stackedStep_sound counter)) hrun
  simp only [Bool.and_eq_true,decide_eq_true_eq] at hv
  obtain ⟨⟨hr,hn⟩,hm⟩ := hv
  exact ⟨y,l,hr,hn,hm,rejected_traceless counter 1 .main (fun _ => 0) 128 (by decide)
    (fun _ => 0) y l h⟩

end GThread
