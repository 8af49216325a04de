import GThread.ForkJoin
import GThread.Execute
import Mathlib.Order.WellFounded

/-! Waiting in the ordered build. A thread that polls for an elder sibling is released when
their parent reaps the sibling, not when it exits; so the parent must not be waiting for that
very thread. The proof looks at the leftmost waiting process, in the order of the tree. -/
namespace GThread
open Replay Transition
variable {σ τ : Type}

/-- Every member of `D` waits for an own child in `D`, or polls for its predecessor, and then
the predecessor or the parent that has to reap it is in `D`. -/
def Tree.Stuck (t : Tree) (w : Nat → Nat) (D : Set Nat) : Prop :=
  ∀ p ∈ D, ∃ kp kq, t.kin p = some kp ∧ t.kin (w p) = some kq ∧
    (kq.parent = p ∧ w p ∈ D ∨
      kq.parent ≠ p ∧ w p = kp.predecessor ∧ (w p ∈ D ∨ kq.parent ∈ D))

/-- `p` polls for a process whose parent waits for the child it forked next. -/
def Tree.Crossed (t : Tree) (w : Nat → Nat) (p : Nat) : Prop :=
  ∃ kq kd, t.kin (w p) = some kq ∧ kq.parent ≠ p ∧ t.kin (w kq.parent) = some kd ∧
    kd.parent = kq.parent ∧ kd.elder = w p

theorem exists_leftmost (t : Tree) {D : Set Nat} (h : D.Nonempty) :
    ∃ p ∈ D, ∀ q ∈ D, t.pos p ≤ t.pos q := by
  obtain ⟨p,hp,hmin⟩ := (measure t.pos).wf.has_min D h
  exact ⟨p,hp,fun q hq => not_lt.mp (hmin q hq)⟩

theorem Tree.Stuck.waits_child {t : Tree} {w : Nat → Nat} {D : Set Nat} (hs : t.Stuck w D)
    (ht : t.Ordered) {p c : Nat} {kc : Kin} (hp : p ∈ D) (hc : t.kin c = some kc)
    (hpar : kc.parent = p) : ∃ kd, t.kin (w p) = some kd ∧ kd.parent = p ∧ w p ∈ D := by
  obtain ⟨kp,kd,hkp,hkd,⟨hown,hd⟩ | ⟨hne,hpred,-⟩⟩ := hs p hp
  · exact ⟨kd,hkd,hown,hd⟩
  · obtain ⟨r,hr,hrp⟩ := ht.child p kp c kc hkp hc hpar
    rw [hpred,hr] at hkd
    obtain rfl := Option.some.inj hkd
    exact absurd hrp hne

/-- `P` waits for its child `d`, which is not its first. Then some member to the left of `P`
polls across a wait. -/
theorem Tree.Stuck.crossed_below {t : Tree} {w : Nat → Nat} {D : Set Nat} (hs : t.Stuck w D)
    (ht : t.Ordered) (n : Nat) : ∀ P kd, t.pos P = n → P ∈ D → t.kin (w P) = some kd →
      kd.parent = P → w P ∈ D → (∃ ke, t.kin kd.elder = some ke ∧ ke.parent = P) →
      ∃ p ∈ D, t.Crossed w p := by
  induction n using Nat.strong_induction_on with
  | _ n ih =>
    intro P kd hn hP hkd hpar hd ⟨ke,hke,hkep⟩
    have hdP : t.pos (w P) < t.pos P := by
      obtain h0 | ⟨-,hlt⟩ := ht.parent _ kd hkd
      · obtain ⟨kP,-,hkP,-⟩ := hs P hP
        exact absurd (hpar.symm.trans h0) (ht.ne_zero hkP)
      · exact hpar ▸ hlt
    -- the leftmost member in the stretch of `d`
    obtain ⟨l,⟨hl,hlo,hhi⟩,hmin⟩ := exists_leftmost t
      (D := {x | x ∈ D ∧ t.pos kd.elder < t.pos x ∧ t.pos x ≤ t.pos (w P)})
      ⟨w P,hd,ht.elder _ kd hkd,le_rfl⟩
    have inner {x c : Nat} {kx kc : Kin} (hx : t.kin x = some kx) (hc : t.kin c = some kc)
        (hxc : kc.parent = x) (hxlo : t.pos kd.elder < t.pos x)
        (hxhi : t.pos x ≤ t.pos (w P)) :
        t.pos kd.elder < t.pos c ∧ t.pos c < t.pos x := by
      have h1 : t.pos kd.elder ≤ t.pos kx.elder := by
        obtain hlt | heq := hxhi.lt_or_eq
        · exact ht.laminar _ kd x kx hkd hx hxlo hlt
        · obtain rfl := Tree.pos_inj (.inr (ht.present hx)) heq
          cases hkd.symm.trans hx
          exact le_rfl
      have h2 := ht.inside x kx c kc hx hc hxc
      have h3 := ht.elder c kc hc
      refine ⟨by omega,?_⟩
      obtain h0 | ⟨-,hlt⟩ := ht.parent c kc hc
      · exact absurd (hxc.symm.trans h0) (ht.ne_zero hx)
      · exact hxc ▸ hlt
    obtain ⟨kl,kq,hkl,hkq,⟨hown,hq⟩ | ⟨hne,hpred,hq⟩⟩ := hs l hl
    · have hin := inner hkl hkq hown hlo hhi
      have := hmin (w l) ⟨hq,hin.1,by omega⟩
      omega
    · have hleft := ht.neighbour l kl hkl
      rw [← hpred] at hleft
      by_cases he : t.pos (w l) = t.pos kd.elder
      · have hel : w l = kd.elder := Tree.pos_inj (.inr (ht.present hkq)) he
        have hkep' : kq.parent = P := by
          rw [hel,hke] at hkq
          exact Option.some.inj hkq ▸ hkep
        exact ⟨l,hl,kq,kd,hkq,hne,hkep' ▸ hkd,hpar.trans hkep'.symm,hel.symm⟩
      · have hnot : w l ∉ D := fun h => by
          have := hmin (w l) ⟨h,by omega,by omega⟩
          omega
        have hP' := hq.resolve_left hnot
        obtain ⟨kP',-,hkP',-⟩ := hs kq.parent hP'
        have hup : t.pos kq.parent ≤ t.pos (w P) :=
          ht.up _ kd (w l) kq hkd hkq (by omega) (by omega)
        have hdown : t.pos (w l) < t.pos kq.parent := by
          obtain h0 | ⟨-,hlt⟩ := ht.parent _ kq hkq
          · exact absurd h0 (ht.ne_zero hkP')
          · exact hlt
        obtain ⟨kd',hkd',hpar',hd'⟩ := hs.waits_child ht hP' hkq rfl
        have hin := inner hkP' hkd' hpar' (by omega) hup
        have := hmin (w kq.parent) ⟨hd',hin.1,by omega⟩
        obtain ⟨ke',hke',hkep'⟩ := ht.sibling (w l) kq _ kd' hkq hkd' hpar'.symm (by omega)
        exact ih (t.pos kq.parent) (by omega) kq.parent kd' rfl hP' hkd' hpar' hd'
          ⟨ke',hke',hkep'.trans hpar'⟩

theorem Tree.Stuck.crossed {t : Tree} {w : Nat → Nat} {D : Set Nat} (hs : t.Stuck w D)
    (ht : t.Ordered) (hD : D.Nonempty) : ∃ p ∈ D, t.Crossed w p := by
  obtain ⟨l,hl,hmin⟩ := exists_leftmost t hD
  obtain ⟨kl,kq,hkl,hkq,⟨hown,hq⟩ | ⟨-,hpred,hq⟩⟩ := hs l hl
  · have hle := hmin _ hq
    obtain h0 | ⟨-,hlt⟩ := ht.parent _ kq hkq
    · exact absurd (hown.symm.trans h0) (ht.ne_zero hkl)
    · rw [hown] at hlt
      omega
  · have hleft := ht.neighbour l kl hkl
    rw [← hpred] at hleft
    have hP := hq.resolve_left fun h => by have := hmin _ h; omega
    obtain ⟨kd,hkd,hpar,hd⟩ := hs.waits_child ht hP hkq rfl
    have := hmin _ hd
    obtain ⟨ke,hke,hkep⟩ := ht.sibling (w l) kq _ kd hkq hkd hpar.symm (by omega)
    exact hs.crossed_below ht _ kq.parent kd rfl hP hkd hpar hd ⟨ke,hke,hkep.trans hpar⟩

/-- Nobody in `D` can leave `WaitExited` before another member does: a child has to exit that
is itself in `D`, or a process has to be reaped that is, or whose parent is, in `D`. -/
def State.Deadlocked (s : State σ) (D : Set Nat) : Prop :=
  D.Nonempty ∧ ∀ pid ∈ D, ∃ p q r, s.procs pid = some p ∧ p.waitsFor = some q ∧
    s.procs q = some r ∧ s.waitExited pid q = none ∧
    (r.parent = pid ∧ q ∈ D ∨ r.parent ≠ pid ∧ (q ∈ D ∨ r.parent ∈ D))

def State.Polls (s : State σ) (pid q : Nat) : Prop :=
  ∃ p r, s.procs pid = some p ∧ p.waitsFor = some q ∧ s.procs q = some r ∧ r.parent ≠ pid ∧
    q ∉ s.reaped

def State.WaitsNext (s : State σ) (q : Nat) : Prop :=
  ∃ r P d rd, s.procs q = some r ∧ s.procs r.parent = some P ∧ P.waitsFor = some d ∧
    s.procs d = some rd ∧ rd.parent = r.parent ∧ rd.elder = q

def Proc.enters (p : Proc σ) : Act → Option Nat
  | .atomicEnd =>
    if p.readSetVersion = ∅ ∧ p.writeSetVersion = ∅ then none else some p.predecessor
  | .join => match p.pc with
    | .ended (.join t _) => some t
    | _ => none
  | _ => none

/-- The step does not start to poll for a process whose parent waits for the child it forked
right after it, nor to wait for that child while another process polls. -/
def State.Uncrossed (s : State σ) (x : Nat × Act) : Prop :=
  ∀ p q r, s.procs x.1 = some p → p.enters x.2 = some q → s.procs q = some r →
    (r.parent ≠ x.1 → q ∉ s.reaped → ¬ s.WaitsNext q) ∧
    (r.parent = x.1 → ∀ e, s.procs r.elder = some e → e.parent = x.1 →
      ∀ l, l ≠ x.1 → ¬ s.Polls l r.elder)

theorem owned_waits {s : State (τ × List Nat)} (ho : Owned s) {pid q : Nat}
    {p : Proc (τ × List Nat)} (hp : s.procs pid = some p) (hq : p.waitsFor = some q) :
    q = p.predecessor ∨ q = 0 ∨ ∃ r, s.procs q = some r ∧ r.parent = pid := by
  obtain ⟨e,-,rfl⟩ | ⟨k,hpc⟩ := Proc.waitsFor_cases hq
  · exact .inl rfl
  · exact .inr (ho pid p hp q (by simp [Proc.handles,hpc]))

/-- In the ordered build a deadlock needs a process that polls across a wait. -/
theorem crossed_of_deadlocked {s : State (τ × List Nat)} (ho : Owned s) (ht : s.tree.Ordered)
    {D : Set Nat} (hD : s.Deadlocked D) : ∃ pid q, s.Polls pid q ∧ s.WaitsNext q := by
  have waits : ∀ pid ∈ D, ∃ p q r, s.procs pid = some p ∧ p.waitsFor = some q ∧
      s.procs q = some r ∧ q ∉ s.reaped ∧
      (r.parent = pid ∧ q ∈ D ∨ r.parent ≠ pid ∧ (q ∈ D ∨ r.parent ∈ D)) := by
    intro pid hpid
    obtain ⟨p,q,r,hp,hq,hr,hw,hin⟩ := hD.2 pid hpid
    refine ⟨p,q,r,hp,hq,hr,fun hreap => ?_,hin⟩
    simp only [State.waitExited,hr,hreap,if_true] at hw
    split at hw <;> cases hw
  let w : Nat → Nat := fun pid => ((s.procs pid).bind Proc.waitsFor).getD 0
  have hw {pid q : Nat} {p : Proc (τ × List Nat)} (hp : s.procs pid = some p)
      (hq : p.waitsFor = some q) : w pid = q := by simp [w,hp,hq]
  have stuck : s.tree.Stuck w D := by
    intro pid hpid
    obtain ⟨p,q,r,hp,hq,hr,-,hin⟩ := waits pid hpid
    refine ⟨p.kin,r.kin,tree_kin hp,hw hp hq ▸ tree_kin hr,?_⟩
    rw [hw hp hq]
    refine hin.imp_right fun ⟨hne,hD⟩ => ⟨hne,?_,hD⟩
    obtain hpred | h0 | ⟨r',hr',hpar⟩ := owned_waits ho hp hq
    · exact hpred
    · exact absurd h0 (ht.ne_zero (tree_kin hr))
    · cases hr.symm.trans hr'
      exact absurd hpar hne
  obtain ⟨pid,hpid,kq,kd,hkq,hne,hkd,hpar,hel⟩ := stuck.crossed ht hD.1
  obtain ⟨p,q,r,hp,hq,hr,hreap,hin⟩ := waits pid hpid
  rw [hw hp hq] at hkq hel
  obtain ⟨r',hr',rfl⟩ := tree_kin_inv hkq
  cases hr.symm.trans hr'
  obtain ⟨rd,hrd,rfl⟩ := tree_kin_inv hkd
  refine ⟨pid,q,⟨p,r,hp,hq,hr,hne,hreap⟩,?_⟩
  cases hP : (s.procs r.kin.parent).bind Proc.waitsFor with
  | none => exact absurd (by simp [w,hP]) (ht.ne_zero hkd)
  | some d =>
    obtain ⟨P,hPp,hPd⟩ := Option.bind_eq_some_iff.mp hP
    exact ⟨r,P,d,rd,hr,hPp,hPd,hw hPp hPd ▸ hrd,hpar,hel⟩

theorem waitsFor_step {S : System σ} {s s' : State σ} {x : Nat × Act} (h : Step S s x s') :
    ∀ q p', s'.procs q = some p' → ∀ t, p'.waitsFor = some t →
      (∃ p, s.procs q = some p ∧ p.waitsFor = some t) ∨
      x.1 = q ∧ ∃ p, s.procs q = some p ∧ p.enters x.2 = some t := by
  have stay : ∀ q p', s.procs q = some p' → ∀ t, p'.waitsFor = some t →
      (∃ p, s.procs q = some p ∧ p.waitsFor = some t) ∨
      x.1 = q ∧ ∃ p, s.procs q = some p ∧ p.enters x.2 = some t :=
    fun q p' hp' t ht => .inl ⟨p',hp',ht⟩
  cases h with
  | @atomicEnd pid p e hp hpc he =>
    refine forall_put stay fun t ht => ?_
    unfold Proc.atomicEnd at ht
    split at ht
    · simp [Proc.waitsFor] at ht
    · rename_i hne
      refine .inr ⟨rfl,p,hp,?_⟩
      simpa [Proc.enters,hne,Proc.waitsFor] using ht
  | @join pid p t' k hp hpc =>
    refine forall_put stay fun t ht => .inr ⟨rfl,p,hp,?_⟩
    simpa [Proc.enters,hpc,Proc.waitsFor] using ht
  | memcpy | reap => exact stay
  | waited _ _ hw | joined _ _ hw =>
    obtain ⟨rfl,-⟩ | ⟨rfl,-⟩ := waitExited_spec hw <;>
    exact forall_put stay fun t ht => by simp [Proc.waitsFor] at ht
  | @fork pid p e child f c hp hpc hf hc hn =>
    exact forall_fork stay (fun t ht => by simp [Proc.waitsFor] at ht)
      fun t ht => by simp [Proc.waitsFor] at ht
  | load hp hpc | store hp hpc | fault hp hpc =>
    exact forall_put stay fun t ht => by simp [Proc.waitsFor,hpc] at ht
  | _ => exact forall_put stay fun t ht => by simp [Proc.waitsFor,Proc.atomicBegin] at ht

theorem reaped_step {S : System σ} {s s' : State σ} {x : Nat × Act} (h : Step S s x s') :
    s.reaped ⊆ s'.reaped := by
  cases h with
  | waited _ _ hw | joined _ _ hw =>
    obtain ⟨rfl,-⟩ | ⟨rfl,-⟩ := waitExited_spec hw
    · exact subset_rfl
    · exact Finset.subset_insert _ _
  | reap => exact Finset.subset_insert _ _
  | _ => exact subset_rfl

theorem target_exists {code : τ → Cmd τ} {L : Layout} {live : Bool} {s : State (τ × List Nat)}
    (hl : ∀ q p, s.procs q = some p → Local (ordered code L live) p) (ho : Owned s)
    (ht : s.tree.Ordered) {pid t : Nat} {p : Proc (τ × List Nat)} (hp : s.procs pid = some p)
    (act : Act) (h : p.waitsFor = some t ∨ p.enters act = some t) :
    t = 0 ∨ ∃ r, s.procs t = some r := by
  have own {c : Nat} (hc : c ∈ p.handles) : c = 0 ∨ ∃ r, s.procs c = some r :=
    (ho pid p hp c hc).imp_right fun ⟨r,hr,_⟩ => ⟨r,hr⟩
  obtain h | h := h
  · obtain ⟨e,-,rfl⟩ | ⟨k,hpc⟩ := Proc.waitsFor_cases h
    · exact predecessor_exists ht hp
    · exact own (by simp [Proc.handles,hpc])
  · unfold Proc.enters at h
    split at h
    · split at h
      · cases h
      · cases h
        exact predecessor_exists ht hp
    · split at h
      · rename_i t' k hpc
        cases h
        obtain ⟨f',k',-,he⟩ | ⟨i,k',-,he⟩ | ⟨-,he⟩ :=
          endOf_ordered ((hl pid p hp).ending _ (by rw [hpc]; rfl)) <;> cases he
        rw [List.getD_eq_getElem?_getD]
        cases hi : p.cur.2[i]? with
        | none => exact .inl rfl
        | some t =>
          have ht := List.mem_of_getElem? hi
          exact own (by simp [Proc.handles,hpc,ht])
      · cases h
    · cases h

theorem uncrossed_step {code : τ → Cmd τ} {L : Layout} {live : Bool}
    {s s' : State (τ × List Nat)} {x : Nat × Act} (h : Step (ordered code L live) s x s')
    (guard : s.Uncrossed x) (hl : ∀ q p, s.procs q = some p → Local (ordered code L live) p)
    (ho : Owned s) (ht : s.tree.Ordered) (ht' : s'.tree.Ordered)
    (hn : ¬ ∃ pid q, s.Polls pid q ∧ s.WaitsNext q) :
    ¬ ∃ pid q, s'.Polls pid q ∧ s'.WaitsNext q := by
  intro hcross
  obtain ⟨l,q,⟨pl,r,hpl,hlq,hr,hne,hreap⟩,r',P,d,rd,hr',hP,hPd,hrd,hpar,hel⟩ := hcross
  cases hr.symm.trans hr'
  have hreap : q ∉ s.reaped := fun hq => hreap (reaped_step h hq)
  have waitsL := waitsFor_step h l pl hpl q hlq
  have waitsP := waitsFor_step h _ P hP d hPd
  have existed {pid t : Nat} {r : Proc (τ × List Nat)} (hr : s'.procs t = some r)
      (hw : (∃ p, s.procs pid = some p ∧ p.waitsFor = some t) ∨
        x.1 = pid ∧ ∃ p, s.procs pid = some p ∧ p.enters x.2 = some t) :
      ∃ r₀, s.procs t = some r₀ ∧ r.parent = r₀.parent ∧ r.elder = r₀.elder := by
    have hex : t = 0 ∨ ∃ r, s.procs t = some r := by
      obtain ⟨p,hp,hw⟩ | ⟨-,p,hp,hw⟩ := hw
      · exact target_exists hl ho ht hp x.2 (.inl hw)
      · exact target_exists hl ho ht hp x.2 (.inr hw)
    obtain ⟨r₀,hr₀⟩ := hex.resolve_left (ht'.ne_zero (tree_kin hr))
    obtain ⟨r',hr',hp,he⟩ := parent_step h hr₀
    cases hr.symm.trans hr'
    exact ⟨r₀,hr₀,hp,he⟩
  obtain ⟨r₀,hr₀,hrp,hre⟩ := existed hr waitsL
  obtain ⟨rd₀,hrd₀,hdp,hde⟩ := existed hrd waitsP
  rw [hrp] at hne hP hpar waitsP
  rw [hdp] at hpar
  rw [hde] at hel
  obtain ⟨pl₀,hpl₀,hlq₀⟩ | ⟨hx,pl₀,hpl₀,henter⟩ := waitsL
  · have hpolls : s.Polls l q := ⟨pl₀,r₀,hpl₀,hlq₀,hr₀,hne,hreap⟩
    obtain ⟨P₀,hP₀,hPd₀⟩ | ⟨hx,P₀,hP₀,henter⟩ := waitsP
    · exact hn ⟨l,q,hpolls,r₀,P₀,d,rd₀,hr₀,hP₀,hPd₀,hrd₀,hpar,hel⟩
    · rw [← hx] at hP₀ hpar
      exact (guard P₀ d rd₀ hP₀ henter hrd₀).2 hpar r₀ (hel ▸ hr₀) hx.symm l
        (fun hlx => hne (hx.symm.trans hlx.symm)) (hel ▸ hpolls)
  · obtain ⟨P₀,hP₀,hPd₀⟩ | ⟨hx',-⟩ := waitsP
    · rw [← hx] at hpl₀ hne
      exact (guard pl₀ q r₀ hpl₀ henter hr₀).1 hne hreap
        ⟨r₀,P₀,d,rd₀,hr₀,hP₀,hPd₀,hrd₀,hpar,hel⟩
    · exact hne (hx'.symm.trans hx)

/-- In a run without crossed waits no deadlock is ever reached. -/
theorem deadlock_free (code : τ → Cmd τ) (L : Layout) (live : Bool) (root : Nat)
    (hroot : root ≠ 0) (x : τ) (file : Heap) (s : State (τ × List Nat))
    (h : Reachable (Guarded State.Uncrossed (Step (ordered code L live)))
      (initial root (x,[]) file) s) (D : Set Nat) : ¬ s.Deadlocked D := by
  have known : ∀ t, Reachable (Guarded State.Uncrossed (Step (ordered code L live)))
      (initial root (x,[]) file) t → (∀ q p, t.procs q = some p →
        Local (ordered code L live) p) ∧ Owned t ∧ t.tree.Ordered := by
    intro t ht
    have hr := ht.forget
    refine ⟨?_,owned_reachable hr,ordered_reachable rfl hroot hr⟩
    exact hr.invariant (local_initial _ root (x,[]) file) fun _ _ _ hl hstep => local_step hstep hl
  intro hD
  obtain ⟨-,ho,ht⟩ := known s h
  refine h.invariant_within (I := fun t => ¬ ∃ pid q, t.Polls pid q ∧ t.WaitsNext q)
    (J := fun t => (∀ q p, t.procs q = some p → Local (ordered code L live) p) ∧ Owned t ∧
      t.tree.Ordered) known ?_ ?_ (crossed_of_deadlocked ho ht hD)
  · intro hcross
    obtain ⟨pid,q,⟨p,r,hp,hq,-⟩,-⟩ := hcross
    simp [Proc.waitsFor,(initial_procs hp).2] at hq
  · intro t a u hknown hn hgo
    obtain ⟨hl,ho,ht⟩ := hknown
    obtain ⟨hguard,hstep⟩ := hgo
    refine uncrossed_step hstep hguard hl ho ht ?_ hn
    obtain he | ⟨pid,child,p,-,hp,hc,hnone,he⟩ := tree_step rfl hstep
    · exact he ▸ ht
    · exact he ▸ ht.fork (tree_kin hp) hc (by simp [State.tree,hnone])

/-- The main program creates an empty thread and a working one and joins the second first;
or two working threads, which it joins in order. -/
inductive Pool where
  | main
  | second
  | joinSecond
  | joinFirst
  | pair
  | another
  | joinElder
  | joinYounger
  | worker
  | done

def Pool.code : Pool → Cmd Pool
  | .main => .create .done .second
  | .second => .create .worker .joinSecond
  | .joinSecond => .join 1 .joinFirst
  | .joinFirst => .join 0 .done
  | .pair => .create .worker .another
  | .another => .create .worker .joinElder
  | .joinElder => .join 0 .joinYounger
  | .joinYounger => .join 1 .done
  | .worker => .store 0x100000 1 .done
  | .done => .ret

def pool : System (Pool × List Nat) := ordered Pool.code .adjacent true

def elderFirst (s : State σ) (x : Nat × Act) : Bool :=
  ((s.procs x.1).bind fun p => p.enters x.2).all fun q => (s.procs q).all fun r =>
    if r.parent = x.1 then (s.procs r.elder).isNone
    else ((s.procs r.parent).bind Proc.waitsFor).all fun d => (s.procs d).all (·.elder ≠ q)

theorem uncrossed_of_elderFirst (s : State σ) (x : Nat × Act)
    (h : elderFirst s x = true) : s.Uncrossed x := by
  intro p q r hp hq hr
  simp only [elderFirst,hp,hq,hr,Option.bind_some,Option.all_some] at h
  constructor
  · rintro hne - ⟨r',P,d,rd,hr',hP,hPd,hrd,-,hel⟩
    cases hr.symm.trans hr'
    simp [hne,hP,hPd,hrd,hel] at h
  · intro hown e he
    simp [hown,he] at h

/-- All three are inside `WaitExited`, the second thread polling for its elder sibling. -/
theorem deadlock_free_pair : ∃ s p c d, s.procs 1 = some p ∧ p.waitsFor = some 2 ∧
    s.procs 2 = some c ∧ c.waitsFor = some 0 ∧ s.procs 3 = some d ∧ d.waitsFor = some 2 ∧
    s.Polls 3 2 ∧ ∀ D, ¬ State.Deadlocked (σ := Pool × List Nat) s D := by
  have hrun : (execute (guarded elderFirst pool.step) (initial 1 (.pair,[]) fun _ => 0)
      [(1,.atomicBegin),(1,.atomicEnd),(1,.fork 2),(1,.atomicBegin),(1,.atomicEnd),(1,.fork 3),
        (2,.atomicBegin),(2,.fault),(2,.fault),(2,.store 0),(2,.atomicEnd),
        (1,.atomicBegin),(1,.atomicEnd),(1,.join),
        (3,.atomicBegin),(3,.fault),(3,.fault),(3,.store 0),(3,.atomicEnd)]).any
      (fun s => ((s.procs 1).any fun p => p.waitsFor = some 2) &&
        ((s.procs 2).any fun p => p.waitsFor = some 0 && p.parent = 1) &&
        ((s.procs 3).any fun p => p.waitsFor = some 2) && 2 ∉ s.reaped) = true := by
    decide +kernel
  obtain ⟨s,hr,hv⟩ := execute_any (guarded_sound uncrossed_of_elderFirst pool.step_sound) hrun
  simp only [Bool.and_eq_true,decide_eq_true_eq,Option.any_eq_true] at hv
  obtain ⟨⟨⟨⟨p,hp,hpw⟩,c,hc,hcw,hcp⟩,d,hd,hdw⟩,hreap⟩ := hv
  exact ⟨s,p,c,d,hp,hpw,hc,hcw,hd,hdw,⟨d,c,hd,hdw,hc,by omega,hreap⟩,
    deadlock_free Pool.code .adjacent true 1 (by decide) .pair (fun _ => 0) s hr⟩

/-- The second thread polls for the first, which has exited and waits for the main program to
reap it; the main program waits for the second. -/
theorem deadlock_reached : ∃ s, Reachable (Step pool) (initial 1 (.main,[]) fun _ => 0) s ∧
    s.Deadlocked {1,3} := by
  obtain ⟨s,hs,hv⟩ := System.run_any pool (initial 1 (.main,[]) fun _ => 0)
    [(1,.atomicBegin),(1,.atomicEnd),(1,.fork 2),(2,.atomicBegin),(2,.atomicEnd),
      (2,.exit),(1,.atomicBegin),(1,.atomicEnd),(1,.fork 3),(3,.atomicBegin),(3,.fault),
      (3,.fault),(3,.store 0),(3,.atomicEnd),(1,.atomicBegin),(1,.atomicEnd),(1,.join)]
    (fun s => ((s.procs 1).any fun p => p.waitsFor = some 3) &&
      ((s.procs 2).any fun p => p.parent = 1) &&
      ((s.procs 3).any fun p => p.waitsFor = some 2 && p.parent = 1) &&
      (s.waitExited 1 3).isNone && (s.waitExited 3 2).isNone) (by decide +kernel)
  simp only [Bool.and_eq_true,decide_eq_true_eq,Option.any_eq_true,
    Option.isNone_iff_eq_none] at hv
  obtain ⟨⟨⟨⟨⟨p,hp,hpw⟩,q,hq,hqp⟩,r,hr,hrw,hrp⟩,h13⟩,h32⟩ := hv
  refine ⟨s,hs,⟨1,.inl rfl⟩,?_⟩
  intro pid hpid
  obtain rfl | rfl := hpid
  · exact ⟨p,3,r,hp,hpw,hr,h13,.inl ⟨hrp,.inr rfl⟩⟩
  · exact ⟨r,2,q,hr,hrw,hq,h32,.inr ⟨by omega,.inr (.inl hqp)⟩⟩

end GThread
