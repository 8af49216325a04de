import Mathlib.Data.Set.Basic
import Mathlib.Logic.Function.Basic
import Mathlib.Logic.Relation

/-! Code that loads from and stores to a memory, run alone: its accesses, the frame rule,
and the serial execution of a list of such pieces of code. -/
namespace Replay
variable {α β σ : Type*}

inductive Access (α β : Type*) where
  | load (a : α) (b : β)
  | store (a : α) (b : β)
  deriving DecidableEq

def Access.addr : Access α β → α
  | .load a _ | .store a _ => a

/-- What code at a local state does next: touch the memory, or leave it alone. -/
inductive Op (α β σ : Type*) where
  | load (a : α) (k : β → σ)
  | store (a : α) (b : β) (k : σ)
  | leave

variable [DecidableEq α]

/-- `Exec op s m l t g`: alone from local state `s` on memory `m` the code makes the
accesses `l`, the latest first, and stands at `t` with memory `g`. -/
inductive Exec (op : σ → Op α β σ) (s : σ) (m : α → β) :
    List (Access α β) → σ → (α → β) → Prop where
  | nil : Exec op s m [] s m
  | load {l t g a k} : Exec op s m l t g → op t = .load a k →
      Exec op s m (.load a (g a) :: l) (k (g a)) g
  | store {l t g a b k} : Exec op s m l t g → op t = .store a b k →
      Exec op s m (.store a b :: l) k (Function.update g a b)

variable {op : σ → Op α β σ}

theorem Exec.nil_inv {s t : σ} {m g : α → β} (h : Exec op s m [] t g) : t = s ∧ g = m := by
  cases h
  exact ⟨rfl,rfl⟩

/-- The frame rule: code that stays inside `A` only depends on the memory inside `A`,
and leaves the memory outside as it was. -/
theorem Exec.frame {A : Set α} {s t : σ} {m m' g : α → β} {l : List (Access α β)}
    (h : Exec op s m l t g) (inside : ∀ x ∈ l, x.addr ∈ A) (agree : ∀ a ∈ A, m' a = m a) :
    ∃ g', Exec op s m' l t g' ∧ (∀ a ∈ A, g' a = g a) ∧ ∀ a ∉ A, g' a = m' a := by
  induction h with
  | nil => exact ⟨m',.nil,agree,fun _ _ => rfl⟩
  | @load l t g a k hl ho ih =>
    obtain ⟨g',he,hin,hout⟩ := ih fun x hx => inside x (List.mem_cons_of_mem _ hx)
    have ha : g' a = g a := hin a (inside _ List.mem_cons_self)
    exact ⟨g',ha ▸ he.load ho,hin,hout⟩
  | @store l t g a b k hl ho ih =>
    obtain ⟨g',he,hin,hout⟩ := ih fun x hx => inside x (List.mem_cons_of_mem _ hx)
    have ha : a ∈ A := inside _ List.mem_cons_self
    refine ⟨_,he.store ho,?_,?_⟩
    · intro c hc
      by_cases hca : c = a
      · subst c; simp
      · simp [hca,hin c hc]
    · intro c hc
      have hca : c ≠ a := fun h => hc (h ▸ ha)
      simp [hca,hout c hc]

theorem Exec.unstored {s t : σ} {m g : α → β} {l : List (Access α β)} (h : Exec op s m l t g)
    {a : α} (ha : ∀ b, .store a b ∉ l) : g a = m a := by
  induction h with
  | nil => rfl
  | load _ _ ih => exact ih fun b hb => ha b (List.mem_cons_of_mem _ hb)
  | @store l t g c b k _ _ ih =>
    have hne : a ≠ c := fun h => ha b (h ▸ List.mem_cons_self)
    rw [Function.update_of_ne hne]
    exact ih fun b hb => ha b (List.mem_cons_of_mem _ hb)

theorem Exec.unique {s t t' : σ} {m g g' : α → β} {l : List (Access α β)}
    (h : Exec op s m l t g) (h' : Exec op s m l t' g') : t = t' ∧ g = g' := by
  induction h generalizing t' g' with
  | nil => exact ⟨h'.nil_inv.1.symm,h'.nil_inv.2.symm⟩
  | load hl ho ih =>
    generalize hx : Access.load _ _ = x at h'
    cases h' with
    | load hl' ho' =>
      obtain ⟨rfl,rfl⟩ := ih hl'
      cases hx
      cases ho.symm.trans ho'
      exact ⟨rfl,rfl⟩
    | store => cases hx
  | store hl ho ih =>
    cases h' with
    | store hl' ho' =>
      obtain ⟨rfl,rfl⟩ := ih hl'
      cases ho.symm.trans ho'
      exact ⟨rfl,rfl⟩

/-- The accesses `l`, the latest first, as code makes them from `s` to `t` when nothing is
known of the memory that answers its loads. -/
inductive Path (op : σ → Op α β σ) (s : σ) : List (Access α β) → σ → Prop where
  | nil : Path op s [] s
  | load {l t a b k} : Path op s l t → op t = .load a k → Path op s (.load a b :: l) (k b)
  | store {l t a b k} : Path op s l t → op t = .store a b k → Path op s (.store a b :: l) k

structure Span (α β σ : Type*) where
  start : σ
  log : List (Access α β)
  stop : σ

/-- `Serial op m l g`: the pieces of `l`, the latest first, run one after another from
memory `m`; each makes exactly its own accesses, with the values it loaded, up to the end
of its piece, and the last one leaves memory `g`. -/
inductive Serial (op : σ → Op α β σ) (m : α → β) : List (Span α β σ) → (α → β) → Prop where
  | nil : Serial op m [] m
  | cons {x l g g'} : Serial op m l g → Exec op x.start g x.log x.stop g' →
      op x.stop = .leave → Serial op m (x :: l) g'

theorem Serial.unique {m g g' : α → β} {l : List (Span α β σ)}
    (h : Serial op m l g) (h' : Serial op m l g') : g = g' := by
  induction h generalizing g' with
  | nil => cases h'; rfl
  | cons _ he _ ih =>
    cases h' with
    | cons hs he' _ =>
      obtain rfl := ih hs
      exact (he.unique he').2

def Moves (op : σ → Op α β σ) (x y : σ × (α → β)) : Prop :=
  match op x.1 with
  | .load a k => y = (k (x.2 a),x.2)
  | .store a b k => y = (k,Function.update x.2 a b)
  | .leave => False

theorem Moves.load {s t : σ} {m : α → β} {a : α} {k : β → σ} (h : op s = .load a k)
    (ht : t = k (m a)) : Moves op (s,m) (t,m) := by
  simp [Moves,h,ht]

theorem Moves.store {s t k : σ} {m g : α → β} {a : α} {b : β} (h : op s = .store a b k)
    (ht : t = k) (hg : g = Function.update m a b) : Moves op (s,m) (t,g) := by
  simp [Moves,h,ht,hg]

theorem Moves.unique : Relator.RightUnique (Moves op) := by
  intro x y z hy hz
  unfold Moves at hy hz
  split at hy <;> simp_all

theorem Exec.runs {s t : σ} {m g : α → β} {l : List (Access α β)} (h : Exec op s m l t g) :
    Relation.ReflTransGen (Moves op) (s,m) (t,g) := by
  induction h with
  | nil => exact .refl
  | load _ ho ih => exact ih.tail (.load ho rfl)
  | store _ ho ih => exact ih.tail (.store ho rfl rfl)

theorem exists_exec {x y : σ × (α → β)} (h : Relation.ReflTransGen (Moves op) x y) :
    ∃ l, Exec op x.1 x.2 l y.1 y.2 := by
  induction h with
  | refl => exact ⟨[],.nil⟩
  | @tail y z _ hmove ih =>
    obtain ⟨l,he⟩ := ih
    unfold Moves at hmove
    split at hmove
    · subst hmove
      exact ⟨_,he.load ‹_›⟩
    · subst hmove
      exact ⟨_,he.store ‹_›⟩
    · exact hmove.elim

theorem runs_unique {x y z : σ × (α → β)} (hy : Relation.ReflTransGen (Moves op) x y)
    (hz : Relation.ReflTransGen (Moves op) x z) (hyl : op y.1 = .leave) (hzl : op z.1 = .leave) :
    y = z := by
  have stuck {v w : σ × (α → β)} (hv : op v.1 = .leave)
      (h : Relation.ReflTransGen (Moves op) v w) : v = w := by
    obtain rfl | ⟨u,hu,-⟩ := h.cases_head
    · rfl
    · simp [Moves,hv] at hu
  obtain h | h := Relation.ReflTransGen.total_of_right_unique Moves.unique hy hz
  · exact stuck hyl h
  · exact (stuck hzl h).symm

end Replay
