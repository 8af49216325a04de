import GThread.Family

/-! The fork tree of the ordered build, without the states of its processes. A child goes
just before its parent in the order, takes over the parent's `predecessor_`, and becomes it.
The invariants say where that puts every process; positions make them arithmetic. -/
namespace GThread
open Replay Transition Insertion
variable {σ : Type}

structure Kin where
  parent : Nat
  predecessor : Nat
  elder : Nat

structure Tree where
  kin : Nat → Option Kin
  order : List Nat

def Tree.pos (t : Tree) (q : Nat) : Nat := (0 :: t.order).idxOf q

def Tree.root (root : Nat) : Tree :=
  ⟨Function.update (fun _ => none) root (some ⟨0,0,0⟩),[root]⟩

def Tree.fork (t : Tree) (pid child : Nat) (k : Kin) : Tree where
  kin := Function.update (Function.update t.kin pid (some { k with predecessor := child })) child
    (some ⟨pid,k.predecessor,k.predecessor⟩)
  order := insertBefore pid child t.order

/-- Every process knows its left neighbour, comes after its elder and before its parent; the
stretch from its elder to it holds it, its descendants, and the stretches of those. -/
structure Tree.Ordered (t : Tree) : Prop where
  nodup : (0 :: t.order).Nodup
  mem : ∀ q, q ∈ t.order ↔ ∃ k, t.kin q = some k
  neighbour : ∀ q k, t.kin q = some k → t.pos q = t.pos k.predecessor + 1
  elder : ∀ q k, t.kin q = some k → t.pos k.elder < t.pos q
  parent : ∀ q k, t.kin q = some k →
    k.parent = 0 ∨ (∃ r, t.kin k.parent = some r) ∧ t.pos q < t.pos k.parent
  child : ∀ q k c kc, t.kin q = some k → t.kin c = some kc → kc.parent = q →
    ∃ r, t.kin k.predecessor = some r ∧ r.parent = q
  sibling : ∀ a ka b kb, t.kin a = some ka → t.kin b = some kb → ka.parent = kb.parent →
    t.pos a < t.pos b → ∃ ke, t.kin kb.elder = some ke ∧ ke.parent = kb.parent
  up : ∀ z kz x kx, t.kin z = some kz → t.kin x = some kx → t.pos kz.elder < t.pos x →
    t.pos x < t.pos z → t.pos kx.parent ≤ t.pos z
  laminar : ∀ z kz x kx, t.kin z = some kz → t.kin x = some kx → t.pos kz.elder < t.pos x →
    t.pos x < t.pos z → t.pos kz.elder ≤ t.pos kx.elder
  inside : ∀ x kx c kc, t.kin x = some kx → t.kin c = some kc → kc.parent = x →
    t.pos kx.elder ≤ t.pos kc.elder

theorem Tree.pos_zero (t : Tree) : t.pos 0 = 0 := by simp [Tree.pos]

theorem Tree.mem_of_pos_lt {t : Tree} {q r : Nat} (hr : r ∈ t.order)
    (h : t.pos q < t.pos r) : q = 0 ∨ q ∈ t.order := by
  have hlt : t.pos r < (0 :: t.order).length := List.idxOf_lt_length_of_mem (.tail _ hr)
  have := List.idxOf_lt_length_iff.mp (h.trans hlt)
  simpa using this

theorem Tree.pos_inj {t : Tree} {q r : Nat} (hq : q = 0 ∨ q ∈ t.order) (h : t.pos q = t.pos r) :
    q = r := by
  have hq : q ∈ 0 :: t.order := by simpa using hq
  exact (List.idxOf_inj hq).mp h

theorem Tree.Ordered.present {t : Tree} (h : t.Ordered) {q : Nat} {k : Kin}
    (hk : t.kin q = some k) : q ∈ t.order := (h.mem q).mpr ⟨k,hk⟩

theorem Tree.Ordered.ne_zero {t : Tree} (h : t.Ordered) {q : Nat} {k : Kin}
    (hk : t.kin q = some k) : q ≠ 0 := by
  intro heq
  subst heq
  exact (List.nodup_cons.mp h.nodup).1 (h.present hk)

theorem Tree.ordered_root {root : Nat} (h : root ≠ 0) : (Tree.root root).Ordered := by
  have hkin : ∀ q k, (Tree.root root).kin q = some k → q = root ∧ k = ⟨0,0,0⟩ := by
    intro q k hk
    by_cases hq : q = root
    · subst q
      simp only [Tree.root,Function.update_self,Option.some.injEq] at hk
      exact ⟨rfl,hk.symm⟩
    · simp [Tree.root,hq] at hk
  have hpos : (Tree.root root).pos root = 1 := by
    simp [Tree.pos,Tree.root,Ne.symm h]
  have hzero : (Tree.root root).pos 0 = 0 := Tree.pos_zero _
  refine ⟨?_,?_,?_,?_,?_,?_,?_,?_,?_,?_⟩
  · simpa [Tree.root] using Ne.symm h
  · intro q
    simp only [Tree.root,List.mem_singleton]
    constructor
    · intro heq
      subst heq
      exact ⟨_,Function.update_self ..⟩
    · intro hex
      obtain ⟨k,hk⟩ := hex
      exact (hkin q k hk).1
  · intro q k hk
    obtain ⟨rfl,rfl⟩ := hkin q k hk
    rw [hpos,hzero]
  · intro q k hk
    obtain ⟨rfl,rfl⟩ := hkin q k hk
    rw [hpos,hzero]; omega
  · intro q k hk
    exact .inl (by rw [(hkin q k hk).2])
  · intro q k c kc hq hc hp
    obtain ⟨rfl,rfl⟩ := hkin q k hq
    obtain ⟨rfl,rfl⟩ := hkin c kc hc
    exact absurd hp.symm h
  · intro a ka b kb ha hb _ hlt
    obtain ⟨rfl,rfl⟩ := hkin a ka ha
    obtain ⟨rfl,rfl⟩ := hkin b kb hb
    omega
  · intro z kz x kx hz hx _ hlt
    obtain ⟨rfl,rfl⟩ := hkin z kz hz
    obtain ⟨rfl,rfl⟩ := hkin x kx hx
    omega
  · intro z kz x kx hz hx _ hlt
    obtain ⟨rfl,rfl⟩ := hkin z kz hz
    obtain ⟨rfl,rfl⟩ := hkin x kx hx
    omega
  · intro x kx c kc hx hc _
    obtain ⟨rfl,rfl⟩ := hkin x kx hx
    obtain ⟨rfl,rfl⟩ := hkin c kc hc
    omega

theorem Tree.Ordered.fresh {t : Tree} (h : t.Ordered) {child : Nat} (hc : child ≠ 0)
    (hn : t.kin child = none) : child ∉ 0 :: t.order := by
  intro hmem
  obtain ⟨r,hr⟩ := (h.mem child).mp ((List.mem_cons.mp hmem).resolve_left hc)
  cases hn.symm.trans hr

theorem Tree.Ordered.fork_pos_child {t : Tree} (h : t.Ordered) {pid child : Nat} {k : Kin}
    (hk : t.kin pid = some k) (hc : child ≠ 0) (hn : t.kin child = none) :
    (t.fork pid child k).pos child = t.pos pid := by
  have hcons : 0 :: insertBefore pid child t.order = insertBefore pid child (0 :: t.order) := by
    rw [insertBefore,if_neg (Ne.symm (h.ne_zero hk))]
  rw [Tree.pos,Tree.fork,hcons,idxOf_insertBefore_self (.tail _ (h.present hk)) (h.fresh hc hn)]
  rfl

theorem Tree.Ordered.fork_pos {t : Tree} (h : t.Ordered) {pid child : Nat} {k : Kin}
    (hk : t.kin pid = some k) {q : Nat} (hq : q ≠ child) : (t.fork pid child k).pos q =
      if t.pos q < t.pos pid then t.pos q else t.pos q + 1 := by
  have hcons : 0 :: insertBefore pid child t.order = insertBefore pid child (0 :: t.order) := by
    rw [insertBefore,if_neg (Ne.symm (h.ne_zero hk))]
  rw [Tree.pos,Tree.fork,hcons,idxOf_insertBefore (.tail _ (h.present hk)) hq]
  rfl

theorem Tree.fork_kin {t : Tree} {pid child q : Nat} {k kq : Kin} (hk : t.kin pid = some k)
    (hq : (t.fork pid child k).kin q = some kq) :
    q = child ∧ kq = ⟨pid,k.predecessor,k.predecessor⟩ ∨
    q ≠ child ∧ ∃ k₀, t.kin q = some k₀ ∧ kq.parent = k₀.parent ∧ kq.elder = k₀.elder ∧
      kq.predecessor = if q = pid then child else k₀.predecessor := by
  by_cases hqc : q = child
  · subst q
    simp only [Tree.fork,Function.update_self,Option.some.injEq] at hq
    exact .inl ⟨rfl,hq.symm⟩
  · refine .inr ⟨hqc,?_⟩
    by_cases hqp : q = pid
    · subst q
      simp only [Tree.fork,Function.update_of_ne hqc,Function.update_self,
        Option.some.injEq] at hq
      subst kq
      exact ⟨k,hk,rfl,rfl,by simp⟩
    · simp only [Tree.fork,Function.update_of_ne hqc,Function.update_of_ne hqp] at hq
      exact ⟨kq,hq,rfl,rfl,by simp [hqp]⟩

abbrev Tree.Known (t : Tree) (q : Nat) : Prop := q = 0 ∨ q ∈ t.order

theorem Tree.Ordered.known {t : Tree} (h : t.Ordered) {q : Nat} {kq : Kin}
    (hq : t.kin q = some kq) : t.Known q := .inr (h.present hq)

theorem Tree.Ordered.known_elder {t : Tree} (h : t.Ordered) {q : Nat} {kq : Kin}
    (hq : t.kin q = some kq) : t.Known kq.elder :=
  Tree.mem_of_pos_lt (h.present hq) (h.elder q kq hq)

theorem Tree.Ordered.known_predecessor {t : Tree} (h : t.Ordered) {q : Nat} {kq : Kin}
    (hq : t.kin q = some kq) : t.Known kq.predecessor := by
  have hleft := h.neighbour q kq hq
  exact Tree.mem_of_pos_lt (h.present hq) (by omega)

theorem Tree.Ordered.known_parent {t : Tree} (h : t.Ordered) {q : Nat} {kq : Kin}
    (hq : t.kin q = some kq) : t.Known kq.parent :=
  (h.parent q kq hq).imp_right fun hp => (h.mem _).mpr hp.1

section Fork
variable {t : Tree} {pid child : Nat} {k : Kin} (h : t.Ordered) (hk : t.kin pid = some k)
  (hc : child ≠ 0) (hn : t.kin child = none)
include h hk hc hn

theorem Tree.Ordered.fork_pos_known {q : Nat} (hq : t.Known q) : (t.fork pid child k).pos q =
    if t.pos q < t.pos pid then t.pos q else t.pos q + 1 := by
  refine h.fork_pos hk fun hqc => ?_
  subst q
  exact h.fresh hc hn (List.mem_cons.mpr hq)

theorem Tree.Ordered.fork_lt {q r : Nat} (hq : t.Known q) (hr : t.Known r) :
    (t.fork pid child k).pos q < (t.fork pid child k).pos r ↔ t.pos q < t.pos r := by
  rw [h.fork_pos_known hk hc hn hq,h.fork_pos_known hk hc hn hr]
  split <;> split <;> omega

theorem Tree.Ordered.fork_le {q r : Nat} (hq : t.Known q) (hr : t.Known r) :
    (t.fork pid child k).pos q ≤ (t.fork pid child k).pos r ↔ t.pos q ≤ t.pos r := by
  rw [h.fork_pos_known hk hc hn hq,h.fork_pos_known hk hc hn hr]
  split <;> split <;> omega

theorem Tree.Ordered.fork_lt_child {q : Nat} (hq : t.Known q) :
    (t.fork pid child k).pos q < (t.fork pid child k).pos child ↔ t.pos q < t.pos pid := by
  rw [h.fork_pos_known hk hc hn hq,h.fork_pos_child hk hc hn]
  split <;> omega

theorem Tree.Ordered.fork_child_lt {q : Nat} (hq : t.Known q) :
    (t.fork pid child k).pos child < (t.fork pid child k).pos q ↔ t.pos pid ≤ t.pos q := by
  rw [h.fork_pos_known hk hc hn hq,h.fork_pos_child hk hc hn]
  split <;> omega

omit h hc in
theorem Tree.fork_keeps {q : Nat} {kq : Kin} (hq : t.kin q = some kq) :
    ∃ k', (t.fork pid child k).kin q = some k' ∧ k'.parent = kq.parent := by
  have hqc : q ≠ child := Processes.ne_of_none hq hn
  by_cases hqp : q = pid
  · subst q
    cases hk.symm.trans hq
    exact ⟨{ k with predecessor := child },by simp [Tree.fork,hqc],rfl⟩
  · exact ⟨kq,by simp [Tree.fork,hqc,hqp,hq],rfl⟩

theorem Tree.Ordered.fork_childless {c : Nat} {kc : Kin}
    (hkc : (t.fork pid child k).kin c = some kc) : kc.parent ≠ child := by
  intro hp
  obtain ⟨rfl,rfl⟩ | ⟨-,k₀,hc₀,hpar,-⟩ := Tree.fork_kin hk hkc
  · obtain rfl : pid = c := hp
    cases hn.symm.trans hk
  · rw [hpar] at hp
    exact h.fresh hc hn (List.mem_cons.mpr (hp ▸ h.known_parent hc₀))

omit hc in
theorem Tree.Ordered.fork_mem (q : Nat) :
    q ∈ (t.fork pid child k).order ↔ ∃ kq, (t.fork pid child k).kin q = some kq := by
  have hins := mem_insertBefore (c := child) (h.present hk) q
  constructor
  · intro hq
    obtain rfl | hq := hins.mp hq
    · exact ⟨_,by simp [Tree.fork]; rfl⟩
    · obtain ⟨kq,hkq⟩ := (h.mem q).mp hq
      obtain ⟨k',hk',-⟩ := Tree.fork_keeps hk hn hkq
      exact ⟨k',hk'⟩
  · intro hkin
    obtain ⟨kq,hkq⟩ := hkin
    refine hins.mpr ?_
    obtain ⟨rfl,-⟩ | ⟨-,k₀,hq₀,-⟩ := Tree.fork_kin hk hkq
    · exact .inl rfl
    · exact .inr (h.present hq₀)

theorem Tree.Ordered.fork_neighbour {q : Nat} {kq : Kin}
    (hq : (t.fork pid child k).kin q = some kq) :
    (t.fork pid child k).pos q = (t.fork pid child k).pos kq.predecessor + 1 := by
  have hleft := h.neighbour pid k hk
  have hnew := h.fork_pos_child hk hc hn
  obtain ⟨rfl,rfl⟩ | ⟨hqc,k₀,hq₀,-,-,hpre⟩ := Tree.fork_kin hk hq
  · rw [hnew,h.fork_pos_known hk hc hn (h.known_predecessor hk),if_pos (by omega)]
    exact hleft
  · rw [hpre]
    split
    · rename_i hqp
      subst q
      rw [hnew,h.fork_pos_known hk hc hn (h.known hk),if_neg (lt_irrefl _)]
    · rename_i hqp
      have hnb := h.neighbour q k₀ hq₀
      have hne : t.pos q ≠ t.pos pid := fun he => hqp (Tree.pos_inj (h.known hq₀) he)
      rw [h.fork_pos_known hk hc hn (h.known hq₀),
        h.fork_pos_known hk hc hn (h.known_predecessor hq₀)]
      split <;> split <;> omega

theorem Tree.Ordered.fork_elder {q : Nat} {kq : Kin}
    (hq : (t.fork pid child k).kin q = some kq) :
    (t.fork pid child k).pos kq.elder < (t.fork pid child k).pos q := by
  obtain ⟨rfl,rfl⟩ | ⟨hqc,k₀,hq₀,-,he,-⟩ := Tree.fork_kin hk hq
  · rw [h.fork_lt_child hk hc hn (h.known_predecessor hk)]
    have hleft := h.neighbour pid k hk
    omega
  · rw [he,h.fork_lt hk hc hn (h.known_elder hq₀) (h.known hq₀)]
    exact h.elder q k₀ hq₀

theorem Tree.Ordered.fork_parent {q : Nat} {kq : Kin}
    (hq : (t.fork pid child k).kin q = some kq) :
    kq.parent = 0 ∨ (∃ r, (t.fork pid child k).kin kq.parent = some r) ∧
      (t.fork pid child k).pos q < (t.fork pid child k).pos kq.parent := by
  obtain ⟨rfl,rfl⟩ | ⟨hqc,k₀,hq₀,hpar,-⟩ := Tree.fork_kin hk hq
  · obtain ⟨k',hk',-⟩ := Tree.fork_keeps hk hn hk
    exact .inr ⟨⟨k',hk'⟩,(h.fork_child_lt hk hc hn (h.known hk)).mpr le_rfl⟩
  · rw [hpar]
    refine (h.parent q k₀ hq₀).imp_right fun hup => ?_
    obtain ⟨⟨r,hr⟩,hlt⟩ := hup
    obtain ⟨k',hk',-⟩ := Tree.fork_keeps hk hn hr
    exact ⟨⟨k',hk'⟩,(h.fork_lt hk hc hn (h.known hq₀) (h.known hr)).mpr hlt⟩

theorem Tree.Ordered.fork_child {q c : Nat} {kq kc : Kin}
    (hq : (t.fork pid child k).kin q = some kq) (hkc : (t.fork pid child k).kin c = some kc)
    (hp : kc.parent = q) :
    ∃ r, (t.fork pid child k).kin kq.predecessor = some r ∧ r.parent = q := by
  obtain ⟨rfl,rfl⟩ | ⟨hqc,k₀,hq₀,-,-,hpre⟩ := Tree.fork_kin hk hq
  · exact absurd hp (h.fork_childless hk hc hn hkc)
  · rw [hpre]
    split
    · rename_i hqp
      exact ⟨_,by simp [Tree.fork]; rfl,hqp.symm⟩
    · rename_i hqp
      obtain ⟨rfl,rfl⟩ | ⟨-,c₀,hc₀,hpar,-⟩ := Tree.fork_kin hk hkc
      · exact absurd hp.symm hqp
      · obtain ⟨r,hr,hrp⟩ := h.child q k₀ c c₀ hq₀ hc₀ (hpar ▸ hp)
        obtain ⟨k',hk',hkp⟩ := Tree.fork_keeps hk hn hr
        exact ⟨k',hk',hkp.trans hrp⟩

theorem Tree.Ordered.fork_sibling {a b : Nat} {ka kb : Kin}
    (ha : (t.fork pid child k).kin a = some ka) (hb : (t.fork pid child k).kin b = some kb)
    (hp : ka.parent = kb.parent)
    (hlt : (t.fork pid child k).pos a < (t.fork pid child k).pos b) :
    ∃ ke, (t.fork pid child k).kin kb.elder = some ke ∧ ke.parent = kb.parent := by
  obtain ⟨rfl,rfl⟩ | ⟨-,b₀,hb₀,hbp,hbe,-⟩ := Tree.fork_kin hk hb
  · obtain ⟨rfl,-⟩ | ⟨-,a₀,ha₀,hap,-⟩ := Tree.fork_kin hk ha
    · omega
    · obtain ⟨r,hr,hrp⟩ := h.child pid k a a₀ hk ha₀ (hap ▸ hp)
      obtain ⟨k',hk',hkp⟩ := Tree.fork_keeps hk hn hr
      exact ⟨k',hk',hkp.trans hrp⟩
  · obtain ⟨rfl,rfl⟩ | ⟨-,a₀,ha₀,hap,-⟩ := Tree.fork_kin hk ha
    · have hle := (h.fork_child_lt hk hc hn (h.known hb₀)).mp hlt
      have hpid : b₀.parent = pid := hbp ▸ hp.symm
      obtain h0 | ⟨-,hlt'⟩ := h.parent b b₀ hb₀
      · exact absurd (hpid.symm.trans h0) (h.ne_zero hk)
      · rw [hpid] at hlt'
        omega
    · obtain ⟨ke,hke,hkp⟩ := h.sibling a a₀ b b₀ ha₀ hb₀ (by rw [← hap,← hbp,hp])
        ((h.fork_lt hk hc hn (h.known ha₀) (h.known hb₀)).mp hlt)
      obtain ⟨k',hk',hkp'⟩ := Tree.fork_keeps hk hn hke
      exact ⟨k',hbe ▸ hk',by rw [hkp',hkp,hbp]⟩

theorem Tree.Ordered.fork_gap {x : Nat} (hx : t.Known x)
    (hlo : (t.fork pid child k).pos k.predecessor < (t.fork pid child k).pos x) :
    ¬ (t.fork pid child k).pos x < (t.fork pid child k).pos child := by
  intro hhi
  have h1 := (h.fork_lt hk hc hn (h.known_predecessor hk) hx).mp hlo
  have h2 := (h.fork_lt_child hk hc hn hx).mp hhi
  have hleft := h.neighbour pid k hk
  omega

theorem Tree.Ordered.fork_up {z x : Nat} {kz kx : Kin}
    (hz : (t.fork pid child k).kin z = some kz) (hx : (t.fork pid child k).kin x = some kx)
    (hlo : (t.fork pid child k).pos kz.elder < (t.fork pid child k).pos x)
    (hhi : (t.fork pid child k).pos x < (t.fork pid child k).pos z) :
    (t.fork pid child k).pos kx.parent ≤ (t.fork pid child k).pos z := by
  obtain ⟨rfl,rfl⟩ | ⟨-,z₀,hz₀,-,hze,-⟩ := Tree.fork_kin hk hz
  · obtain ⟨rfl,-⟩ | ⟨-,x₀,hx₀,-⟩ := Tree.fork_kin hk hx
    · omega
    · exact absurd hhi (h.fork_gap hk hc hn (h.known hx₀) hlo)
  · obtain ⟨rfl,rfl⟩ | ⟨-,x₀,hx₀,hxp,-⟩ := Tree.fork_kin hk hx
    · exact (h.fork_le hk hc hn (h.known hk) (h.known hz₀)).mpr
        ((h.fork_child_lt hk hc hn (h.known hz₀)).mp hhi)
    · rw [hze] at hlo
      rw [hxp,h.fork_le hk hc hn (h.known_parent hx₀) (h.known hz₀)]
      exact h.up z z₀ x x₀ hz₀ hx₀
        ((h.fork_lt hk hc hn (h.known_elder hz₀) (h.known hx₀)).mp hlo)
        ((h.fork_lt hk hc hn (h.known hx₀) (h.known hz₀)).mp hhi)

theorem Tree.Ordered.fork_laminar {z x : Nat} {kz kx : Kin}
    (hz : (t.fork pid child k).kin z = some kz) (hx : (t.fork pid child k).kin x = some kx)
    (hlo : (t.fork pid child k).pos kz.elder < (t.fork pid child k).pos x)
    (hhi : (t.fork pid child k).pos x < (t.fork pid child k).pos z) :
    (t.fork pid child k).pos kz.elder ≤ (t.fork pid child k).pos kx.elder := by
  obtain ⟨rfl,rfl⟩ | ⟨-,z₀,hz₀,-,hze,-⟩ := Tree.fork_kin hk hz
  · obtain ⟨rfl,-⟩ | ⟨-,x₀,hx₀,-⟩ := Tree.fork_kin hk hx
    · omega
    · exact absurd hhi (h.fork_gap hk hc hn (h.known hx₀) hlo)
  · rw [hze] at hlo ⊢
    obtain ⟨rfl,rfl⟩ | ⟨-,x₀,hx₀,-,hxe,-⟩ := Tree.fork_kin hk hx
    · have hbelow := (h.fork_lt_child hk hc hn (h.known_elder hz₀)).mp hlo
      have hleft := h.neighbour pid k hk
      exact (h.fork_le hk hc hn (h.known_elder hz₀) (h.known_predecessor hk)).mpr (by omega)
    · rw [hxe,h.fork_le hk hc hn (h.known_elder hz₀) (h.known_elder hx₀)]
      exact h.laminar z z₀ x x₀ hz₀ hx₀
        ((h.fork_lt hk hc hn (h.known_elder hz₀) (h.known hx₀)).mp hlo)
        ((h.fork_lt hk hc hn (h.known hx₀) (h.known hz₀)).mp hhi)

theorem Tree.Ordered.fork_inside {x c : Nat} {kx kc : Kin}
    (hx : (t.fork pid child k).kin x = some kx) (hkc : (t.fork pid child k).kin c = some kc)
    (hp : kc.parent = x) :
    (t.fork pid child k).pos kx.elder ≤ (t.fork pid child k).pos kc.elder := by
  obtain ⟨rfl,rfl⟩ | ⟨-,x₀,hx₀,-,hxe,-⟩ := Tree.fork_kin hk hx
  · exact absurd hp (h.fork_childless hk hc hn hkc)
  · rw [hxe]
    obtain ⟨rfl,rfl⟩ | ⟨-,c₀,hc₀,hcp,hce,-⟩ := Tree.fork_kin hk hkc
    · obtain rfl : pid = x := hp
      cases hk.symm.trans hx₀
      have helder := h.elder pid k hk
      have hleft := h.neighbour pid k hk
      exact (h.fork_le hk hc hn (h.known_elder hk) (h.known_predecessor hk)).mpr (by omega)
    · rw [hce,h.fork_le hk hc hn (h.known_elder hx₀) (h.known_elder hc₀)]
      exact h.inside x x₀ c c₀ hx₀ hc₀ (hcp ▸ hp)

theorem Tree.Ordered.fork : (t.fork pid child k).Ordered where
  nodup := by
    have hnd := nodup_insertBefore (b := pid) (h.fresh hc hn) h.nodup
    rwa [insertBefore,if_neg (Ne.symm (h.ne_zero hk))] at hnd
  mem := h.fork_mem hk hn
  neighbour _ _ := h.fork_neighbour hk hc hn
  elder _ _ := h.fork_elder hk hc hn
  parent _ _ := h.fork_parent hk hc hn
  child _ _ _ _ := h.fork_child hk hc hn
  sibling _ _ _ _ := h.fork_sibling hk hc hn
  up _ _ _ _ := h.fork_up hk hc hn
  laminar _ _ _ _ := h.fork_laminar hk hc hn
  inside _ _ _ _ := h.fork_inside hk hc hn
end Fork

def Proc.kin (p : Proc σ) : Kin := ⟨p.parent,p.predecessor,p.elder⟩

def State.tree (s : State σ) : Tree := ⟨fun q => (s.procs q).map Proc.kin,s.order⟩

theorem tree_kin {s : State σ} {q : Nat} {p : Proc σ} (hp : s.procs q = some p) :
    s.tree.kin q = some p.kin := by simp [State.tree,hp]

theorem tree_kin_inv {s : State σ} {q : Nat} {k : Kin} (hk : s.tree.kin q = some k) :
    ∃ p, s.procs q = some p ∧ p.kin = k := Option.map_eq_some_iff.mp hk

theorem predecessor_exists {s : State σ} (ht : s.tree.Ordered) {q : Nat} {p : Proc σ}
    (hp : s.procs q = some p) : p.predecessor = 0 ∨ ∃ r, s.procs p.predecessor = some r := by
  have hn := ht.neighbour q p.kin (tree_kin hp)
  simp only [Proc.kin] at hn
  refine (Tree.mem_of_pos_lt (ht.present (tree_kin hp)) (q := p.predecessor)
    (by omega)).imp_right fun hmem => ?_
  obtain ⟨k,hk⟩ := (ht.mem _).mp hmem
  obtain ⟨r,hr,-⟩ := tree_kin_inv hk
  exact ⟨r,hr⟩

theorem tree_put {s s' : State σ} {pid : Nat} {r p : Proc σ} (hr : s.procs pid = some r)
    (procs : s'.procs = Function.update s.procs pid (some p)) (order : s'.order = s.order)
    (kin : p.kin = r.kin) : s'.tree = s.tree := by
  have hfun : (fun q => (s'.procs q).map Proc.kin) = fun q => (s.procs q).map Proc.kin := by
    funext q
    by_cases hq : q = pid
    · subst q; simp [procs,hr,kin]
    · simp [procs,hq]
  rw [State.tree,hfun,order,State.tree]

/-- The processes of the ordered build grow as the tree does: by forks, and by nothing else. -/
theorem tree_step {S : System σ} (horder : S.order = true) {s s' : State σ} {x : Nat × Act}
    (h : Step S s x s') : s'.tree = s.tree ∨ ∃ pid child p, x = (pid,.fork child) ∧
      s.procs pid = some p ∧ child ≠ 0 ∧ s.procs child = none ∧
      s'.tree = s.tree.fork pid child p.kin := by
  cases h with
  | fork hp hpc hf hc hn =>
    refine .inr ⟨_,_,_,rfl,hp,hc,hn,?_⟩
    simp only [State.tree,Tree.fork,System.forkChild,State.put,horder,if_true,Tree.mk.injEq,
      and_true]
    funext q
    simp only [Function.update_apply]
    split
    · rfl
    · split <;> rfl
  | waited hp _ hw | joined hp _ hw =>
    obtain ⟨rfl,-⟩ | ⟨rfl,-⟩ := waitExited_spec hw <;> exact .inl (tree_put hp rfl rfl rfl)
  | memcpy | reap => exact .inl rfl
  | atomicEnd hp =>
    refine .inl (tree_put hp rfl rfl ?_)
    unfold Proc.atomicEnd
    split <;> rfl
  | atomicBegin hp | load hp | store hp | fault hp | killed hp | signaled hp | commit hp | reject hp
  | page hp | publish hp | unlock hp | abort hp | forkFailed hp | join hp | interrupted hp
  | exit hp =>
    exact .inl (tree_put hp rfl rfl rfl)

theorem ordered_reachable {S : System σ} (horder : S.order = true) {root : Nat}
    (hroot : root ≠ 0) {x : σ} {file : Heap} {s : State σ}
    (h : Reachable (Step S) (initial root x file) s) : s.tree.Ordered := by
  refine h.invariant (I := fun s => s.tree.Ordered) ?_ fun t a u ht hstep => ?_
  · have hinit : (initial root x file).tree = Tree.root root := by
      simp only [State.tree,initial,Tree.root,Tree.mk.injEq,and_true]
      funext q
      simp only [Function.update_apply]
      split <;> rfl
    rw [hinit]
    exact Tree.ordered_root hroot
  · obtain he | ⟨pid,child,p,-,hp,hc,hn,he⟩ := tree_step horder hstep
    · rw [he]; exact ht
    · rw [he]
      exact ht.fork (tree_kin hp) hc (by simp [State.tree,hn])

end GThread
