import GThread.BumpAllocator

/-! `realloc` of the malloc wrapper (`wrapper.hh`) over the bump allocator. The usable size of
every block is 0, so that the wrapper takes the old and the new block for equally large and
returns the old one. It can grow as long as no live block is in the way. -/
namespace GThread
open Transition

def xxfree (_ptr : Nat) (h : Subheaps) : Subheaps := h

def xxmallocUsableSize (_ptr : Nat) : Nat := 0

def customMalloc (pid sz : Nat) (h : Subheaps) : Nat × Subheaps :=
  if sz >>> (8 * 8 - 1) ≠ 0 then (0,h) else xxmalloc pid sz h

def copyBytes (dst src n : Nat) (mem : Heap) : Heap := fun a =>
  if dst ≤ a ∧ a < dst + n then mem (src + (a - dst)) else mem a

def customRealloc (pid ptr sz : Nat) (h : Subheaps) (mem : Heap) : Nat × Subheaps × Heap :=
  if ptr = 0 then ((customMalloc pid sz h).1,(customMalloc pid sz h).2,mem)
  else if sz = 0 then (0,xxfree ptr h,mem)
  else
    let objSize := xxmallocUsableSize ptr
    let (buf,h) := customMalloc pid sz h
    if buf ≠ 0 then
      if objSize = xxmallocUsableSize buf then (ptr,xxfree buf h,mem)
      else
        let minSize := if objSize < sz then objSize else sz
        (buf,xxfree ptr h,copyBytes buf ptr minSize mem)
    else (buf,xxfree ptr h,mem)

structure Chunk where
  addr : Nat
  size : Nat
  deriving DecidableEq

def Chunk.Apart (c d : Chunk) : Prop :=
  c.size ≠ 0 → d.size ≠ 0 → c.addr + c.size ≤ d.addr ∨ d.addr + d.size ≤ c.addr

instance (c d : Chunk) : Decidable (c.Apart d) := inferInstanceAs (Decidable (_ → _ → _))

/-- One process: its cursors, its memory, and the live blocks under the names its code has for
them. -/
structure Client where
  subheaps : Subheaps
  mem : Heap
  chunks : Nat → Option Chunk

inductive Client.Act where
  | malloc (i size : Nat)
  | realloc (i size : Nat)
  | free (i : Nat)
  | write (a : Nat) (b : Byte)

def Client.ptr (s : Client) (i : Nat) : Nat := (s.chunks i).elim 0 Chunk.addr

def Client.bind (s : Client) (i q size : Nat) : Client :=
  { s with chunks := Function.update s.chunks i (if q = 0 then none else some ⟨q,size⟩) }

/-- The subheap has space to spare for the request. -/
def Subheaps.Spare (L : Layout) (pid : Nat) (h : Subheaps) (size : Nat) : Prop :=
  h (subheapIndex pid) + size ≤ L.subheap (subheapIndex pid + 1)

instance (L : Layout) (pid : Nat) (h : Subheaps) (size : Nat) : Decidable (h.Spare L pid size) :=
  inferInstanceAs (Decidable (_ ≤ _))

inductive Client.Step (L : Layout) (pid : Nat) (s : Client) : Client.Act → Client → Prop where
  | malloc {i size} : s.chunks i = none → s.subheaps.Spare L pid size →
      Step L pid s (.malloc i size)
        ({ s with subheaps := (customMalloc pid size s.subheaps).2 }.bind i
          (customMalloc pid size s.subheaps).1 size)
  | realloc {i size} : s.subheaps.Spare L pid size →
      Step L pid s (.realloc i size)
        ({ s with
          subheaps := (customRealloc pid (s.ptr i) size s.subheaps s.mem).2.1
          mem := (customRealloc pid (s.ptr i) size s.subheaps s.mem).2.2 }.bind i
          (customRealloc pid (s.ptr i) size s.subheaps s.mem).1 size)
  | free {i c} : s.chunks i = some c →
      Step L pid s (.free i)
        { s with
          subheaps := xxfree c.addr s.subheaps
          chunks := Function.update s.chunks i none }
  | write {a b} : Step L pid s (.write a b) { s with mem := Function.update s.mem a b }

/-- Every other live block that starts at or after the block starts `size` bytes after it, and
where the block had no bytes so far, none that starts before it reaches past it. -/
def Client.Clear (s : Client) (i : Nat) (c : Chunk) (size : Nat) : Prop :=
  ∀ j d, j ≠ i → s.chunks j = some d → d.size ≠ 0 →
    (c.addr ≤ d.addr → c.addr + size ≤ d.addr) ∧
    (c.size = 0 → d.addr < c.addr → d.addr + d.size ≤ c.addr)

def Client.Roomy (s : Client) (x : Client.Act) : Prop :=
  ∀ i c size, x = .realloc i size → size ≠ 0 → s.chunks i = some c → s.Clear i c size

def Client.Disjoint (s : Client) : Prop :=
  ∀ i j c d, i ≠ j → s.chunks i = some c → s.chunks j = some d → c.Apart d

structure Client.Placed (L : Layout) (pid : Nat) (s : Client) : Prop where
  range : s.subheaps.InRange L
  below : ∀ i c, s.chunks i = some c → c.addr ≠ 0 ∧ c.addr + c.size ≤ s.subheaps (subheapIndex pid)
  apart : s.Disjoint

section Steps
variable {L : Layout} {pid size : Nat} {s s' : Client} {h : Subheaps}

theorem customMalloc_spec (hr : h.InRange L) (spare : h.Spare L pid size) :
    (customMalloc pid size h).1 = h (subheapIndex pid) ∧
      (customMalloc pid size h).2.InRange L ∧
      h (subheapIndex pid) + size ≤ (customMalloc pid size h).2 (subheapIndex pid) := by
  obtain ⟨-,hlo,-⟩ := hr (subheapIndex pid)
  obtain ⟨-,hnext,-⟩ := L.subheap_spec (subheapIndex pid).isLt
  have hsize : size < 2^63 := by
    simp only [Subheaps.Spare,subheapSize,heapSize,numSubheap] at *
    omega
  have hshift : size >>> (8 * 8 - 1) = 0 := by
    rw [Nat.shiftRight_eq_div_pow]
    exact Nat.div_eq_of_lt hsize
  have heq : customMalloc pid size h = xxmalloc pid size h := if_neg (not_not.mpr hshift)
  obtain ⟨hrange,hpast,-⟩ := xxmalloc_spec hr spare
  rw [heq]
  exact ⟨rfl,hrange,hpast⟩

/-- The usable sizes agree, so `realloc` returns the block it was given. -/
theorem customRealloc_keep {ptr : Nat} {mem : Heap} (hptr : ptr ≠ 0) (hsize : size ≠ 0)
    (hbuf : (customMalloc pid size h).1 ≠ 0) :
    customRealloc pid ptr size h mem = (ptr,(customMalloc pid size h).2,mem) := by
  simp [customRealloc,hptr,hsize,hbuf,xxmallocUsableSize,xxfree]

theorem customRealloc_null {mem : Heap} : customRealloc pid 0 size h mem =
    ((customMalloc pid size h).1,(customMalloc pid size h).2,mem) := by
  simp [customRealloc]

theorem customRealloc_zero {ptr : Nat} {mem : Heap} (hptr : ptr ≠ 0) :
    customRealloc pid ptr 0 h mem = (0,h,mem) := by
  simp [customRealloc,hptr,xxfree]

theorem customRealloc_fail {ptr : Nat} {mem : Heap} (hptr : ptr ≠ 0) (hsize : size ≠ 0)
    (hbuf : (customMalloc pid size h).1 = 0) :
    customRealloc pid ptr size h mem = (0,(customMalloc pid size h).2,mem) := by
  simp [customRealloc,hptr,hsize,hbuf,xxfree]

theorem Chunk.Apart.symm {c d : Chunk} (hcd : c.Apart d) : d.Apart c :=
  fun hd hc => (hcd hc hd).symm

theorem Client.Placed.bind {mem : Heap} {i q : Nat} (hs : s.Placed L pid) (range : h.InRange L)
    (grow : s.subheaps (subheapIndex pid) ≤ h (subheapIndex pid))
    (below : q ≠ 0 → q + size ≤ h (subheapIndex pid))
    (apart : q ≠ 0 → ∀ j d, j ≠ i → s.chunks j = some d → Chunk.Apart ⟨q,size⟩ d) :
    ({ s with subheaps := h, mem := mem }.bind i q size).Placed L pid := by
  have bound : ∀ c, (if q = 0 then none else some (⟨q,size⟩ : Chunk)) = some c →
      q ≠ 0 ∧ c = ⟨q,size⟩ := by
    intro c hc
    split at hc
    · cases hc
    · exact ⟨‹_›,(Option.some.inj hc).symm⟩
  refine ⟨range,?_,?_⟩
  · refine Processes.forall_update_ne (fun j d _ hd => ?_) fun c hc => ?_
    · obtain ⟨hne,hle⟩ := hs.below j d hd
      exact ⟨hne,hle.trans grow⟩
    · obtain ⟨hq,rfl⟩ := bound c hc
      exact ⟨hq,below hq⟩
  · intro j k c d hjk hc hd
    simp only [Client.bind,Function.update_apply] at hc hd
    by_cases hj : j = i
    · rw [if_pos hj] at hc
      rw [if_neg fun hk => hjk (hj.trans hk.symm)] at hd
      obtain ⟨hq,rfl⟩ := bound c hc
      exact apart hq k d (fun hk => hjk (hj.trans hk.symm)) hd
    · rw [if_neg hj] at hc
      by_cases hk : k = i
      · rw [if_pos hk] at hd
        obtain ⟨hq,rfl⟩ := bound d hd
        exact (apart hq j c hj hc).symm
      · rw [if_neg hk] at hd
        exact hs.apart j k c d hjk hc hd

theorem Client.Placed.fresh (hs : s.Placed L pid) (j : Nat) {d : Chunk}
    (hd : s.chunks j = some d) : Chunk.Apart ⟨s.subheaps (subheapIndex pid),size⟩ d :=
  fun _ _ => .inr (hs.below j d hd).2

theorem Client.Placed.malloc (hs : s.Placed L pid) (spare : s.subheaps.Spare L pid size)
    (i : Nat) (mem : Heap) :
    ({ s with subheaps := (customMalloc pid size s.subheaps).2, mem := mem }.bind i
      (customMalloc pid size s.subheaps).1 size).Placed L pid := by
  obtain ⟨hcur,hrange,hpast⟩ := customMalloc_spec hs.range spare
  apply hs.bind hrange
  · exact (Nat.le_add_right _ _).trans hpast
  · intro _
    rw [hcur]
    exact hpast
  · intro _ j d _ hd
    rw [hcur]
    exact hs.fresh j hd

/-- The block that `realloc` returns reaches no other block exactly when there is room. -/
theorem clear_iff (hs : s.Placed L pid) {i : Nat} {c : Chunk} (hc : s.chunks i = some c)
    (hsize : size ≠ 0) : s.Clear i c size ↔
      ∀ j d, j ≠ i → s.chunks j = some d → Chunk.Apart ⟨c.addr,size⟩ d := by
  constructor
  · intro hclear j d hj hd _ hne
    show c.addr + size ≤ d.addr ∨ d.addr + d.size ≤ c.addr
    obtain ⟨hup,hdown⟩ := hclear j d hj hd hne
    by_cases hle : c.addr ≤ d.addr
    · exact .inl (hup hle)
    · refine .inr ?_
      by_cases hzero : c.size = 0
      · exact hdown hzero (by omega)
      · have hold := hs.apart i j c d hj.symm hc hd hzero hne
        omega
  · intro hapart j d hj hd hne
    have hor : c.addr + size ≤ d.addr ∨ d.addr + d.size ≤ c.addr := hapart j d hj hd hsize hne
    exact ⟨fun _ => by omega,fun _ _ => by omega⟩

theorem client_placed_step {x : Client.Act} (hstep : Client.Step L pid s x s')
    (guard : s.Roomy x) (hs : s.Placed L pid) : s'.Placed L pid := by
  cases hstep with
  | @malloc i size _ spare => exact hs.malloc spare i s.mem
  | @realloc i size spare =>
    cases hc : s.chunks i with
    | none =>
      have hptr : s.ptr i = 0 := by simp [Client.ptr,hc]
      rw [hptr,customRealloc_null]
      exact hs.malloc spare i s.mem
    | some c =>
      obtain ⟨hcur,hrange,hpast⟩ := customMalloc_spec hs.range spare
      obtain ⟨hne,hbelow⟩ := hs.below i c hc
      have hptr : s.ptr i = c.addr := by simp [Client.ptr,hc]
      rw [hptr]
      by_cases hsize : size = 0
      · subst hsize
        rw [customRealloc_zero hne]
        exact hs.bind hs.range le_rfl (absurd rfl) (absurd rfl)
      · by_cases hbuf : (customMalloc pid size s.subheaps).1 = 0
        · rw [customRealloc_fail hne hsize hbuf]
          exact hs.bind hrange ((Nat.le_add_right _ _).trans hpast) (absurd rfl) (absurd rfl)
        · rw [customRealloc_keep hne hsize hbuf]
          apply hs.bind hrange ((Nat.le_add_right _ _).trans hpast)
          · intro _
            exact (Nat.add_le_add_right ((Nat.le_add_right _ _).trans hbelow) size).trans hpast
          · intro _
            exact (clear_iff hs hc hsize).mp (guard i c size rfl hsize hc)
  | @free i c hc =>
    refine ⟨hs.range,?_,?_⟩
    · exact Processes.forall_drop hs.below
    · intro j k d e hjk hd he
      simp only [Function.update_apply] at hd he
      split at hd
      · cases hd
      · split at he
        · cases he
        · exact hs.apart j k d e hjk hd he
  | write => exact ⟨hs.range,hs.below,hs.apart⟩

theorem realloc_step {i : Nat} {c : Chunk} (hs : s.Placed L pid) (hc : s.chunks i = some c)
    (hsize : size ≠ 0) (hstep : Client.Step L pid s (.realloc i size) s') (hq : s'.ptr i ≠ 0) :
    s'.ptr i = c.addr ∧ s'.mem = s.mem ∧
      s'.chunks = Function.update s.chunks i (some ⟨c.addr,size⟩) := by
  obtain ⟨hne,-⟩ := hs.below i c hc
  have hptr : s.ptr i = c.addr := by simp [Client.ptr,hc]
  cases hstep with
  | realloc spare =>
    by_cases hbuf : (customMalloc pid size s.subheaps).1 = 0
    · rw [hptr,customRealloc_fail hne hsize hbuf] at hq
      simp [Client.ptr,Client.bind] at hq
    · rw [hptr,customRealloc_keep hne hsize hbuf]
      simp [Client.ptr,Client.bind,hne]

end Steps

def Client.initial (h : Subheaps) (mem : Heap) : Client := ⟨h,mem,fun _ => none⟩

theorem client_placed_initial {L : Layout} {pid : Nat} {h : Subheaps} (hr : h.InRange L)
    (mem : Heap) : (Client.initial h mem).Placed L pid :=
  ⟨hr,nofun,nofun⟩

/-- As long as blocks grow only where there is room all live blocks stay apart, whatever is
allocated later, and the first bytes of a block that `realloc` returns are those it had; a block
that grows without room overlaps another one. -/
theorem realloc_apart_iff (L : Layout) (pid : Nat) (h : Subheaps) (hr : h.InRange L) (mem : Heap)
    (s : Client)
    (hs : Reachable (Guarded Client.Roomy (Client.Step L pid)) (Client.initial h mem) s) :
    s.Disjoint ∧ ∀ i c size s', s.chunks i = some c → size ≠ 0 →
      Client.Step L pid s (.realloc i size) s' → s'.ptr i ≠ 0 →
        (∀ k < min c.size size, s'.mem (s'.ptr i + k) = s.mem (c.addr + k)) ∧
        (s'.Disjoint ↔ s.Clear i c size) := by
  have hplaced : s.Placed L pid := by
    apply hs.invariant (client_placed_initial hr mem)
    intro t a u ht hstep
    exact client_placed_step hstep.2 hstep.1 ht
  refine ⟨hplaced.apart,fun i c size s' hc hsize hstep hq => ?_⟩
  obtain ⟨hptr,hmem,hchunks⟩ := realloc_step hplaced hc hsize hstep hq
  refine ⟨fun k _ => by rw [hptr,hmem],?_⟩
  constructor
  · intro hdisj
    refine (clear_iff hplaced hc hsize).mpr fun j d hj hd => ?_
    exact hdisj i j _ d hj.symm (by simp [hchunks]) (by simpa [hchunks,hj] using hd)
  · intro hclear
    have guard : s.Roomy (.realloc i size) := by
      intro i' c' size' hx _ hc'
      cases hx
      cases hc.symm.trans hc'
      exact hclear
    exact (client_placed_step hstep guard hplaced).apart

theorem two_chunks : ∃ s, Reachable (Guarded Client.Roomy (Client.Step .adjacent 1))
      (.initial (globalHeapInit .adjacent) fun _ => 0) s ∧ s.chunks 0 = some ⟨0x108000,16⟩ ∧
    s.chunks 1 = some ⟨0x108010,16⟩ ∧ (∀ j, j ≠ 0 → j ≠ 1 → s.chunks j = none) ∧
    s.subheaps (subheapIndex 1) = 0x108020 := by
  have malloc : ∀ (s : Client) (i : Nat), s.chunks i = none →
      s.subheaps.Spare .adjacent 1 16 →
      Guarded Client.Roomy (Client.Step .adjacent 1) s (.malloc i 16)
        ({ s with subheaps := (customMalloc 1 16 s.subheaps).2 }.bind i
          (customMalloc 1 16 s.subheaps).1 16) := by
    intro s i hfree spare
    refine ⟨?_,.malloc hfree spare⟩
    intro _ _ _ hx
    cases hx
  have h₀ := malloc (.initial (globalHeapInit .adjacent) fun _ => 0) 0 rfl (by decide)
  refine ⟨_,((Reachable.refl _).tail h₀).tail (malloc _ 1 rfl (by decide)),
    by decide,by decide,?_,by decide⟩
  intro j h0 h1
  simp [Client.bind,Client.initial,h0,h1]

/-- The second block has room to grow. -/
theorem realloc_apart_last : ∃ s, s.Disjoint ∧ s.chunks 1 = some ⟨0x108010,16⟩ ∧
    ∀ s', Client.Step .adjacent 1 s (.realloc 1 64) s' → s'.ptr 1 ≠ 0 → s'.Disjoint := by
  obtain ⟨s,hs,h0,h1,hnone,-⟩ := two_chunks
  obtain ⟨hdisj,hall⟩ := realloc_apart_iff .adjacent 1 _ (globalHeapInit_inRange _) _ s hs
  refine ⟨s,hdisj,h1,fun s' hstep hq => ?_⟩
  refine (hall 1 _ 64 s' h1 (by decide) hstep hq).2.mpr fun j d hj hd _ => ?_
  by_cases hj0 : j = 0
  · subst hj0
    cases h0.symm.trans hd
    decide
  · cases (hnone j hj0 hj).symm.trans hd

/-- The first block, asked to grow to 32 bytes, is returned as it is and takes the bytes of the
second. -/
theorem realloc_apart_fails : ∃ s s', Reachable (Client.Step .adjacent 1)
      (.initial (globalHeapInit .adjacent) fun _ => 0) s ∧
    Client.Step .adjacent 1 s (.realloc 0 32) s' ∧ s'.chunks 0 = some ⟨0x108000,32⟩ ∧
    s'.chunks 1 = some ⟨0x108010,16⟩ ∧ ¬ s'.Disjoint := by
  obtain ⟨s,hs,h0,h1,-,hcur⟩ := two_chunks
  have hstep : Client.Step .adjacent 1 s (.realloc 0 32) _ :=
    .realloc (by unfold Subheaps.Spare; rw [hcur]; decide)
  have hptr : s.ptr 0 = 0x108000 := by simp [Client.ptr,h0]
  have hbuf : (customMalloc 1 32 s.subheaps).1 ≠ 0 := by
    have hnew : (customMalloc 1 32 s.subheaps).1 = 0x108020 := hcur
    rw [hnew]
    decide
  rw [hptr,customRealloc_keep (by decide) (by decide) hbuf] at hstep
  refine ⟨s,_,hs.forget,hstep,by simp [Client.bind],by simp [Client.bind,h1],fun hdisj => ?_⟩
  have hapart := hdisj 0 1 ⟨0x108000,32⟩ ⟨0x108010,16⟩ (by decide) (by simp [Client.bind])
    (by simp [Client.bind,h1])
  revert hapart
  decide

end GThread
