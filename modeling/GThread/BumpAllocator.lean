import GThread.Util
import GThread.Library.Processes
import GThread.Library.Transition
import Mathlib.Data.List.Pairwise

/-! The bump allocator (`bump_allocator.cc`) in all processes of a run. Every process holds its
own copy of the 16 cursors, inherited at the fork; the addresses they hand out are shared
through the commits. Blocks stay apart as long as nobody allocates from a cursor that another
process has moved on. -/
namespace GThread
open Transition

abbrev Subheaps := Fin numSubheap → Nat

def Layout.subheap (L : Layout) (i : Nat) : Nat := L.localHeap + i * subheapSize

theorem Layout.subheap_spec (L : Layout) {i : Nat} (hi : i < numSubheap) :
    L.subheap i % minAlignedSize = 0 ∧ L.subheap (i + 1) = L.subheap i + subheapSize ∧
      L.subheap (i + 1) < 2^64 := by
  obtain ⟨k,hk⟩ := L.localAligned
  have hfit := L.localFits
  simp only [Layout.subheap,minAlignedSize,subheapSize,heapSize,numSubheap,pageSize] at *
  omega

theorem Layout.subheap_le (L : Layout) {i j : Nat} (h : i < j) :
    L.subheap (i + 1) ≤ L.subheap j := by
  simp only [Layout.subheap,subheapSize,heapSize,numSubheap]
  omega

def globalHeapInit (L : Layout) : Subheaps :=
  fun i => (fun cur => cur + subheapSize)^[i] L.localHeap

theorem globalHeapInit_eq (L : Layout) (i : Fin numSubheap) : globalHeapInit L i = L.subheap i := by
  unfold globalHeapInit Layout.subheap
  induction i.val with
  | zero => simp
  | succ n ih =>
    rw [Function.iterate_succ_apply',ih,Nat.succ_mul,Nat.add_assoc]

def subheapIndex (pid : Nat) : Fin numSubheap := ⟨pid % numSubheap,Nat.mod_lt _ (by decide)⟩

/-- `xxmalloc` in process `pid`: the pointer it returns and the cursors it leaves. -/
def xxmalloc (pid size : Nat) (subheaps : Subheaps) : Nat × Subheaps :=
  let index := subheapIndex pid
  let ret := subheaps index
  let allignedSize := roundUp size minAlignedSize
  (ret,Function.update subheaps index ((subheaps index + allignedSize) % 2^64))

def Subheaps.InRange (L : Layout) (h : Subheaps) : Prop :=
  ∀ i : Fin numSubheap, h i % minAlignedSize = 0 ∧ L.subheap i ≤ h i ∧ h i ≤ L.subheap (i + 1)

theorem globalHeapInit_inRange (L : Layout) : (globalHeapInit L).InRange L := by
  intro i
  obtain ⟨hal,hnext,-⟩ := L.subheap_spec i.isLt
  rw [globalHeapInit_eq]
  exact ⟨hal,le_rfl,by omega⟩

/-- A request that fits moves its cursor past the block and no other cursor. -/
theorem xxmalloc_spec {L : Layout} {pid size : Nat} {h : Subheaps} (hr : h.InRange L)
    (fits : h (subheapIndex pid) + size ≤ L.subheap (subheapIndex pid + 1)) :
    (xxmalloc pid size h).2.InRange L ∧
      h (subheapIndex pid) + size ≤ (xxmalloc pid size h).2 (subheapIndex pid) ∧
      ∀ i, h i ≤ (xxmalloc pid size h).2 i := by
  obtain ⟨hal,hlo,hhi⟩ := hr (subheapIndex pid)
  obtain ⟨hbase,hnext,hfit⟩ := L.subheap_spec (subheapIndex pid).isLt
  obtain ⟨hle,hend,hround⟩ := roundUp_fits (x := size)
    (n := L.subheap (subheapIndex pid + 1) - h (subheapIndex pid)) (by omega)
    (by simp only [minAlignedSize,subheapSize,heapSize,numSubheap] at *; omega) (by omega)
  have hnew : (xxmalloc pid size h).2 (subheapIndex pid) =
      h (subheapIndex pid) + roundUp size minAlignedSize := by
    simp only [xxmalloc,Function.update_self]
    omega
  have hother : ∀ i, i ≠ subheapIndex pid → (xxmalloc pid size h).2 i = h i := by
    intro i hi
    simp [xxmalloc,hi]
  refine ⟨fun i => ?_,by omega,fun i => ?_⟩
  · by_cases hi : i = subheapIndex pid
    · subst i
      rw [hnew]
      refine ⟨?_,by omega,by omega⟩
      rw [Nat.add_mod,hal,hround]
      rfl
    · rw [hother i hi]
      exact hr i
  · by_cases hi : i = subheapIndex pid
    · subst i
      omega
    · exact (hother i hi).ge

/-- A block that `xxmalloc` returned. It is pending until its attempt ends, and live unless
that attempt was aborted or the block was freed. -/
structure Block where
  pid : Nat
  addr : Nat
  size : Nat
  pending : Bool
  live : Bool

def Block.stop (b : Block) : Nat := b.addr + b.size

def Block.Apart (a b : Block) : Prop := a.stop ≤ b.addr ∨ b.stop ≤ a.addr

instance (a b : Block) : Decidable (a.Apart b) := inferInstanceAs (Decidable (_ ∨ _))

def Block.commit (pid : Nat) (b : Block) : Block :=
  if b.pid = pid then { b with pending := false } else b

def Block.abort (pid : Nat) (b : Block) : Block :=
  if b.pid = pid ∧ b.pending then { b with pending := false, live := false } else b

/-- `xxfree` does nothing; the caller gives the block around `ptr` up. -/
def Block.xxfree (ptr : Nat) (b : Block) : Block :=
  if b.addr ≤ ptr ∧ ptr < b.stop then { b with live := false } else b

/-- The running processes with their cursors. The other fields are history: the cursors of the
processes that have exited and the blocks handed out, the latest first. -/
structure Arena where
  procs : Nat → Option Subheaps
  exited : List Subheaps
  blocks : List Block

inductive Arena.Act where
  | fork (child : Nat)
  | exit
  | xxmalloc (size : Nat)
  | commit
  | abort
  | xxfree (ptr : Nat)

inductive Arena.Step (L : Layout) (s : Arena) : Nat × Arena.Act → Arena → Prop where
  | fork (pid child) {h} : s.procs pid = some h → 0 < child → s.procs child = none →
      Step L s (pid,.fork child) { s with procs := Function.update s.procs child (some h) }
  | exit (pid) {h} : s.procs pid = some h →
      Step L s (pid,.exit)
        { procs := Function.update s.procs pid none
          exited := h :: s.exited
          blocks := s.blocks.map (Block.commit pid) }
  | xxmalloc (pid size) {h} : s.procs pid = some h →
      h (subheapIndex pid) + size ≤ L.subheap (subheapIndex pid + 1) →
      Step L s (pid,.xxmalloc size)
        { s with
          procs := Function.update s.procs pid (some (xxmalloc pid size h).2)
          blocks := ⟨pid,(xxmalloc pid size h).1,size,true,true⟩ :: s.blocks }
  | commit (pid) {h} : s.procs pid = some h →
      Step L s (pid,.commit) { s with blocks := s.blocks.map (Block.commit pid) }
  | abort (pid) {h} : s.procs pid = some h →
      Step L s (pid,.abort) { s with blocks := s.blocks.map (Block.abort pid) }
  | xxfree (pid ptr) {h} : s.procs pid = some h → ptr ≠ 0 →
      Step L s (pid,.xxfree ptr) { s with blocks := s.blocks.map (Block.xxfree ptr) }

def Arena.initial (L : Layout) (root : Nat) : Arena :=
  ⟨Function.update (fun _ => none) root (some (globalHeapInit L)),[],[]⟩

def Arena.Cursors (s : Arena) (h : Subheaps) : Prop := (∃ q, s.procs q = some h) ∨ h ∈ s.exited

/-- Where the step allocates, no process has moved its own copy of the cursor further than the
caller. -/
def Arena.Foremost (s : Arena) (x : Nat × Arena.Act) : Prop :=
  ∀ size h, x.2 = .xxmalloc size → size ≠ 0 → s.procs x.1 = some h →
    ∀ g, s.Cursors g → g (subheapIndex x.1) ≤ h (subheapIndex x.1)

structure Arena.Placed (L : Layout) (s : Arena) : Prop where
  cursor : ∀ q h, s.procs q = some h → h.InRange L
  block : ∀ b ∈ s.blocks, L.subheap (subheapIndex b.pid) ≤ b.addr ∧
    b.stop ≤ L.subheap (subheapIndex b.pid + 1)
  below : ∀ b ∈ s.blocks, ∃ h, s.Cursors h ∧ b.stop ≤ h (subheapIndex b.pid)
  apart : s.blocks.Pairwise fun a b => a.size ≠ 0 → b.size ≠ 0 → a.Apart b

variable {L : Layout} {s s' : Arena} {x : Nat × Arena.Act}

theorem cursors_step (h : Arena.Step L s x s') (hs : s.Placed L) {g : Subheaps}
    (hg : s.Cursors g) : ∃ g', s'.Cursors g' ∧ ∀ i, g i ≤ g' i := by
  cases hg with
  | inr hg =>
    refine ⟨g,.inr ?_,fun _ => le_rfl⟩
    cases h with
    | exit => exact List.mem_cons_of_mem _ hg
    | _ => exact hg
  | inl hg =>
    obtain ⟨q,hq⟩ := hg
    cases h with
    | @fork pid child h hp hc hn =>
      have hne : q ≠ child := Processes.ne_of_none hq hn
      exact ⟨g,.inl ⟨q,by simpa [hne] using hq⟩,fun _ => le_rfl⟩
    | @exit pid h hp =>
      by_cases hqp : q = pid
      · subst q
        cases hp.symm.trans hq
        exact ⟨g,.inr List.mem_cons_self,fun _ => le_rfl⟩
      · exact ⟨g,.inl ⟨q,by simpa [hqp] using hq⟩,fun _ => le_rfl⟩
    | @xxmalloc pid size h hp fits =>
      by_cases hqp : q = pid
      · subst q
        cases hp.symm.trans hq
        exact ⟨(xxmalloc pid size g).2,.inl ⟨pid,by simp⟩,
          (xxmalloc_spec (hs.cursor pid g hp) fits).2.2⟩
      · exact ⟨g,.inl ⟨q,by simpa [hqp] using hq⟩,fun _ => le_rfl⟩
    | commit | abort | xxfree => exact ⟨g,.inl ⟨q,hq⟩,fun _ => le_rfl⟩

theorem Arena.Placed.mark (hs : s.Placed L) {f : Block → Block}
    (same : ∀ b, (f b).pid = b.pid ∧ (f b).addr = b.addr ∧ (f b).size = b.size)
    (blocks : s'.blocks = s.blocks.map f) (cursor : ∀ q h, s'.procs q = some h → h.InRange L)
    (grow : ∀ g, s.Cursors g → ∃ g', s'.Cursors g' ∧ ∀ i, g i ≤ g' i) : s'.Placed L := by
  have stop : ∀ b, (f b).stop = b.stop := fun b => by simp [Block.stop,same b]
  refine ⟨cursor,?_,?_,?_⟩
  · rw [blocks]
    intro c hc
    obtain ⟨b,hb,rfl⟩ := List.mem_map.mp hc
    rw [stop,(same b).1,(same b).2.1]
    exact hs.block b hb
  · rw [blocks]
    intro c hc
    obtain ⟨b,hb,rfl⟩ := List.mem_map.mp hc
    obtain ⟨g,hg,hle⟩ := hs.below b hb
    obtain ⟨g',hg',hgrow⟩ := grow g hg
    rw [stop,(same b).1]
    exact ⟨g',hg',hle.trans (hgrow _)⟩
  · rw [blocks]
    refine List.pairwise_map.mpr (hs.apart.imp fun {a b} h => ?_)
    simpa only [Block.Apart,stop,same] using h

theorem Block.commit_same (pid : Nat) (b : Block) : (b.commit pid).pid = b.pid ∧
    (b.commit pid).addr = b.addr ∧ (b.commit pid).size = b.size := by
  unfold Block.commit
  split <;> exact ⟨rfl,rfl,rfl⟩

theorem Block.abort_same (pid : Nat) (b : Block) : (b.abort pid).pid = b.pid ∧
    (b.abort pid).addr = b.addr ∧ (b.abort pid).size = b.size := by
  unfold Block.abort
  split <;> exact ⟨rfl,rfl,rfl⟩

theorem Block.xxfree_same (ptr : Nat) (b : Block) : (b.xxfree ptr).pid = b.pid ∧
    (b.xxfree ptr).addr = b.addr ∧ (b.xxfree ptr).size = b.size := by
  unfold Block.xxfree
  split <;> exact ⟨rfl,rfl,rfl⟩

theorem placed_step (h : Arena.Step L s x s') (guard : s.Foremost x) (hs : s.Placed L) :
    s'.Placed L := by
  have grow : ∀ g, s.Cursors g → ∃ g', s'.Cursors g' ∧ ∀ i, g i ≤ g' i :=
    fun g hg => cursors_step h hs hg
  cases h with
  | @fork pid child h hp hc hn =>
    exact hs.mark (f := id) (fun _ => ⟨rfl,rfl,rfl⟩) (by simp)
      (Processes.forall_put hs.cursor (hs.cursor pid h hp)) grow
  | @exit pid h hp =>
    exact hs.mark (Block.commit_same pid) rfl (Processes.forall_drop hs.cursor) grow
  | @xxmalloc pid size h hp fits =>
    obtain ⟨hrange,hpast,-⟩ := xxmalloc_spec (hs.cursor pid h hp) fits
    have hstart : L.subheap (subheapIndex pid) ≤ h (subheapIndex pid) :=
      (hs.cursor pid h hp (subheapIndex pid)).2.1
    have old : ∀ b ∈ s.blocks, ∃ g', Arena.Cursors _ g' ∧ b.stop ≤ g' (subheapIndex b.pid) :=
      fun b hb => by
        obtain ⟨g,hg,hle⟩ := hs.below b hb
        obtain ⟨g',hg',hgrow⟩ := grow g hg
        exact ⟨g',hg',hle.trans (hgrow _)⟩
    refine ⟨Processes.forall_put hs.cursor hrange,?_,?_,?_⟩
    · exact List.forall_mem_cons.mpr ⟨⟨hstart,fits⟩,hs.block⟩
    · exact List.forall_mem_cons.mpr ⟨⟨_,.inl ⟨pid,by simp⟩,hpast⟩,old⟩
    · refine List.pairwise_cons.mpr ⟨fun b hb hsize _ => ?_,hs.apart⟩
      obtain ⟨hlo,hhi⟩ := hs.block b hb
      obtain hlt | heq | hgt :=
        lt_trichotomy (subheapIndex b.pid : Nat) (subheapIndex pid : Nat)
      · exact .inr (hhi.trans ((L.subheap_le hlt).trans hstart))
      · obtain ⟨g,hg,hle⟩ := hs.below b hb
        rw [Fin.ext heq] at hle
        exact .inr (hle.trans (guard size h rfl hsize hp g hg))
      · exact .inl (fits.trans ((L.subheap_le hgt).trans hlo))
  | commit => exact hs.mark (Block.commit_same _) rfl hs.cursor grow
  | abort => exact hs.mark (Block.abort_same _) rfl hs.cursor grow
  | xxfree => exact hs.mark (Block.xxfree_same _) rfl hs.cursor grow

theorem placed_initial (L : Layout) (root : Nat) : (Arena.initial L root).Placed L := by
  refine ⟨?_,?_,?_,.nil⟩
  · exact Processes.forall_put nofun (globalHeapInit_inRange L)
  · intro b hb
    cases hb
  · intro b hb
    cases hb

/-- Live blocks never overlap, in whatever processes they were allocated, in a run in which no
process allocates from a cursor that another one has moved on. -/
theorem blocks_disjoint (L : Layout) (root : Nat) (s : Arena)
    (h : Reachable (Guarded Arena.Foremost (Arena.Step L)) (Arena.initial L root) s) :
    s.blocks.Pairwise fun a b => a.live = true → b.live = true → a.size ≠ 0 → b.size ≠ 0 →
      a.Apart b := by
  have hplaced : s.Placed L := h.invariant (placed_initial L root)
    fun t a u ht hstep => placed_step hstep.2 hstep.1 ht
  exact hplaced.apart.imp fun hab _ _ => hab

/-- Parent and child allocate from different subheaps. -/
theorem blocks_disjoint_pair : ∃ s : Arena,
    s.blocks.map (fun b => (b.pid,b.addr,b.size)) = [(1,0x108000,8),(2,0x110000,24)] ∧
    s.blocks.Pairwise fun a b => a.live = true → b.live = true → a.size ≠ 0 → b.size ≠ 0 →
      a.Apart b := by
  let s₀ := Arena.initial .adjacent 1
  let s₁ : Arena :=
    { s₀ with procs := Function.update s₀.procs 2 (some (globalHeapInit .adjacent)) }
  let h := (xxmalloc 2 24 (globalHeapInit .adjacent)).2
  let s₂ : Arena := { s₁ with
    procs := Function.update s₁.procs 2 (some h)
    blocks := [⟨2,0x110000,24,true,true⟩] }
  have cursors₁ : ∀ g, s₁.Cursors g → g = globalHeapInit .adjacent := by
    intro g hg
    obtain ⟨q,hq⟩ | hg := hg
    · simp only [s₁,s₀,Arena.initial,Function.update_apply] at hq
      split at hq
      · exact (Option.some.inj hq).symm
      · split at hq <;> cases hq
        rfl
    · cases hg
  have cursors₂ : ∀ g, s₂.Cursors g → g = globalHeapInit .adjacent ∨ g = h := by
    intro g hg
    obtain ⟨q,hq⟩ | hg := hg
    · simp only [s₂,Function.update_apply] at hq
      split at hq
      · exact .inr (Option.some.inj hq).symm
      · exact .inl (cursors₁ g (.inl ⟨q,hq⟩))
    · cases hg
  have step₁ : Guarded Arena.Foremost (Arena.Step .adjacent) s₀ (1,.fork 2) s₁ :=
    ⟨nofun,.fork 1 2 rfl (by decide) rfl⟩
  have step₂ : Guarded Arena.Foremost (Arena.Step .adjacent) s₁ (2,.xxmalloc 24) s₂ := by
    refine ⟨fun size h' _ _ hp g hg => ?_,.xxmalloc 2 24 rfl (by decide)⟩
    rw [cursors₁ g hg,cursors₁ h' (.inl ⟨2,hp⟩)]
  have step₃ := Arena.Step.xxmalloc (L := .adjacent) (s := s₂) 1 8 rfl (by decide)
  have guard₃ : s₂.Foremost (1,.xxmalloc 8) := by
    intro size h' _ _ hp g hg
    cases hp
    obtain rfl | rfl := cursors₂ g hg <;> decide
  refine ⟨_,?_,blocks_disjoint .adjacent 1 _
    ((((Reachable.refl s₀).tail step₁).tail step₂).tail ⟨guard₃,step₃⟩)⟩
  decide

/-- Siblings with pids 101 and 117 share a subheap and inherit the same cursor. -/
theorem blocks_disjoint_fails : ∃ s, Reachable (Arena.Step .adjacent) (.initial .adjacent 100) s ∧
    ¬ s.blocks.Pairwise fun a b => a.live = true → b.live = true → a.size ≠ 0 → b.size ≠ 0 →
      a.Apart b :=
  ⟨_,((((Reachable.refl _).tail (.fork 100 101 rfl (by decide) rfl)).tail
    (.fork 100 117 rfl (by decide) rfl)).tail (.xxmalloc 101 16 rfl (by decide))).tail
    (.xxmalloc 117 16 rfl (by decide)),by decide⟩

end GThread
