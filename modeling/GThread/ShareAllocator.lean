import GThread.PageAllocator
import GThread.Library.Processes
import GThread.Library.Transition

/-! `ShareAllocator` (`share_alloc.hh`) in all processes of a run. Its cursor and the nodes of
`global_page_version` are shared, but a page is mapped only in the process that ran out of
space and in those it forks later. -/
namespace GThread
open Transition

abbrev Mapping := PageAddr → Option Nat

def Mapping.Holds (m : Mapping) (object lo hi : Nat) : Prop :=
  ∃ page : PageAddr, m page = some object ∧ page ≤ lo ∧ hi ≤ page + pageSize

structure SharedBlock where
  object : Nat
  addr : Nat
  size : Nat

/-- The running processes with their mappings, and the words they share. The last three fields
are history: the page `share_head_` points into with its address, and the blocks handed out,
the latest first. -/
structure SharedTable where
  procs : Nat → Option Mapping
  alloc : PageAllocator
  object : Nat
  page : PageAddr
  blocks : List SharedBlock

inductive SharedTable.Act where
  | fork (child : Nat)
  | exit
  | allocate (bytes : Nat) (page : PageAddr)

def SharedTable.allocate (s : SharedTable) (pid : Nat) (m : Mapping) (bytes : Nat)
    (page : PageAddr) : SharedTable :=
  let (ret,alloc) := s.alloc.allocate bytes page
  if s.alloc.Full bytes then
    { procs := Function.update s.procs pid (some (Function.update m page (some (s.object + 1))))
      alloc := alloc
      object := s.object + 1
      page := page
      blocks := ⟨s.object + 1,ret,bytes⟩ :: s.blocks }
  else { s with alloc := alloc, blocks := ⟨s.object,ret,bytes⟩ :: s.blocks }

/-- One step of process `pid`; `mmap` picks an address that is free in the caller. -/
inductive SharedTable.Step (s : SharedTable) : Nat × SharedTable.Act → SharedTable → Prop where
  | fork (pid child) {m} : s.procs pid = some m → 0 < child → s.procs child = none →
      Step s (pid,.fork child) { s with procs := Function.update s.procs child (some m) }
  | exit (pid) {m} : s.procs pid = some m →
      Step s (pid,.exit) { s with procs := Function.update s.procs pid none }
  | allocate (pid bytes page) {m} : s.procs pid = some m →
      (s.alloc.Full bytes → m page = none) →
      Step s (pid,.allocate bytes page) (s.allocate pid m bytes page)

def SharedTable.initial (root : Nat) (page : PageAddr) : SharedTable where
  procs := Function.update (fun _ => none) root
    (some (Function.update (fun _ => none) page (some 0)))
  alloc := .pageAllocate page
  object := 0
  page := page
  blocks := []

def SharedTable.Readable (s : SharedTable) : Prop := ∀ q m, s.procs q = some m →
  (∀ b ∈ s.blocks, m.Holds b.object b.addr (b.addr + b.size)) ∧
    m.Holds s.object s.alloc.head s.alloc.head

/-- A request that needs a new page fits in it and is made by the only running process; any
other ends within the page `share_head_` points into. -/
def SharedTable.Roomy (s : SharedTable) (x : Nat × SharedTable.Act) : Prop :=
  match x.2 with
  | .allocate bytes _ =>
    if s.alloc.Full bytes then bytes ≤ pageSize ∧ ∀ q, s.procs q ≠ none → q = x.1
    else s.alloc.head + bytes ≤ s.page + pageSize
  | _ => True

structure SharedTable.Served (s : SharedTable) : Prop where
  aligned : s.alloc.head % minAlignedSize = 0
  inside : s.page ≤ s.alloc.head ∧ s.alloc.head ≤ s.page + pageSize
  current : ∀ q m, s.procs q = some m → m s.page = some s.object
  blocks : ∀ q m, s.procs q = some m → ∀ b ∈ s.blocks,
    m.Holds b.object b.addr (b.addr + b.size)

section Allocate
variable {s s' : SharedTable} {pid bytes : Nat} {m : Mapping} {page : PageAddr}

theorem allocate_full (h : s.alloc.Full bytes) : s.allocate pid m bytes page =
    { procs := Function.update s.procs pid (some (Function.update m page (some (s.object + 1))))
      alloc := ⟨(page + roundUp bytes minAlignedSize) % 2^64,0⟩
      object := s.object + 1
      page := page
      blocks := ⟨s.object + 1,page,bytes⟩ :: s.blocks } := by
  simp only [SharedTable.allocate,PageAllocator.allocate,if_pos h,PageAllocator.pageAllocate]

theorem allocate_room (h : ¬ s.alloc.Full bytes) : s.allocate pid m bytes page =
    { s with
      alloc := ⟨(s.alloc.head + roundUp bytes minAlignedSize) % 2^64,
        (s.alloc.used + roundUp bytes minAlignedSize) % 2^64⟩
      blocks := ⟨s.object,s.alloc.head,bytes⟩ :: s.blocks } := by
  simp only [SharedTable.allocate,PageAllocator.allocate,if_neg h]

theorem Mapping.Holds.update {object lo hi : Nat} (h : m.Holds object lo hi)
    (hfree : m page = none) (o : Option Nat) :
    Mapping.Holds (Function.update m page o) object lo hi := by
  obtain ⟨page₀,hm,hin⟩ := h
  have hne : page₀ ≠ page := fun he => by cases hfree.symm.trans (he ▸ hm)
  exact ⟨page₀,by simpa [hne] using hm,hin⟩

theorem served_step {x : Nat × SharedTable.Act} (h : SharedTable.Step s x s') (guard : s.Roomy x)
    (hs : s.Served) : s'.Served := by
  cases h with
  | fork _ _ hp =>
    exact ⟨hs.aligned,hs.inside,Processes.forall_put hs.current (hs.current _ _ hp),
      Processes.forall_put hs.blocks (hs.blocks _ _ hp)⟩
  | exit => exact ⟨hs.aligned,hs.inside,Processes.forall_drop hs.current,
      Processes.forall_drop hs.blocks⟩
  | @allocate pid bytes page m hp hfree =>
    simp only [SharedTable.Roomy] at guard
    by_cases hfull : s.alloc.Full bytes
    · rw [if_pos hfull] at guard
      obtain ⟨hsize,honly⟩ := guard
      have halone {I : Nat → Mapping → Prop} : ∀ q m, q ≠ pid → s.procs q = some m → I q m :=
        fun q m hq hm => absurd (honly q (by simp [hm])) hq
      have hfit : page.val + bytes ≤ page + pageSize := Nat.add_le_add_left hsize _
      obtain ⟨hpast,hlast,haligned⟩ := roundUp_head page.aligned hfit
      rw [allocate_full hfull]
      refine ⟨haligned,⟨(Nat.le_add_right _ _).trans hpast,hlast⟩,
        Processes.forall_update_ne halone fun m' hm' => ?_,
        Processes.forall_update_ne halone fun m' hm' => ?_⟩
      · obtain rfl := Option.some.inj hm'
        exact Function.update_self ..
      · obtain rfl := Option.some.inj hm'
        refine List.forall_mem_cons.mpr ⟨⟨page,Function.update_self ..,le_rfl,hfit⟩,?_⟩
        exact fun b hb => (hs.blocks pid m hp b hb).update (hfree hfull) _
    · rw [if_neg hfull] at guard
      obtain ⟨hpast,hlast,haligned⟩ := roundUp_head hs.aligned guard
      have hhead := hs.inside.1
      rw [allocate_room hfull]
      exact ⟨haligned,⟨hhead.trans ((Nat.le_add_right _ _).trans hpast),hlast⟩,hs.current,
        fun q m' hq => List.forall_mem_cons.mpr
          ⟨⟨s.page,hs.current q m' hq,hhead,guard⟩,hs.blocks q m' hq⟩⟩

end Allocate

theorem roomy_full (s : SharedTable) (pid bytes : Nat) (page : PageAddr) (h : s.alloc.Full bytes)
    (size : bytes ≤ pageSize) (only : ∀ q, s.procs q ≠ none → q = pid) :
    s.Roomy (pid,.allocate bytes page) := by
  simp only [SharedTable.Roomy,if_pos h]
  exact ⟨size,only⟩

theorem roomy_room (s : SharedTable) (pid bytes : Nat) (page : PageAddr)
    (h : ¬ s.alloc.Full bytes) (fits : s.alloc.head + bytes ≤ s.page + pageSize) :
    s.Roomy (pid,.allocate bytes page) := by
  simpa only [SharedTable.Roomy,if_neg h] using fits

theorem served_initial (root : Nat) (page : PageAddr) : (SharedTable.initial root page).Served := by
  refine ⟨page.aligned,⟨le_rfl,by simp [SharedTable.initial,PageAllocator.pageAllocate]⟩,
    Processes.forall_put nofun (Function.update_self ..),fun _ _ _ b hb => ?_⟩
  cases hb

/-- Every node and bucket array of the version table, and the page the next one is taken from,
is mapped in every running process, in a run in which no page is mapped while another process
is running. -/
theorem shared_readable (root : Nat) (page : PageAddr) (s : SharedTable)
    (h : Reachable (Guarded SharedTable.Roomy SharedTable.Step) (SharedTable.initial root page) s) :
    s.Readable := by
  have hserved : s.Served := h.invariant (served_initial root page)
    fun t a u ht hstep => served_step hstep.2 hstep.1 ht
  exact fun q m hq => ⟨hserved.blocks q m hq,s.page,hserved.current q m hq,hserved.inside⟩

def SharedTable.next (s : SharedTable) : Nat × SharedTable.Act → Option SharedTable
  | (pid,.fork child) => match s.procs pid with
    | some m =>
      if 0 < child ∧ (s.procs child).isNone then
        some { s with procs := Function.update s.procs child (some m) }
      else none
    | none => none
  | (pid,.exit) => match s.procs pid with
    | some _ => some { s with procs := Function.update s.procs pid none }
    | none => none
  | (pid,.allocate bytes page) => match s.procs pid with
    | some m =>
      if s.alloc.Full bytes → m page = none then some (s.allocate pid m bytes page) else none
    | none => none

theorem SharedTable.next_sound (s : SharedTable) (x : Nat × SharedTable.Act) (s' : SharedTable)
    (h : s.next x = some s') : SharedTable.Step s x s' := by
  unfold SharedTable.next at h
  split at h <;> split at h
  · rename_i hp
    split at h <;> simp at h
    rename_i hc
    exact h ▸ .fork _ _ hp hc.1 (by simpa using hc.2)
  · cases h
  · rename_i hp
    obtain rfl := Option.some.inj h
    exact .exit _ hp
  · cases h
  · rename_i hp
    split at h <;> simp at h
    exact h ▸ .allocate _ _ _ hp ‹_›
  · cases h

def firstPage : PageAddr := ⟨0x10000,by decide⟩
def secondPage : PageAddr := ⟨0x20000,by decide⟩

set_option maxRecDepth 20000 in
/-- The first process fills a page and maps another, and only then forks. -/
theorem shared_readable_fork : ∃ s : SharedTable,
    s.blocks.map (fun b => (b.object,b.addr)) = [(1,0x200d0),(1,0x20000),(0,0x10000)] ∧
    (s.procs 2).isSome ∧ s.Readable := by
  let m₀ : Mapping := Function.update (fun _ => none) firstPage (some 0)
  let m₁ : Mapping := Function.update m₀ secondPage (some 1)
  let s₀ := SharedTable.initial 1 firstPage
  let s₁ : SharedTable := { s₀ with alloc := ⟨0x10fa0,4000⟩, blocks := [⟨0,0x10000,4000⟩] }
  let s₂ : SharedTable :=
    { procs := Function.update s₀.procs 1 (some m₁)
      alloc := ⟨0x200d0,0⟩
      object := 1
      page := secondPage
      blocks := [⟨1,0x20000,200⟩,⟨0,0x10000,4000⟩] }
  let s₃ : SharedTable := { s₂ with procs := Function.update s₂.procs 2 (some m₁) }
  have full₁ : ¬ s₀.alloc.Full 4000 := by decide
  have full₃ : ¬ s₃.alloc.Full 24 := by decide
  have hs₁ : s₀.allocate 1 m₀ 4000 firstPage = s₁ := by
    rw [allocate_room full₁]
    simp [s₁,s₀,SharedTable.initial,PageAllocator.pageAllocate,firstPage,roundUp,minAlignedSize]
  have hs₂ : s₁.allocate 1 m₀ 200 secondPage = s₂ := by
    rw [allocate_full (by decide)]
    simp [s₂,s₁,s₀,m₁,SharedTable.initial,secondPage,roundUp,minAlignedSize]
  have step₁ : SharedTable.Step s₀ (1,.allocate 4000 firstPage) s₁ :=
    hs₁ ▸ .allocate 1 4000 firstPage rfl fun h => absurd h full₁
  have step₂ : SharedTable.Step s₁ (1,.allocate 200 secondPage) s₂ :=
    hs₂ ▸ .allocate 1 200 secondPage rfl fun _ => rfl
  have step₃ : SharedTable.Step s₂ (1,.fork 2) s₃ := .fork 1 2 rfl (by decide) rfl
  have step₄ := SharedTable.Step.allocate (s := s₃) 2 24 secondPage rfl fun h => absurd h full₃
  have only : ∀ q, s₁.procs q ≠ none → q = 1 := by
    intro q hq
    by_contra hne
    exact hq (by simp [s₁,s₀,SharedTable.initial,hne])
  have guard₁ := roomy_room s₀ 1 4000 firstPage full₁ (by decide +kernel)
  have guard₂ := roomy_full s₁ 1 200 secondPage (by decide +kernel) (by decide +kernel) only
  have guard₃ : s₂.Roomy (1,.fork 2) := trivial
  have guard₄ := roomy_room s₃ 2 24 secondPage full₃ (by decide +kernel)
  have run : Reachable (Guarded SharedTable.Roomy SharedTable.Step) s₀
      (s₃.allocate 2 m₁ 24 secondPage) :=
    ((((Reachable.refl s₀).tail ⟨guard₁,step₁⟩).tail ⟨guard₂,step₂⟩).tail ⟨guard₃,step₃⟩).tail
      ⟨guard₄,step₄⟩
  refine ⟨_,?_,?_,shared_readable 1 firstPage _ run⟩
  · rw [allocate_room full₃]
    rfl
  · rw [allocate_room full₃]
    rfl

/-- The requests of the `n`th insertion into a `std::unordered_map` with page keys: a node, and
a larger bucket array when the old one has become too small. -/
def insertRequests : Nat → List Nat
  | 1 => [24,13 * 8]
  | 14 => [24,29 * 8]
  | 30 => [24,59 * 8]
  | 60 => [24,127 * 8]
  | _ => [24]

def insertRun : List (Nat × SharedTable.Act) :=
  (1,.fork 2) :: (List.range 71).flatMap fun n =>
    (insertRequests (n + 1)).map fun bytes => (1,.allocate bytes secondPage)

theorem PageAddr.eq_of_mem {page page' : PageAddr} (h : page ≤ page'.val)
    (h' : page'.val < page + pageSize) : page = page' := by
  obtain ⟨k,hk⟩ := page.2.1
  obtain ⟨j,hj⟩ := page'.2.1
  refine Subtype.ext ?_
  simp only [pageSize] at *
  omega

/-- The last node lies in a page that is mapped in the parent only. -/
theorem shared_readable_fails : ∃ s : SharedTable,
    Reachable SharedTable.Step (SharedTable.initial 1 firstPage) s ∧ (∃ m, s.procs 2 = some m ∧
      ∃ b ∈ s.blocks, ∀ page : PageAddr, page ≤ b.addr → b.addr < page + pageSize →
        m page = none) ∧ ¬ s.Readable := by
  have hrun : (execute SharedTable.next (.initial 1 firstPage) insertRun).any (fun s =>
      ((s.procs 2).any fun m => (m secondPage).isNone) &&
        s.blocks.any fun b => b.addr = secondPage.val && b.size = 24) = true := by
    decide +kernel
  obtain ⟨s,hs,hv⟩ := execute_any SharedTable.next_sound hrun
  simp only [Bool.and_eq_true,Option.any_eq_true,List.any_eq_true,decide_eq_true_eq,
    Option.isNone_iff_eq_none] at hv
  obtain ⟨⟨m,hm,hnone⟩,b,hb,haddr,hsize⟩ := hv
  have unmapped : ∀ page : PageAddr, page ≤ b.addr → b.addr < page + pageSize →
      m page = none := by
    intro page hlo hhi
    rw [haddr] at hlo hhi
    rw [PageAddr.eq_of_mem hlo hhi]
    exact hnone
  refine ⟨s,hs,⟨m,hm,b,hb,unmapped⟩,fun hread => ?_⟩
  obtain ⟨page,hpage,hlo,hhi⟩ := (hread 2 m hm).1 b hb
  cases hpage.symm.trans (unmapped page hlo (by omega))

end GThread
