import GThread.PageBlocks
import Mathlib.Data.Nat.Find

/-! The vector `gthreads` (`libgthread.hh`) in the memory of `PrivateAllocator`. Each time it is
full it asks `allocate` for a larger buffer and copies its elements over, but `allocate` maps
one page for a request of any size. -/
namespace GThread

/-- `sizeof(gthread_t)`: a `pid_t` and a pointer. -/
def gthreadSize : Nat := 16

/-- `max_size()` for elements of `size` bytes. -/
def maxSize (size : Nat) : Nat := (2^64 - 1) / size

/-- How a vector grows: the capacity after `c`. What geometric growth adds to this is not
needed. -/
structure Growth where
  next : Nat → Nat
  grows : ∀ c < maxSize gthreadSize, c < next c
  bounded : ∀ c, next c ≤ maxSize gthreadSize
  first : gthreadSize * next 0 ≤ pageSize

def Growth.doubling : Growth where
  next c := min (c + max c 1) (maxSize gthreadSize)
  grows c h := by omega
  bounded c := min_le_right _ _
  first := by decide

/-- A vector with the allocator it gets its buffers from, and the memory as it stores its
elements: `mem a` is the element that starts at `a`. The model lets writes outside the mapped
pages through. -/
structure ThreadVector (α : Type) where
  run : PageRun
  start : Nat
  size : Nat
  capacity : Nat
  mem : Nat → α

variable {α : Type}

def ThreadVector.init (mmap : Nat → PageAddr) (mem : Nat → α) : ThreadVector α where
  run := .init mmap
  start := 0
  size := 0
  capacity := 0
  mem := mem

def ThreadVector.slot (v : ThreadVector α) (i : Nat) : Nat := v.start + gthreadSize * i

def moveElements (start newStart : Nat) (mem : Nat → α) : Nat → Nat → α
  | 0, a => mem a
  | n + 1, a =>
    if a = newStart + gthreadSize * n then
      moveElements start newStart mem n (start + gthreadSize * n)
    else moveElements start newStart mem n a

/-- `push_back`. A new buffer takes the new element first and then the old ones. -/
def ThreadVector.pushBack (G : Growth) (mmap : Nat → PageAddr) (v : ThreadVector α) (t : α) :
    ThreadVector α :=
  if v.size < v.capacity then
    { v with
      size := v.size + 1
      mem := Function.update v.mem (v.slot v.size) t }
  else
    let bytes := gthreadSize * G.next v.capacity
    let start := (v.run.alloc.allocate bytes (mmap v.run.pages.length)).1
    { run := v.run.allocate mmap bytes
      start := start
      size := v.size + 1
      capacity := G.next v.capacity
      mem := moveElements v.start start
        (Function.update v.mem (start + gthreadSize * v.size) t) v.size }

def ThreadVector.after (G : Growth) (mmap : Nat → PageAddr) (mem : Nat → α) (ts : List α) :
    ThreadVector α :=
  ts.foldl (ThreadVector.pushBack G mmap) (.init mmap mem)

def ThreadVector.toList (v : ThreadVector α) : List α :=
  (List.range v.size).map fun i => v.mem (v.slot i)

def PageRun.Mapped (r : PageRun) (a : Nat) : Prop := ∃ q ∈ r.pages, q.val ≤ a ∧ a < q + pageSize

/-- Every byte of the block `allocate` returns for `bytes` is in a mapped page and in no block
returned before. -/
def PageRun.Serves (mmap : Nat → PageAddr) (r : PageRun) (bytes : Nat) : Prop :=
  let start := (r.alloc.allocate bytes (mmap r.pages.length)).1
  ∀ a, start ≤ a → a < start + bytes →
    (r.allocate mmap bytes).Mapped a ∧ ∀ c ∈ r.blocks, ¬ (c.1 ≤ a ∧ a < c.1 + c.2)

/-- The request fits in the rest of `page`, or, where the count does not let it in, in a new page,
or in two if the new one lies right below `page` and nothing has been put there. -/
def PageRun.Room (mmap : Nat → PageAddr) (r : PageRun) (page : PageAddr)
    (first counted bytes : Nat) : Prop :=
  if r.alloc.Full bytes then
    bytes ≤ pageSize ∨ first + counted = 0 ∧ bytes ≤ 2 * pageSize ∧
      (mmap r.pages.length).val + pageSize = page
  else first + counted + bytes ≤ pageSize

instance (mmap : Nat → PageAddr) (r : PageRun) (page : PageAddr) (first counted bytes : Nat) :
    Decidable (r.Room mmap page first counted bytes) :=
  inferInstanceAs (Decidable (if r.alloc.Full bytes then
    bytes ≤ pageSize ∨ first + counted = 0 ∧ bytes ≤ 2 * pageSize ∧
      (mmap r.pages.length).val + pageSize = page
    else first + counted + bytes ≤ pageSize))

/-- The elements are `ts`, in mapped memory that belongs to no block but the vector's own, which
is the latest. -/
structure ThreadVector.Housed (v : ThreadVector α) (ts : List α) : Prop where
  mapped : ∀ i < v.size, ∀ a, v.slot i ≤ a → a < v.slot i + gthreadSize → v.run.Mapped a
  own : ∀ i < v.size, ∀ a, v.slot i ≤ a → a < v.slot i + gthreadSize →
    ∀ c ∈ v.run.blocks.tail, ¬ (c.1 ≤ a ∧ a < c.1 + c.2)
  values : v.toList = ts

/-- Where the buffer starts in its page, its capacity, and of that page the size of the request
it was mapped for and what `used_` counts. -/
structure Shape where
  first : Nat
  counted : Nat
  offset : Nat
  capacity : Nat

def Growth.grow (G : Growth) (s : Shape) : Shape :=
  let bytes := gthreadSize * G.next s.capacity
  if (s.counted + roundUp bytes minAlignedSize) % 2^64 > pageSize then
    ⟨bytes,0,0,G.next s.capacity⟩
  else ⟨s.first,s.counted + bytes,s.first + s.counted,G.next s.capacity⟩

def Growth.shape (G : Growth) : Nat → Shape
  | 0 => ⟨0,0,0,0⟩
  | n + 1 =>
    let s := G.shape n
    if n < s.capacity then s else G.grow s

/-- Up to `n` elements the vector never reaches past the page its buffer starts in. -/
def Growth.Fits (G : Growth) (n : Nat) : Prop :=
  ∀ m ≤ n, (G.shape m).offset + gthreadSize * m ≤ pageSize

instance (G : Growth) (n : Nat) : Decidable (G.Fits n) :=
  inferInstanceAs (Decidable (∀ m ≤ n, _))

/-- The most elements that still do; a page has room for no more than 256. -/
def Growth.limit (G : Growth) : Nat := Nat.findGreatest G.Fits (pageSize / gthreadSize)

/-- A call of `pthread_create`: the thread it makes, and how often a rollback takes the process
back into the call, which then appends the thread again. -/
structure Creation (α : Type) where
  thread : α
  rollbacks : Nat

def pushed (calls : List (Creation α)) : List α :=
  calls.flatMap fun c => List.replicate (c.rollbacks + 1) c.thread

section Runs
variable {G : Growth} {mmap : Nat → PageAddr} {v : ThreadVector α} {n : Nat} {page : PageAddr}

theorem maxSize_gthread : maxSize gthreadSize = 2^60 - 1 := by decide

theorem roundUp_elements (c : Nat) :
    roundUp (gthreadSize * c) minAlignedSize = gthreadSize * c := by
  simp [roundUp,gthreadSize,minAlignedSize]

theorem Growth.shape_room (h : n < (G.shape n).capacity) : G.shape (n + 1) = G.shape n :=
  if_pos h

theorem Growth.shape_full (h : ¬ n < (G.shape n).capacity) :
    G.shape (n + 1) = G.grow (G.shape n) := if_neg h

theorem Growth.shape_aligned (G : Growth) (n : Nat) : gthreadSize ∣ (G.shape n).first ∧
    gthreadSize ∣ (G.shape n).counted ∧ gthreadSize ∣ (G.shape n).offset := by
  induction n with
  | zero => exact ⟨dvd_zero _,dvd_zero _,dvd_zero _⟩
  | succ n ih =>
    by_cases h : n < (G.shape n).capacity
    · rw [Growth.shape_room h]
      exact ih
    · obtain ⟨hfirst,hcounted,-⟩ := ih
      rw [Growth.shape_full h,Growth.grow]
      split
      · exact ⟨dvd_mul_right _ _,dvd_zero _,dvd_zero _⟩
      · exact ⟨hfirst,dvd_add hcounted (dvd_mul_right _ _),dvd_add hfirst hcounted⟩

theorem moveElements_outside {start newStart : Nat} {mem : Nat → α} {a : Nat}
    (h : ∀ i < n, a ≠ newStart + gthreadSize * i) :
    moveElements start newStart mem n a = mem a := by
  induction n with
  | zero => rfl
  | succ n ih =>
    rw [moveElements,if_neg (h n n.lt_succ_self)]
    exact ih fun i hi => h i (hi.trans n.lt_succ_self)

theorem moveElements_slot {start newStart : Nat} {mem : Nat → α}
    (apart : ∀ i < n, ∀ j < n, start + gthreadSize * i ≠ newStart + gthreadSize * j) :
    ∀ i < n, moveElements start newStart mem n (newStart + gthreadSize * i) =
      mem (start + gthreadSize * i) := by
  induction n with
  | zero => intro i hi; cases hi
  | succ n ih =>
    have hold := ih fun i hi j hj => apart i (hi.trans n.lt_succ_self) j (hj.trans n.lt_succ_self)
    intro i hi
    rw [moveElements]
    by_cases hin : i = n
    · subst hin
      rw [if_pos rfl]
      exact moveElements_outside fun j hj => apart i hi j (hj.trans hi)
    · have hlt : i < n := by omega
      have hne : newStart + gthreadSize * i ≠ newStart + gthreadSize * n := by
        simp only [gthreadSize]
        omega
      rw [if_neg hne]
      exact hold i hlt

/-- Where the elements of a vector after `n` times `push_back` lie: their buffer starts in `page`,
and no other block reaches into the rest of that page. -/
structure ThreadVector.Placed (G : Growth) (mmap : Nat → PageAddr) (v : ThreadVector α) (n : Nat)
    (page : PageAddr) : Prop where
  size : v.size = n
  capacity : v.capacity = (G.shape n).capacity
  room : n ≤ v.capacity
  offset : (G.shape n).offset ≤ pageSize
  start : 0 < n → v.start = page + (G.shape n).offset
  block : 0 < n → (v.start,gthreadSize * v.capacity) ∈ v.run.blocks
  current : page ∈ v.run.pages
  apart : ∀ c ∈ v.run.blocks.tail, c.1 + c.2 ≤ v.start ∨ page + pageSize ≤ c.1
  begun : ∀ q ∈ v.run.pages, q ≠ page → ∃ c ∈ v.run.blocks.tail, c.1 = q ∧ 0 < c.2
  used : 0 < n → 0 < (G.shape n).first + (G.shape n).counted
  tidy : (G.shape n).offset + gthreadSize * (G.shape n).capacity ≤ pageSize →
    v.run.Tidy mmap page (G.shape n).first (G.shape n).counted
  few : v.run.pages.length ≤ n + 1

theorem placed_init (G : Growth) (mmap : Nat → PageAddr) (mem : Nat → α) :
    (ThreadVector.init mmap mem).Placed G mmap 0 (mmap 0) where
  size := rfl
  capacity := rfl
  room := le_rfl
  offset := Nat.zero_le _
  start h := absurd h (Nat.lt_irrefl 0)
  block h := absurd h (Nat.lt_irrefl 0)
  current := List.mem_singleton_self _
  apart c hc := by cases hc
  begun q hq hne := absurd (List.mem_singleton.mp hq) hne
  used h := absurd h (Nat.lt_irrefl 0)
  tidy _ := tidy_init mmap
  few := le_rfl

theorem ThreadVector.pushBack_room (h : v.size < v.capacity) (t : α) :
    v.pushBack G mmap t = { v with
      size := v.size + 1
      mem := Function.update v.mem (v.slot v.size) t } := if_pos h

theorem ThreadVector.pushBack_full (h : ¬ v.size < v.capacity) {start : Nat}
    (hstart : (v.run.alloc.allocate (gthreadSize * G.next v.capacity)
      (mmap v.run.pages.length)).1 = start) (t : α) :
    v.pushBack G mmap t =
      { run := v.run.allocate mmap (gthreadSize * G.next v.capacity)
        start := start
        size := v.size + 1
        capacity := G.next v.capacity
        mem := moveElements v.start start
          (Function.update v.mem (start + gthreadSize * v.size) t) v.size } := by
  subst hstart
  exact if_neg h

theorem ThreadVector.Placed.pushBack (h : v.Placed G mmap n page) (hroom : n < v.capacity)
    (hn : 0 < n) (t : α) : (v.pushBack G mmap t).Placed G mmap (n + 1) page := by
  have hshape : G.shape (n + 1) = G.shape n := Growth.shape_room (h.capacity ▸ hroom)
  rw [ThreadVector.pushBack_room (h.size ▸ hroom)]
  constructor
  · exact congrArg (· + 1) h.size
  · rw [hshape]; exact h.capacity
  · exact hroom
  · rw [hshape]; exact h.offset
  · rw [hshape]; exact fun _ => h.start hn
  · exact fun _ => h.block hn
  · exact h.current
  · exact h.apart
  · exact h.begun
  · rw [hshape]; exact fun _ => h.used hn
  · rw [hshape]; exact h.tidy
  · exact h.few.trans (Nat.le_succ _)

theorem ThreadVector.Placed.full (h : v.Placed G mmap n page) (hfull : ¬ n < v.capacity)
    (fits : (G.shape n).offset + gthreadSize * n ≤ pageSize) :
    v.capacity = n ∧ (G.shape n).capacity = n ∧ n < G.next n ∧
      G.shape (n + 1) = G.grow (G.shape n) ∧
      v.run.Tidy mmap page (G.shape n).first (G.shape n).counted := by
  have hcap : v.capacity = n := le_antisymm (not_lt.mp hfull) h.room
  have hscap : (G.shape n).capacity = n := h.capacity.symm.trans hcap
  refine ⟨hcap,hscap,G.grows n ?_,Growth.shape_full (by rw [hscap]; omega),
    h.tidy (by rwa [hscap])⟩
  rw [maxSize_gthread]
  simp only [gthreadSize,pageSize] at fits
  omega

theorem ThreadVector.Placed.grow_room (h : v.Placed G mmap n page) (hfull : ¬ n < v.capacity)
    (fits : (G.shape n).offset + gthreadSize * n ≤ pageSize)
    (hf : ¬ v.run.alloc.Full (gthreadSize * G.next n)) (t : α) :
    (v.pushBack G mmap t).Placed G mmap (n + 1) page := by
  obtain ⟨hcap,hscap,hgrows,hshape,htidy⟩ := h.full hfull fits
  have hround := roundUp_elements (G.next n)
  have htest := hf
  rw [PageAllocator.Full,htidy.used] at htest
  rw [Growth.grow,hscap,if_neg htest] at hshape
  have hret : (v.run.alloc.allocate (gthreadSize * G.next v.capacity)
      (mmap v.run.pages.length)).1 = v.run.alloc.head := by
    rw [hcap]
    exact PageAllocator.start_room hf _
  rw [ThreadVector.pushBack_full (by rwa [h.size]) hret,hcap,pageRun_room hf]
  constructor <;> simp only [hshape,hround]
  · exact congrArg (· + 1) h.size
  · exact hgrows
  · exact htidy.room
  · exact fun _ => htidy.head
  · exact fun _ => List.mem_cons_self
  · exact h.current
  · intro c hc
    obtain ⟨q,hq,hlo,hhi,hcur⟩ := htidy.inside c hc
    by_cases hqp : q = page
    · exact .inl (hcur hqp)
    · have := PageAddr.apart hqp
      have hhead := htidy.head
      omega
  · exact fun q hq hne => htidy.begun q hq (.inl hne)
  · intro _
    simp only [gthreadSize]
    omega
  · intro hfit
    have hnext := htidy.allocate (by rw [hround]; omega) hf
    rw [pageRun_room hf,hround] at hnext
    exact hnext
  · exact h.few.trans (Nat.le_succ _)

theorem ThreadVector.Placed.grow_page (h : v.Placed G mmap n page) (hfull : ¬ n < v.capacity)
    (fits : (G.shape n).offset + gthreadSize * n ≤ pageSize) {N : Nat}
    (hmmap : Set.InjOn mmap (Set.Iio N)) (hN : n + 1 < N)
    (hf : v.run.alloc.Full (gthreadSize * G.next n)) (t : α) :
    (v.pushBack G mmap t).Placed G mmap (n + 1) (mmap v.run.pages.length) := by
  obtain ⟨hcap,hscap,hgrows,hshape,htidy⟩ := h.full hfull fits
  have hround := roundUp_elements (G.next n)
  have hnew := htidy.new_page hmmap (h.few.trans_lt hN)
  have htest := hf
  rw [PageAllocator.Full,htidy.used] at htest
  rw [Growth.grow,hscap,if_pos htest] at hshape
  have hn : 0 < n := by
    by_contra hzero
    obtain rfl : n = 0 := by omega
    have hfirst := G.first
    rw [hround] at htest
    simp only [Growth.shape,gthreadSize,pageSize] at *
    omega
  have hret : (v.run.alloc.allocate (gthreadSize * G.next v.capacity)
      (mmap v.run.pages.length)).1 = (mmap v.run.pages.length).val := by
    rw [hcap]
    exact PageAllocator.start_full hf _
  rw [ThreadVector.pushBack_full (by rwa [h.size]) hret,hcap,pageRun_full hf]
  constructor <;> simp only [hshape,hround]
  · exact congrArg (· + 1) h.size
  · exact hgrows
  · exact Nat.zero_le _
  · exact fun _ => rfl
  · exact fun _ => List.mem_cons_self
  · exact List.mem_cons_self
  · intro c hc
    obtain ⟨q,hq,hlo,hhi,-⟩ := htidy.inside c hc
    have := PageAddr.apart (hnew q hq)
    omega
  · intro q hq hne
    obtain rfl | hq := List.mem_cons.mp hq
    · exact absurd rfl hne
    · exact htidy.begun q hq (.inr (h.used hn))
  · intro _
    simp only [gthreadSize]
    omega
  · intro hfit
    have hsize : roundUp (gthreadSize * G.next n) minAlignedSize ≤ pageSize := by
      rw [hround]
      omega
    have hcount : ¬ (G.shape n).counted + roundUp (gthreadSize * G.next n) minAlignedSize ≤
        pageSize := by
      simp only [pageSize] at *
      omega
    have hown := (htidy.own_full hnew hsize hcount hf).2
    rw [pageRun_full hf,hround] at hown
    exact hown
  · exact Nat.succ_le_succ h.few

theorem ThreadVector.Placed.next (h : v.Placed G mmap n page)
    (fits : (G.shape n).offset + gthreadSize * n ≤ pageSize) {N : Nat}
    (hmmap : Set.InjOn mmap (Set.Iio N)) (hN : n + 1 < N) (t : α) :
    ∃ page', (v.pushBack G mmap t).Placed G mmap (n + 1) page' := by
  by_cases hroom : n < v.capacity
  · have hn : 0 < n := by
      by_contra hzero
      obtain rfl : n = 0 := by omega
      rw [h.capacity] at hroom
      exact Nat.lt_irrefl 0 hroom
    exact ⟨page,h.pushBack hroom hn t⟩
  · by_cases hf : v.run.alloc.Full (gthreadSize * G.next n)
    · exact ⟨_,h.grow_page hroom fits hmmap hN hf t⟩
    · exact ⟨page,h.grow_room hroom fits hf t⟩

theorem ThreadVector.Placed.fits_of_housed (h : v.Placed G mmap n page) {ts : List α}
    (hh : v.Housed ts) : (G.shape n).offset + gthreadSize * n ≤ pageSize := by
  by_contra hover
  have hn : 0 < n := by
    by_contra hzero
    obtain rfl : n = 0 := by omega
    exact hover (Nat.zero_le _)
  have hoffset := h.offset
  obtain ⟨k,hk⟩ := (G.shape_aligned n).2.2
  have hi : 256 - k < v.size := by
    rw [h.size]
    simp only [gthreadSize,pageSize] at *
    omega
  have hslot : v.slot (256 - k) = page + pageSize := by
    rw [ThreadVector.slot,h.start hn]
    simp only [gthreadSize,pageSize] at *
    omega
  have hin : page.val + pageSize < v.slot (256 - k) + gthreadSize := by
    rw [hslot,gthreadSize]
    omega
  obtain ⟨q,hq,hlo,hhi⟩ := hh.mapped _ hi (page + pageSize) hslot.le hin
  have hbelow : page.val < q := by omega
  have hstart := PageAddr.next hbelow hlo
  have hne : q ≠ page := fun heq => hbelow.ne (congrArg Subtype.val heq).symm
  obtain ⟨c,hc,hcq,hpos⟩ := h.begun q hq hne
  exact hh.own _ hi (page + pageSize) hslot.le hin c hc ⟨by omega,by omega⟩

theorem ThreadVector.toList_snoc {v' : ThreadVector α} {t : α} (size : v'.size = v.size + 1)
    (old : ∀ i < v.size, v'.mem (v'.slot i) = v.mem (v.slot i))
    (new : v'.mem (v'.slot v.size) = t) : v'.toList = v.toList ++ [t] := by
  simp only [ThreadVector.toList,size,List.range_succ,List.map_append,List.map_singleton,new]
  congr 1
  exact List.map_congr_left fun i hi => old i (List.mem_range.mp hi)

theorem ThreadVector.Placed.toList_pushBack (h : v.Placed G mmap n page) {t : α}
    {page' : PageAddr} (h' : (v.pushBack G mmap t).Placed G mmap (n + 1) page')
    (fits : (G.shape (n + 1)).offset + gthreadSize * (n + 1) ≤ pageSize) :
    (v.pushBack G mmap t).toList = v.toList ++ [t] := by
  have hsize := h.size
  by_cases hroom : v.size < v.capacity
  · rw [ThreadVector.pushBack_room hroom]
    refine ThreadVector.toList_snoc rfl (fun i hi => ?_) (Function.update_self ..)
    refine Function.update_of_ne ?_ ..
    simp only [ThreadVector.slot,gthreadSize]
    omega
  · obtain ⟨start,hret⟩ : ∃ start, (v.run.alloc.allocate (gthreadSize * G.next v.capacity)
        (mmap v.run.pages.length)).1 = start := ⟨_,rfl⟩
    have hstart := h'.start n.succ_pos
    have hapart := h'.apart
    rw [ThreadVector.pushBack_full hroom hret] at hstart hapart ⊢
    have hslots : ∀ i < v.size, ∀ j ≤ v.size,
        v.start + gthreadSize * i ≠ start + gthreadSize * j := by
      intro i hi j hj
      have hroom' := h.room
      have hblock : v.start + gthreadSize * v.capacity ≤ start ∨ page'.val + pageSize ≤ v.start :=
        hapart _ (h.block (by omega))
      change start = _ at hstart
      simp only [gthreadSize] at *
      omega
    refine ThreadVector.toList_snoc rfl (fun i hi => ?_) ?_
    · refine (moveElements_slot (fun i hi j hj => hslots i hi j hj.le) i hi).trans ?_
      exact Function.update_of_ne (hslots i hi _ le_rfl) ..
    · refine (moveElements_outside fun j hj => ?_).trans (Function.update_self ..)
      change start + gthreadSize * v.size ≠ start + gthreadSize * j
      simp only [gthreadSize]
      omega

theorem ThreadVector.Placed.housed (h : v.Placed G mmap n page) {ts : List α}
    (fits : (G.shape n).offset + gthreadSize * n ≤ pageSize) (values : v.toList = ts) :
    v.Housed ts := by
  have hsize := h.size
  have hin : ∀ i < v.size, v.start ≤ v.slot i ∧ page ≤ v.start ∧
      v.slot i + gthreadSize ≤ page + pageSize := by
    intro i hi
    have hstart := h.start (by omega)
    simp only [ThreadVector.slot,gthreadSize] at *
    omega
  refine ⟨fun i hi a hlo hhi => ?_,fun i hi a hlo hhi c hc hac => ?_,values⟩
  · obtain ⟨hslot,hpage,hend⟩ := hin i hi
    exact ⟨page,h.current,by omega,by omega⟩
  · obtain ⟨hslot,hpage,hend⟩ := hin i hi
    have := h.apart c hc
    omega

theorem after_append (mem : Nat → α) (ts : List α) (t : α) :
    ThreadVector.after G mmap mem (ts ++ [t]) =
      (ThreadVector.after G mmap mem ts).pushBack G mmap t := by
  simp [ThreadVector.after]

theorem Growth.Fits.offset (h : G.Fits n) : (G.shape n).offset + gthreadSize * n ≤ pageSize :=
  h n le_rfl

theorem Growth.fits_succ (h : G.Fits n)
    (next : (G.shape (n + 1)).offset + gthreadSize * (n + 1) ≤ pageSize) : G.Fits (n + 1) := by
  intro m hm
  obtain rfl | hlt := Nat.eq_or_lt_of_le hm
  · exact next
  · exact h m (Nat.lt_succ_iff.mp hlt)

theorem placed_after (mem : Nat → α) {ts : List α}
    (hmmap : Set.InjOn mmap (Set.Iio (ts.length + 1))) (fits : G.Fits ts.length) :
    ∃ page, (ThreadVector.after G mmap mem ts).Placed G mmap ts.length page ∧
      (ThreadVector.after G mmap mem ts).toList = ts := by
  induction ts using List.reverseRecOn with
  | nil => exact ⟨mmap 0,placed_init G mmap mem,rfl⟩
  | append_singleton ts t ih =>
    rw [List.length_append,List.length_singleton] at hmmap fits ⊢
    have hsub : Set.Iio (ts.length + 1) ⊆ Set.Iio (ts.length + 1 + 1) :=
      Set.Iio_subset_Iio (Nat.le_succ _)
    have hold : G.Fits ts.length := fun m hm => fits m (hm.trans (Nat.le_succ _))
    obtain ⟨page,hplaced,hlist⟩ := ih (hmmap.mono hsub) hold
    obtain ⟨page',hnext⟩ := hplaced.next hold.offset hmmap (Nat.lt_succ_self _) t
    rw [after_append]
    refine ⟨page',hnext,?_⟩
    rw [hplaced.toList_pushBack hnext fits.offset,hlist]

/-- The vector is housed after every `push_back` exactly as long as the elements fit. -/
theorem housed_iff_fits (mem : Nat → α) {ts : List α}
    (hmmap : Set.InjOn mmap (Set.Iio (ts.length + 1))) :
    (∀ pre post, ts = pre ++ post → (ThreadVector.after G mmap mem pre).Housed pre) ↔
      G.Fits ts.length := by
  constructor
  · intro hall
    induction ts using List.reverseRecOn with
    | nil =>
      intro m hm
      obtain rfl : m = 0 := Nat.le_zero.mp hm
      exact Nat.zero_le _
    | append_singleton ts t ih =>
      rw [List.length_append,List.length_singleton] at hmmap ⊢
      have hsub : Set.Iio (ts.length + 1) ⊆ Set.Iio (ts.length + 1 + 1) :=
        Set.Iio_subset_Iio (Nat.le_succ _)
      have hold : G.Fits ts.length := ih (hmmap.mono hsub)
        fun pre post hs => hall pre (post ++ [t]) (by simp [hs])
      obtain ⟨page,hplaced,-⟩ := placed_after mem (hmmap.mono hsub) hold
      obtain ⟨page',hnext⟩ := hplaced.next hold.offset hmmap (Nat.lt_succ_self _) t
      have hlast := hall (ts ++ [t]) [] (by simp)
      rw [after_append] at hlast
      exact Growth.fits_succ hold (hnext.fits_of_housed hlast)
  · intro fits pre post hs
    have hle : pre.length ≤ ts.length := by simp [hs]
    have hpre : G.Fits pre.length := fun m hm => fits m (hm.trans hle)
    obtain ⟨page,hplaced,hlist⟩ := placed_after mem
      (hmmap.mono (Set.Iio_subset_Iio (Nat.succ_le_succ hle))) hpre
    exact hplaced.housed hpre.offset hlist

theorem fits_iff_limit : G.Fits n ↔ n ≤ G.limit := by
  constructor
  · intro fits
    refine Nat.le_findGreatest ?_ fits
    have := fits.offset
    simp only [gthreadSize,pageSize] at *
    omega
  · intro hle m hm
    have hmax : G.Fits G.limit := Nat.findGreatest_spec (m := 0) (Nat.zero_le _) fun m hm => by
      obtain rfl : m = 0 := Nat.le_zero.mp hm
      exact Nat.zero_le _
    exact hmax m (hm.trans hle)

/-- Where a page ends no other begins, but for one that has no block yet. -/
theorem PageRun.Tidy.boundary {r : PageRun} {first counted : Nat}
    (h : r.Tidy mmap page first counted) {p q : PageAddr} (hq : q ∈ r.pages)
    (hlo : q.val ≤ p + pageSize) (hhi : p.val < q)
    (hown : ∀ c ∈ r.blocks, ¬ (c.1 ≤ p.val + pageSize ∧ p.val + pageSize < c.1 + c.2)) :
    q = page ∧ first + counted = 0 ∧ p.val + pageSize = q := by
  have hstart := PageAddr.next hhi hlo
  by_contra hused
  have hbegun : q ≠ page ∨ 0 < first + counted := by
    by_contra hfree
    obtain ⟨hqp,hzero⟩ := not_or.mp hfree
    exact hused ⟨not_not.mp hqp,Nat.eq_zero_of_not_pos hzero,hstart⟩
  obtain ⟨c,hc,hcq,hpos⟩ := h.begun q hq hbegun
  exact hown c hc ⟨by omega,by omega⟩

theorem PageRun.Tidy.serves_room {r : PageRun} {first counted bytes : Nat}
    (h : r.Tidy mmap page first counted) (hf : ¬ r.alloc.Full bytes) :
    r.Serves mmap bytes ↔ first + counted + bytes ≤ pageSize := by
  have hhead := h.head
  have hroom := h.room
  have hret := PageAllocator.start_room hf (mmap r.pages.length)
  have hpages : (r.allocate mmap bytes).pages = r.pages := by rw [pageRun_room hf]
  simp only [PageRun.Serves,PageRun.Mapped,hret,hpages]
  constructor
  · intro hall
    by_contra hover
    obtain ⟨⟨q,hq,hlo,hhi⟩,hown⟩ := hall (page + pageSize) (by omega) (by omega)
    obtain ⟨rfl,-,hstart⟩ := h.boundary hq hlo (by omega) hown
    exact absurd hstart (by simp [pageSize])
  · intro hfit a hlo hhi
    refine ⟨⟨page,h.current,by omega,by omega⟩,fun c hc hac => ?_⟩
    have := h.apart (n := bytes) (by omega) hc
    omega

/-- A block at the start of a new page can use the page above that one only while nothing has
been put there. -/
theorem PageRun.Tidy.serves_page {r : PageRun} {first counted bytes : Nat}
    (h : r.Tidy mmap page first counted) (hnew : ∀ q ∈ r.pages, q ≠ mmap r.pages.length)
    (hf : r.alloc.Full bytes) :
    r.Serves mmap bytes ↔ bytes ≤ pageSize ∨ first + counted = 0 ∧ bytes ≤ 2 * pageSize ∧
      (mmap r.pages.length).val + pageSize = page := by
  have hhead := h.head
  have hret := PageAllocator.start_full hf (mmap r.pages.length)
  have hpages : (r.allocate mmap bytes).pages = mmap r.pages.length :: r.pages := by
    rw [pageRun_full hf]
  simp only [PageRun.Serves,PageRun.Mapped,hret,hpages]
  generalize mmap r.pages.length = new at *
  constructor
  · intro hall
    by_contra hover
    obtain ⟨hbig,hcorner⟩ := not_or.mp hover
    obtain ⟨⟨q,hq,hlo,hhi⟩,hown⟩ := hall (new + pageSize) (by omega) (by omega)
    obtain rfl | hq := List.mem_cons.mp hq
    · omega
    · obtain ⟨rfl,hzero,hstart⟩ := h.boundary hq hlo (by omega) hown
      -- a block that goes on past the page above would need a third one
      have hlong : 2 * pageSize < bytes := by
        by_contra hshort
        exact hcorner ⟨hzero,not_lt.mp hshort,hstart⟩
      obtain ⟨⟨q',hq',hlo',hhi'⟩,hown'⟩ := hall (q + pageSize) (by omega) (by omega)
      obtain rfl | hq' := List.mem_cons.mp hq'
      · omega
      · obtain ⟨rfl,-,hstart'⟩ := h.boundary hq' hlo' (by omega) hown'
        simp only [pageSize] at hstart'
        omega
  · intro hfit a hlo hhi
    by_cases hpage : a < new + pageSize
    · refine ⟨⟨new,List.mem_cons_self,hlo,hpage⟩,fun c hc hac => ?_⟩
      obtain ⟨q,hq,hqlo,hqhi,-⟩ := h.inside c hc
      have := PageAddr.apart (hnew q hq)
      omega
    · obtain hsmall | ⟨hzero,hsize,habove⟩ := hfit
      · omega
      · refine ⟨⟨page,List.mem_cons_of_mem _ h.current,by omega,by omega⟩,fun c hc hac => ?_⟩
        obtain ⟨q,hq,hqlo,hqhi,hcur⟩ := h.inside c hc
        by_cases hqp : q = page
        · have := hcur hqp
          omega
        · have := PageAddr.apart hqp
          omega

theorem PageRun.Tidy.serves_iff {r : PageRun} {first counted bytes : Nat}
    (h : r.Tidy mmap page first counted) (hnew : ∀ q ∈ r.pages, q ≠ mmap r.pages.length) :
    r.Serves mmap bytes ↔ r.Room mmap page first counted bytes := by
  unfold PageRun.Room
  split
  · exact h.serves_page hnew ‹_›
  · exact h.serves_room ‹_›

theorem serves_init (hne : mmap 0 ≠ mmap 1) (bytes : Nat) :
    (PageRun.init mmap).Serves mmap bytes ↔ bytes ≤ pageSize ∨
      bytes ≤ 2 * pageSize ∧ (mmap 1).val + pageSize = mmap 0 := by
  have hnew : ∀ q ∈ (PageRun.init mmap).pages, q ≠ mmap 1 := by
    intro q hq
    rwa [List.mem_singleton.mp hq]
  rw [(tidy_init mmap).serves_iff hnew,PageRun.Room]
  split
  · simp [PageRun.init]
  · rename_i hf
    have hsmall : ¬ (pageSize < bytes ∧ bytes ≤ 2 * pageSize) := by
      rintro ⟨hlo,hhi⟩
      obtain ⟨hle,hfit,-⟩ := roundUp_fits hhi (by decide) (by decide)
      refine hf ?_
      simp only [PageAllocator.Full,PageRun.init,PageAllocator.pageAllocate,pageSize] at *
      omega
    omega

end Runs

/-- The thread table stays in memory of its own and keeps its elements exactly as long as no
more than `limit` threads have been appended. As long as no page has overflowed, a request of an
allocator is served exactly when there is room for it; the first one when it fits in a page, or
in two of which the later one lies below the first. -/
theorem thread_table_iff (G : Growth) (mmap : Nat → PageAddr) (mem : Nat → α)
    (calls : List (Creation α)) (hmmap : Set.InjOn mmap (Set.Iio ((pushed calls).length + 2))) :
    ((∀ pre post, pushed calls = pre ++ post → (ThreadVector.after G mmap mem pre).Housed pre) ↔
      (pushed calls).length ≤ G.limit) ∧
    (∀ r page first counted, PageRun.Tidy mmap r page first counted →
      (∀ q ∈ r.pages, q ≠ mmap r.pages.length) → ∀ size, ∀ num ≤ maxSize size,
      (r.Serves mmap (num * size) ↔ r.Room mmap page first counted (num * size))) ∧
    ∀ size, ∀ num ≤ maxSize size, (PageRun.init mmap).Serves mmap (num * size) ↔
      num * size ≤ pageSize ∨ num * size ≤ 2 * pageSize ∧ (mmap 1).val + pageSize = mmap 0 := by
  have hne : mmap 0 ≠ mmap 1 := by
    intro heq
    exact absurd (hmmap (Set.mem_Iio.mpr (by omega)) (Set.mem_Iio.mpr (by omega)) heq) (by decide)
  refine ⟨?_,fun _ _ _ _ h hnew _ _ _ => h.serves_iff hnew,fun _ _ _ => serves_init hne _⟩
  rw [housed_iff_fits mem (hmmap.mono (Set.Iio_subset_Iio (Nat.le_succ _))),fits_iff_limit]

theorem limit_le (G : Growth) : G.limit ≤ 256 := Nat.findGreatest_le _

/-- One page of elements. -/
theorem limit_doubling : Growth.doubling.limit = 256 := by decide +kernel

/-- Three threads, the second of which a rollback appends twice more; and an allocator that has
returned 4000 bytes, asked for the rest of its page and for more than that. -/
theorem thread_table_rolled_back :
    ((∀ pre post, pushed [⟨5,0⟩,⟨6,2⟩,⟨7,0⟩] = pre ++ post →
      (ThreadVector.after Growth.doubling downwards (fun _ => 0) pre).Housed pre) ↔
      (pushed [⟨5,0⟩,⟨6,2⟩,⟨7,0⟩]).length ≤ Growth.doubling.limit) ∧
    pushed [⟨5,0⟩,⟨6,2⟩,⟨7,0⟩] = [5,6,6,6,7] ∧
    (pushed [⟨5,0⟩,⟨6,2⟩,⟨7,0⟩]).length ≤ Growth.doubling.limit ∧
    (PageRun.after downwards [4000]).Serves downwards (6 * gthreadSize) ∧
    ¬ (PageRun.after downwards [4000]).Serves downwards (257 * gthreadSize) := by
  obtain ⟨hhoused,hserves,-⟩ := thread_table_iff Growth.doubling downwards (fun _ => 0)
    [⟨5,0⟩,⟨6,2⟩,⟨7,0⟩] (downwards_injOn (by decide))
  have htidy : (PageRun.after downwards [4000]).Tidy downwards (downwards 0) 0 4000 :=
    (tidy_init downwards).allocate
      (by decide : 0 + (0 + roundUp 4000 minAlignedSize) ≤ pageSize) (by decide)
  have hnew : ∀ q ∈ (PageRun.after downwards [4000]).pages,
      q ≠ downwards (PageRun.after downwards [4000]).pages.length := by decide
  have hiff := hserves _ _ 0 4000 htidy hnew gthreadSize
  refine ⟨hhoused,by decide,by rw [limit_doubling]; decide,?_,fun h => ?_⟩
  · exact (hiff 6 (by decide)).mpr (by decide)
  · have hroom := (hiff 257 (by decide)).mp h
    revert hroom
    decide

/-- The thread after the first 256 is written over the oldest one. -/
theorem thread_table_overflow :
    (¬ ∀ pre post, pushed ((List.range 257).map fun i => ⟨i,0⟩) = pre ++ post →
      (ThreadVector.after Growth.doubling downwards (fun _ => 999) pre).Housed pre) ∧
    (ThreadVector.after Growth.doubling downwards (fun _ => 999)
      (pushed ((List.range 257).map fun i => ⟨i,0⟩))).toList.head? = some 256 ∧
    ¬ (PageRun.init downwards).Serves downwards (513 * gthreadSize) := by
  have hhead : (ThreadVector.after Growth.doubling downwards (fun _ => 999)
      (pushed ((List.range 257).map fun i => ⟨i,0⟩))).toList.head? = some 256 := by
    decide +kernel
  refine ⟨fun hall => ?_,hhead,fun hserves => ?_⟩
  · rw [(hall _ [] (List.append_nil _).symm).values] at hhead
    revert hhead
    decide +kernel
  · have hne : downwards 0 ≠ downwards 1 := by decide
    have hsize := (serves_init hne _).mp hserves
    revert hsize
    decide

end GThread
