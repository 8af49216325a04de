import GThread.Util

/-! The page allocators (`private_alloc.hh`, `share_alloc.hh`), whose code differs in the flags
of one `mmap` only: a cursor into the page mapped last, and how much of it is used. -/
namespace GThread

/-- What `mmap(NULL, PAGE_SIZE, ...)` returns. -/
abbrev PageAddr := { page : Nat // pageSize ∣ page ∧ page + pageSize < 2^64 }

theorem PageAddr.aligned (page : PageAddr) : page.val % minAlignedSize = 0 := by
  obtain ⟨k,hk⟩ := page.2.1
  rw [hk]
  simp only [pageSize,minAlignedSize]
  omega

/-- `head_` and `used_`, or what `share_head_` and `share_used_` point to. -/
structure PageAllocator where
  head : Nat
  used : Nat

/-- `PageAllocate`, and so the constructor. -/
def PageAllocator.pageAllocate (page : PageAddr) : PageAllocator := ⟨page,0⟩

def PageAllocator.Full (t : PageAllocator) (bytes : Nat) : Prop :=
  (t.used + roundUp bytes minAlignedSize) % 2^64 > pageSize

instance (t : PageAllocator) (bytes : Nat) : Decidable (t.Full bytes) :=
  inferInstanceAs (Decidable (_ < _))

/-- `allocate`; `page` is what `mmap` returns if it is called. -/
def PageAllocator.allocate (t : PageAllocator) (bytes : Nat) (page : PageAddr) :
    Nat × PageAllocator :=
  let totalSize := roundUp bytes minAlignedSize
  let t := if t.Full bytes then pageAllocate page
    else { t with used := (t.used + totalSize) % 2^64 }
  (t.head,{ t with head := (t.head + totalSize) % 2^64 })

theorem PageAllocator.start_room {t : PageAllocator} {bytes : Nat} (h : ¬ t.Full bytes)
    (page : PageAddr) : (t.allocate bytes page).1 = t.head := by
  simp [PageAllocator.allocate,h]

theorem PageAllocator.start_full {t : PageAllocator} {bytes : Nat} (h : t.Full bytes)
    (page : PageAddr) : (t.allocate bytes page).1 = page := by
  simp [PageAllocator.allocate,h,PageAllocator.pageAllocate]

theorem roundUp_head {page : PageAddr} {head bytes : Nat} (aligned : head % minAlignedSize = 0)
    (fits : head + bytes ≤ page + pageSize) :
    head + bytes ≤ (head + roundUp bytes minAlignedSize) % 2^64 ∧
      (head + roundUp bytes minAlignedSize) % 2^64 ≤ page + pageSize ∧
      (head + roundUp bytes minAlignedSize) % 2^64 % minAlignedSize = 0 := by
  have hpage := page.aligned
  have hend := page.2.2
  obtain ⟨hle,hfit,hround⟩ := roundUp_fits (x := bytes) (n := page + pageSize - head) (by omega)
    (by simp only [minAlignedSize,pageSize] at *; omega) (by omega)
  simp only [minAlignedSize] at *
  omega

end GThread
