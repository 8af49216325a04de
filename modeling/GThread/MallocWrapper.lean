import GThread.Realloc
import GThread.Library.Masks

/-! The other allocation functions of the malloc wrapper (`wrapper.hh`) that `gnuwrapper.cc`
exports, over the bump allocator. Each either returns `NULL`, just where the request cannot be
served, or an aligned block that overlaps no other, except that `memalign` compares the low bits
of a pointer with the pointer, and `aligned_alloc` rounds up without a check. -/
namespace GThread
open Transition Masks

def zeroBytes (dst n : Nat) (mem : Heap) : Heap := fun a =>
  if dst ≤ a ∧ a < dst + n then 0 else mem a

def customCalloc (pid nelem elsize : Nat) (h : Subheaps) (mem : Heap) : Nat × Subheaps × Heap :=
  let n := nelem * elsize % 2^64
  if elsize ≠ 0 ∧ nelem ≠ n / elsize then (0,h,mem)
  else
    let (ptr,h) := customMalloc pid n h
    (ptr,h,if ptr ≠ 0 then zeroBytes ptr n mem else mem)

def nonPowerOfTwo (alignment : Nat) : Bool := alignment = 0 ∨ alignment &&& (alignment - 1) ≠ 0

def customMemalign (pid alignment size : Nat) (h : Subheaps) : Nat × Subheaps :=
  if nonPowerOfTwo alignment then (0,h)
  else if alignment = 8 then customMalloc pid size h
  else
    let (ptr,h) := customMalloc pid size h
    if ptr &&& (alignment - 1) = ptr then (ptr,h)
    else
      let h := xxfree ptr h
      let (ptr,h) := customMalloc pid ((size + 2 * alignment) % 2^64) h
      let alignedPtr := (ptr + alignment - 1) % 2^64 &&& complement 64 (alignment - 1)
      (alignedPtr,h)

def einval : Nat := 22
def enomem : Nat := 12

/-- `CUSTOM_POSIX_MEMALIGN`: what it returns, `*memptr` and the cursors. -/
def customPosixMemalign (pid memptr alignment size : Nat) (h : Subheaps) : Nat × Nat × Subheaps :=
  if nonPowerOfTwo alignment then (einval,memptr,h)
  else
    let (ptr,h) := customMemalign pid alignment size h
    if ptr = 0 then (enomem,memptr,h) else (0,ptr,h)

/-- `CUSTOM_ALIGNED_ALLOC`, where `alignment` is not 0. -/
def customAlignedAlloc (pid alignment size : Nat) (h : Subheaps) : Nat × Subheaps :=
  customMemalign pid alignment ((size + alignment - size % alignment) % 2^64) h

/-- A call that allocates. `operator new` is `malloc`. -/
inductive Alloc where
  | malloc (size : Nat)
  | calloc (nelem elsize : Nat)
  | memalign (alignment size : Nat)
  | posixMemalign (memptr alignment size : Nat)
  | alignedAlloc (alignment size : Nat)

namespace Alloc

def call (pid : Nat) (h : Subheaps) (mem : Heap) : Alloc → Nat × Subheaps × Heap
  | malloc size => ((customMalloc pid size h).1,(customMalloc pid size h).2,mem)
  | calloc nelem elsize => customCalloc pid nelem elsize h mem
  | memalign alignment size =>
    ((customMemalign pid alignment size h).1,(customMemalign pid alignment size h).2,mem)
  | posixMemalign memptr alignment size =>
    let (err,ptr,h) := customPosixMemalign pid memptr alignment size h
    (if err = 0 then ptr else 0,h,mem)
  | alignedAlloc alignment size =>
    ((customAlignedAlloc pid alignment size h).1,(customAlignedAlloc pid alignment size h).2,mem)

def Valid : Alloc → Prop
  | malloc size => size < 2^64
  | calloc nelem elsize => nelem < 2^64 ∧ elsize < 2^64
  | memalign alignment size | posixMemalign _ alignment size => alignment < 2^64 ∧ size < 2^64
  | alignedAlloc alignment size => alignment ≠ 0 ∧ alignment < 2^64 ∧ size < 2^64

def size : Alloc → Nat
  | malloc size => size
  | calloc nelem elsize => nelem * elsize
  | memalign _ size | posixMemalign _ _ size | alignedAlloc _ size => size

def alignment : Alloc → Nat
  | malloc _ | calloc _ _ => minAlignedSize
  | memalign alignment _ | posixMemalign _ alignment _ | alignedAlloc alignment _ => alignment

end Alloc

/-- The alignment is not larger than the first block's address, which its low bits then are not
equal to. -/
def MemalignSound (cursor alignment size : Nat) : Prop :=
  alignment.isPowerOfTwo → size < 2^63 → alignment ≠ 8 → alignment ≤ cursor

def taken (sizes : List Nat) : Nat := allignedTotal (sizes.filter fun size => size < 2^63)

def memalignRequests (cursor alignment size : Nat) : List Nat :=
  if alignment.isPowerOfTwo then
    if alignment = 8 ∨ cursor < alignment then [size] else [size,size + 2 * alignment]
  else []

namespace Alloc

/-- The two slips do not show. -/
def Sound (cursor : Nat) : Alloc → Prop
  | malloc _ | calloc _ _ => True
  | memalign alignment size | posixMemalign _ alignment size =>
    MemalignSound cursor alignment size
  | alignedAlloc alignment size => alignment.isPowerOfTwo →
    size + alignment < 2^64 ∧ MemalignSound cursor alignment (size + alignment - size % alignment)

def requests (cursor : Nat) : Alloc → List Nat
  | malloc size => [size]
  | calloc nelem elsize => [nelem * elsize]
  | memalign alignment size | posixMemalign _ alignment size =>
    memalignRequests cursor alignment size
  | alignedAlloc alignment size =>
    memalignRequests cursor alignment ((size + alignment - size % alignment) % 2^64)

end Alloc

structure Served (refused : Prop) (alignment size cursor q cursor' : Nat) : Prop where
  null : q = 0 ↔ refused
  aligned : q ≠ 0 → alignment ∣ q
  fresh : q ≠ 0 → cursor ≤ q ∧ q + size ≤ cursor'

def Client.cursor (s : Client) (pid : Nat) : Nat := s.subheaps (subheapIndex pid)

inductive Client.Call where
  | basic (x : Client.Act)
  | alloc (i : Nat) (c : Alloc)

inductive Client.Calls (L : Layout) (pid : Nat) (s : Client) : Client.Call → Client → Prop where
  | basic {x s'} : Client.Step L pid s x s' → Calls L pid s (.basic x) s'
  | alloc {i c} : c.Valid → s.chunks i = none →
      s.cursor pid + taken (c.requests (s.cursor pid)) ≤ L.subheap (subheapIndex pid + 1) →
      Calls L pid s (.alloc i c)
        ({ s with
          subheaps := (c.call pid s.subheaps s.mem).2.1
          mem := (c.call pid s.subheaps s.mem).2.2 }.bind i
          (c.call pid s.subheaps s.mem).1 c.size)

section Calls
variable {L : Layout} {pid size : Nat} {h : Subheaps}

end Calls

section Runs
variable {L : Layout} {pid : Nat} {s s' : Client}

theorem Client.Placed.behind (hs : s.Placed L pid) {q size : Nat} (hq : s.cursor pid ≤ q)
    {j : Nat} {d : Chunk} (hd : s.chunks j = some d) : Chunk.Apart ⟨q,size⟩ d :=
  fun _ _ => .inr ((hs.below j d hd).2.trans hq)

end Runs

end GThread
