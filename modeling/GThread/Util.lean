import Mathlib.Algebra.Order.Group.Nat
import Mathlib.Algebra.Ring.Divisibility.Basic
import Mathlib.Tactic.Linarith

/-! Constants, rounding macros and heap layout (`util.hh`), with the page arithmetic the
rest of the development uses. -/
namespace GThread

abbrev Byte := UInt8

/-- Bytes under the addresses of the local heap. The shared file is written down this way
too: its byte at offset `o` stands under `localHeap + o`, where a page of the local heap
that holds no private copy shows it. -/
abbrev Heap := Nat → Byte

def pageSize : Nat := 0x1000
def heapSize : Nat := 512 * 1024
def numSubheap : Nat := 16
def subheapSize : Nat := heapSize / numSubheap
def minAlignedSize : Nat := 16

def roundUp (x y : Nat) : Nat := if x % y = 0 then x else (x + (y - x % y)) % 2^64
def roundDown (x y : Nat) : Nat := if x % y = 0 then x else x - x % y

theorem roundDown_eq (x y : Nat) : roundDown x y = x - x % y := by
  unfold roundDown
  split <;> omega

theorem roundUp_fits {x n : Nat} (h : x ≤ n) (hn : n % minAlignedSize = 0) (hw : n < 2^64) :
    x ≤ roundUp x minAlignedSize ∧ roundUp x minAlignedSize ≤ n ∧
      roundUp x minAlignedSize % minAlignedSize = 0 := by
  unfold roundUp
  split <;> simp only [minAlignedSize] at * <;> omega

def allignedTotal (sizes : List Nat) : Nat :=
  (sizes.map fun size => roundUp size minAlignedSize).sum

theorem allignedTotal_append (sizes sizes' : List Nat) :
    allignedTotal (sizes ++ sizes') = allignedTotal sizes + allignedTotal sizes' := by
  simp [allignedTotal]

theorem allignedTotal_singleton (size : Nat) :
    allignedTotal [size] = roundUp size minAlignedSize := by
  simp [allignedTotal]

def pageOf (a : Nat) : Nat := roundDown a pageSize

theorem pageSize_dvd_pageOf (a : Nat) : pageSize ∣ pageOf a := by
  rw [pageOf,roundDown_eq]
  exact Nat.dvd_sub_mod a

theorem pageOf_eq_iff {page : Nat} (hp : pageSize ∣ page) (a : Nat) :
    pageOf a = page ↔ page ≤ a ∧ a < page + pageSize := by
  obtain ⟨k,rfl⟩ := hp
  rw [pageOf,roundDown_eq]
  simp only [pageSize]
  omega

/-- Where the two mappings of the shared file lie. -/
structure Layout where
  localHeap : Nat
  globalHeap : Nat
  localAligned : pageSize ∣ localHeap
  globalAligned : pageSize ∣ globalHeap
  localFits : localHeap + heapSize < 2^64
  globalFits : globalHeap + heapSize < 2^64

variable (L : Layout)

def Layout.InHeap (a : Nat) : Prop := L.localHeap ≤ a ∧ a < L.localHeap + heapSize

def Layout.HeapPage (page : Nat) : Prop := pageSize ∣ page ∧ L.InHeap page

instance (a : Nat) : Decidable (L.InHeap a) := inferInstanceAs (Decidable (_ ∧ _))
instance (page : Nat) : Decidable (L.HeapPage page) := inferInstanceAs (Decidable (_ ∧ _))

variable {L}

theorem Layout.heapPage_pageOf {a : Nat} (h : L.InHeap a) : L.HeapPage (pageOf a) := by
  refine ⟨pageSize_dvd_pageOf a,?_⟩
  obtain ⟨k,hk⟩ := L.localAligned
  have hp := (pageOf_eq_iff (pageSize_dvd_pageOf a) a).mp rfl
  obtain ⟨j,hj⟩ := pageSize_dvd_pageOf a
  simp only [Layout.InHeap,pageSize,heapSize] at *
  omega

theorem Layout.HeapPage.inHeap {page a : Nat} (h : L.HeapPage page) (ha : pageOf a = page) :
    L.InHeap a := by
  obtain ⟨hd,hh⟩ := h
  have hp := (pageOf_eq_iff hd a).mp ha
  obtain ⟨k,hk⟩ := L.localAligned
  obtain ⟨j,rfl⟩ := hd
  simp only [Layout.InHeap,pageSize,heapSize] at *
  omega

variable (L)

/-- `global_pos` in `CommitHeap`, in 64-bit arithmetic. -/
def Layout.globalPos (page : Nat) : Nat :=
  (L.globalHeap + (page + 2^64 - L.localHeap) % 2^64) % 2^64

theorem Layout.globalPos_eq {page : Nat} (h : L.InHeap page) :
    L.globalPos page = L.globalHeap + (page - L.localHeap) := by
  have hl := L.localFits
  have hg := L.globalFits
  simp only [Layout.globalPos,Layout.InHeap] at *
  omega

/-- `memcpy(dst, src, PAGE_SIZE)` into the shared mapping, so far as it got: the bytes
`part` picks have arrived. `view` is the memory `src` lies in, `file` the shared file. -/
def Layout.memcpy (dst src : Nat) (part : Nat → Bool) (view file : Heap) : Heap := fun a =>
  let g := L.globalHeap + (a - L.localHeap)
  if L.InHeap a ∧ dst ≤ g ∧ g < dst + pageSize ∧ part a = true then view (src + (g - dst))
  else file a

/-- The offset arithmetic of `CommitHeap` puts every byte of a heap page where it was. -/
theorem Layout.memcpy_globalPos {page : Nat} (h : L.HeapPage page) (part : Nat → Bool)
    (view file : Heap) (a : Nat) :
    L.memcpy (L.globalPos page) page part view file a =
      if pageOf a = page ∧ part a = true then view a else file a := by
  have hp := pageOf_eq_iff h.1 a
  rw [L.globalPos_eq h.2]
  unfold Layout.memcpy
  by_cases ha : pageOf a = page
  · have hin : L.InHeap a := h.inHeap ha
    obtain ⟨hlo,hhi⟩ := hp.mp ha
    have hl := h.2.1
    have hsrc : page + (L.globalHeap + (a - L.localHeap) -
        (L.globalHeap + (page - L.localHeap))) = a := by omega
    have hbounds : L.globalHeap + (page - L.localHeap) ≤ L.globalHeap + (a - L.localHeap) ∧
        L.globalHeap + (a - L.localHeap) <
          L.globalHeap + (page - L.localHeap) + pageSize := by omega
    simp only [hin,ha,hbounds,hsrc,true_and]
  · have hl := h.2.1
    have hout : ¬ (L.InHeap a ∧ L.globalHeap + (page - L.localHeap) ≤
        L.globalHeap + (a - L.localHeap) ∧ L.globalHeap + (a - L.localHeap) <
          L.globalHeap + (page - L.localHeap) + pageSize ∧ part a = true) := by
      intro hpage
      obtain ⟨hin,h1,h2,-⟩ := hpage
      have := hin.1
      exact ha (hp.mpr (by omega))
    rw [if_neg hout,if_neg fun hc => ha hc.1]

def Layout.adjacent : Layout := ⟨0x100000,0x180000,by decide,by decide,by decide,by decide⟩

end GThread
