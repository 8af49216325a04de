import GThread.BumpAllocator
import Mathlib.Data.List.Induction

/-! How far one process gets in its subheap. `xxmalloc` does not check whether the subheap has
depleted, so its blocks stay inside as long as the requests of the process fit, and no longer. -/
namespace GThread
variable {L : Layout} {pid size : Nat} {h : Subheaps}

def Subheaps.after (pid : Nat) (h : Subheaps) (sizes : List Nat) : Subheaps :=
  sizes.foldl (fun h size => (xxmalloc pid size h).2) h

theorem after_snoc (pid : Nat) (h : Subheaps) (sizes : List Nat) (size : Nat) :
    h.after pid (sizes ++ [size]) = (xxmalloc pid size (h.after pid sizes)).2 := by
  simp [Subheaps.after]

/-- The block of the call that follows `pre`, rounded up to 16 bytes, lies in the subheap of the
process and apart from the blocks of the calls before, and no address wraps around. -/
structure Subheaps.Serves (L : Layout) (pid : Nat) (h : Subheaps) (pre : List Nat)
    (size : Nat) : Prop where
  aligned : (xxmalloc pid size (h.after pid pre)).1 % minAlignedSize = 0
  inside : L.subheap (subheapIndex pid) ≤ (xxmalloc pid size (h.after pid pre)).1 ∧
    (xxmalloc pid size (h.after pid pre)).1 + roundUp size minAlignedSize ≤
      L.subheap (subheapIndex pid + 1)
  apart : ∀ pre' size' mid, pre = pre' ++ size' :: mid →
    (xxmalloc pid size' (h.after pid pre')).1 + roundUp size' minAlignedSize ≤
      (xxmalloc pid size (h.after pid pre)).1 ∨
    (xxmalloc pid size (h.after pid pre)).1 + roundUp size minAlignedSize ≤
      (xxmalloc pid size' (h.after pid pre')).1
  noWrap : size ≤ roundUp size minAlignedSize ∧
    h.after pid pre (subheapIndex pid) + roundUp size minAlignedSize < 2^64

def Subheaps.Stays (L : Layout) (pid : Nat) (h : Subheaps) (sizes : List Nat) : Prop :=
  ∀ pre size post, sizes = pre ++ size :: post →
    (xxmalloc pid size (h.after pid pre)).1 = 0 ∧
      (xxmalloc pid size (h.after pid pre)).2 = h.after pid pre ∨ h.Serves L pid pre size

theorem roundUp_malloc (h : size < 2^63) : size ≤ roundUp size minAlignedSize ∧
    roundUp size minAlignedSize ≤ 2^63 ∧ roundUp size minAlignedSize % minAlignedSize = 0 :=
  roundUp_fits h.le (by decide) (by decide)

/-- As long as the requests fit they move the cursor by their total. -/
theorem after_eq (hr : h.InRange L) {sizes : List Nat} (hs : ∀ size ∈ sizes, size < 2^63)
    (fits : h (subheapIndex pid) + allignedTotal sizes ≤ L.subheap (subheapIndex pid + 1)) :
    h.after pid sizes (subheapIndex pid) = h (subheapIndex pid) + allignedTotal sizes ∧
      h.after pid sizes (subheapIndex pid) % minAlignedSize = 0 := by
  obtain ⟨hal,-,-⟩ := hr (subheapIndex pid)
  obtain ⟨-,-,hend⟩ := L.subheap_spec (subheapIndex pid).isLt
  induction sizes using List.reverseRecOn with
  | nil => exact ⟨rfl,hal⟩
  | append_singleton sizes size ih =>
    rw [allignedTotal_append,allignedTotal_singleton] at fits ⊢
    obtain ⟨heq,hmod⟩ := ih (fun x hx => hs x (List.mem_append_left _ hx)) (by omega)
    obtain ⟨-,-,hround⟩ := roundUp_malloc (hs size (by simp))
    have hnext : h.after pid (sizes ++ [size]) (subheapIndex pid) =
        h.after pid sizes (subheapIndex pid) + roundUp size minAlignedSize := by
      rw [after_snoc]
      simp only [xxmalloc,Function.update_self]
      exact Nat.mod_eq_of_lt (by omega)
    rw [hnext]
    refine ⟨by omega,?_⟩
    rw [Nat.add_mod,hmod,hround]
    rfl

/-- Blocks stay in the subheap exactly when all requests together, each rounded up to 16 bytes,
fit in what is left of it. -/
theorem malloc_stays_iff (L : Layout) (pid : Nat) (h : Subheaps) (hr : h.InRange L)
    (sizes : List Nat) (hs : ∀ size ∈ sizes, size < 2^63) :
    h.Stays L pid sizes ↔
      h (subheapIndex pid) + allignedTotal sizes ≤ L.subheap (subheapIndex pid + 1) := by
  obtain ⟨-,hlo,hhi⟩ := hr (subheapIndex pid)
  obtain ⟨-,-,hend⟩ := L.subheap_spec (subheapIndex pid).isLt
  constructor
  · intro hstay
    induction sizes using List.reverseRecOn with
    | nil => simpa [allignedTotal] using hhi
    | append_singleton sizes size ih =>
      have hold := ih (fun x hx => hs x (List.mem_append_left _ hx))
        fun pre x post hsplit => hstay pre x (post ++ [size]) (by simp [hsplit])
      obtain ⟨heq,-⟩ := after_eq hr (fun x hx => hs x (List.mem_append_left _ hx)) hold
      obtain ⟨-,hround,-⟩ := roundUp_malloc (hs size (by simp))
      rw [allignedTotal_append,allignedTotal_singleton,← Nat.add_assoc,← heq]
      obtain ⟨-,hsame⟩ | hserves := hstay sizes size [] rfl
      · -- only a request of no bytes leaves the cursor where it is
        have hcur := congrFun hsame (subheapIndex pid)
        simp only [xxmalloc,Function.update_self] at hcur
        have hzero : roundUp size minAlignedSize = 0 := by omega
        rw [hzero,heq]
        exact hold
      · exact hserves.inside.2
  · intro fits pre size post hsplit
    subst hsplit
    have hpre : ∀ x ∈ pre, x < 2^63 := fun x hx => hs x (List.mem_append_left _ hx)
    have hsize := roundUp_malloc (hs size (by simp))
    have htotal : allignedTotal (pre ++ size :: post) =
        allignedTotal pre + (roundUp size minAlignedSize + allignedTotal post) := by
      simp [allignedTotal]
    have hfits : h (subheapIndex pid) + allignedTotal pre ≤ L.subheap (subheapIndex pid + 1) := by
      omega
    obtain ⟨heq,hmod⟩ := after_eq hr hpre hfits
    refine .inr ⟨hmod,⟨?_,?_⟩,?_,⟨hsize.1,?_⟩⟩
    · exact hlo.trans (by simp only [xxmalloc]; omega)
    · simp only [xxmalloc]
      omega
    · intro pre' size' mid hsplit
      subst hsplit
      have htotal' : allignedTotal (pre' ++ size' :: mid) =
          allignedTotal pre' + (roundUp size' minAlignedSize + allignedTotal mid) := by
        simp [allignedTotal]
      have hfits' : h (subheapIndex pid) + allignedTotal pre' ≤
          L.subheap (subheapIndex pid + 1) := by omega
      obtain ⟨heq',-⟩ := after_eq hr (fun x hx => hpre x (List.mem_append_left _ hx)) hfits'
      refine .inl ?_
      simp only [xxmalloc]
      omega
    · omega

/-- Two blocks of half a subheap. -/
theorem malloc_stays_halves : (globalHeapInit .adjacent).Stays .adjacent 1 [0x4000,0x4000] :=
  (malloc_stays_iff .adjacent 1 _ (globalHeapInit_inRange _) _ (by decide)).mpr (by decide)

/-- One byte more than a subheap gets a block that runs into the next subheap. -/
theorem malloc_stays_fails : ¬ (globalHeapInit .adjacent).Stays .adjacent 1 [0x8001] := by
  intro hstay
  obtain ⟨hnull,-⟩ | hserves := hstay [] 0x8001 [] rfl
  · revert hnull
    decide
  · have hend := hserves.inside.2
    revert hend
    decide

end GThread
