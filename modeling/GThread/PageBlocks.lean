import GThread.PageAllocator
import Mathlib.Data.List.Induction
import Mathlib.Data.Set.Function
import Mathlib.Order.Interval.Set.Defs

/-! Where the blocks of the page allocators lie. `allocate` maps a new page when a request does
not fit, but leaves the request out of the count of what is used of that page, so that a later
request can run past its end. -/
namespace GThread

structure PageRun where
  alloc : PageAllocator
  pages : List PageAddr
  blocks : List (Nat × Nat)

def PageRun.init (mmap : Nat → PageAddr) : PageRun := ⟨.pageAllocate (mmap 0),[mmap 0],[]⟩

def PageRun.allocate (mmap : Nat → PageAddr) (r : PageRun) (bytes : Nat) : PageRun :=
  let page := mmap r.pages.length
  let (ret,t) := r.alloc.allocate bytes page
  { alloc := t
    pages := if r.alloc.Full bytes then page :: r.pages else r.pages
    blocks := (ret,roundUp bytes minAlignedSize) :: r.blocks }

def PageRun.after (mmap : Nat → PageAddr) (requests : List Nat) : PageRun :=
  requests.foldl (PageRun.allocate mmap) (.init mmap)

/-- The next block lies in one of the pages and apart from all blocks so far. -/
def PageRun.Own (mmap : Nat → PageAddr) (r : PageRun) (bytes : Nat) : Prop :=
  let page := mmap r.pages.length
  let ret := (r.alloc.allocate bytes page).1
  (∃ q ∈ (r.allocate mmap bytes).pages, q.val ≤ ret ∧
    ret + roundUp bytes minAlignedSize ≤ q + pageSize) ∧
  ∀ c ∈ r.blocks, c.1 + c.2 ≤ ret ∨ ret + roundUp bytes minAlignedSize ≤ c.1

/-- The cursor is the used part past the start of the page mapped last. -/
def PageRun.Synced (r : PageRun) : Prop :=
  ∃ page, r.pages.head? = some page ∧ r.alloc.head = page + r.alloc.used ∧ r.alloc.used ≤ pageSize

/-- No page overflows: what is counted as used of it and the request it was mapped for, which is
not counted, never exceed the page together. -/
def Snug (first counted : Nat) : List Nat → Prop
  | [] => True
  | bytes :: requests =>
    let totalSize := roundUp bytes minAlignedSize
    if counted + totalSize ≤ pageSize then
      first + (counted + totalSize) ≤ pageSize ∧ Snug first (counted + totalSize) requests
    else Snug totalSize 0 requests

instance Snug.decide : (first counted : Nat) → (requests : List Nat) →
    Decidable (Snug first counted requests)
  | _, _, [] => .isTrue trivial
  | first, counted, bytes :: requests =>
    have := Snug.decide first (counted + roundUp bytes minAlignedSize) requests
    have := Snug.decide (roundUp bytes minAlignedSize) 0 requests
    inferInstanceAs (Decidable (if counted + roundUp bytes minAlignedSize ≤ pageSize then
      first + (counted + roundUp bytes minAlignedSize) ≤ pageSize ∧
        Snug first (counted + roundUp bytes minAlignedSize) requests
    else Snug (roundUp bytes minAlignedSize) 0 requests))

/-- An allocator none of whose pages has overflowed; `page` was mapped last. -/
structure PageRun.Tidy (mmap : Nat → PageAddr) (r : PageRun) (page : PageAddr)
    (first counted : Nat) : Prop where
  head : r.alloc.head = page + (first + counted)
  used : r.alloc.used = counted
  room : first + counted ≤ pageSize
  current : page ∈ r.pages
  mapped : ∀ q ∈ r.pages, ∃ i < r.pages.length, q = mmap i
  inside : ∀ c ∈ r.blocks, ∃ q ∈ r.pages, q.val ≤ c.1 ∧ c.1 + c.2 ≤ q + pageSize ∧
    (q = page → c.1 + c.2 ≤ r.alloc.head)
  begun : ∀ q ∈ r.pages, q ≠ page ∨ 0 < first + counted → ∃ c ∈ r.blocks, c.1 = q ∧ 0 < c.2

section Runs
variable {mmap : Nat → PageAddr} {r : PageRun} {page : PageAddr} {first counted bytes : Nat}

theorem PageAddr.apart {p q : PageAddr} (h : p ≠ q) :
    p.val + pageSize ≤ q ∨ q.val + pageSize ≤ p := by
  obtain ⟨i,hi⟩ := p.2.1
  obtain ⟨j,hj⟩ := q.2.1
  have hne : i ≠ j := fun he => h (Subtype.ext (by rw [hi,hj,he]))
  rw [hi,hj]
  simp only [pageSize]
  omega

theorem PageAddr.next {p q : PageAddr} (hlo : p.val < q) (hhi : q.val ≤ p + pageSize) :
    p.val + pageSize = q := by
  have hne : q ≠ p := fun heq => hlo.ne (congrArg Subtype.val heq).symm
  have := PageAddr.apart hne
  omega

theorem PageRun.Tidy.new_page (h : r.Tidy mmap page first counted) {n : Nat}
    (hmmap : Set.InjOn mmap (Set.Iio n)) (hlen : r.pages.length < n) :
    ∀ q ∈ r.pages, q ≠ mmap r.pages.length := by
  intro q hq heq
  obtain ⟨i,hi,rfl⟩ := h.mapped q hq
  exact absurd (hmmap (hi.trans hlen) hlen heq) hi.ne

theorem PageRun.Tidy.full_iff (h : r.Tidy mmap page first counted)
    (hsize : roundUp bytes minAlignedSize ≤ pageSize) :
    r.alloc.Full bytes ↔ ¬ counted + roundUp bytes minAlignedSize ≤ pageSize := by
  have hroom := h.room
  unfold PageAllocator.Full
  rw [h.used]
  simp only [pageSize] at *
  omega

theorem PageRun.Tidy.apart (h : r.Tidy mmap page first counted) {n : Nat}
    (fits : r.alloc.head + n ≤ page + pageSize) {c : Nat × Nat} (hc : c ∈ r.blocks) :
    c.1 + c.2 ≤ r.alloc.head ∨ r.alloc.head + n ≤ c.1 := by
  obtain ⟨q,-,hlo,hhi,hcur⟩ := h.inside c hc
  have hhead := h.head
  by_cases hq : q = page
  · exact .inl (hcur hq)
  · have := PageAddr.apart hq
    omega

theorem PageRun.Tidy.own_iff (h : r.Tidy mmap page first counted)
    (hcount : counted + roundUp bytes minAlignedSize ≤ pageSize) (hfull : ¬ r.alloc.Full bytes) :
    r.Own mmap bytes ↔ first + (counted + roundUp bytes minAlignedSize) ≤ pageSize := by
  have hhead := h.head
  have hret := PageAllocator.start_room hfull (mmap r.pages.length)
  have hpages : (r.allocate mmap bytes).pages = r.pages := by
    simp [PageRun.allocate,hfull]
  unfold PageRun.Own
  simp only [hret,hpages]
  constructor
  · intro hown
    obtain ⟨⟨q,hq,hlo,hhi⟩,hapart⟩ := hown
    by_cases hqp : q = page
    · subst hqp
      omega
    · by_contra hover
      -- the block would start where an earlier page starts, whose first block it would cover
      have hdisj := PageAddr.apart hqp
      have hroom := h.room
      obtain ⟨c,hc,hstart,hpos⟩ := h.begun q hq (.inl hqp)
      have := hapart c hc
      omega
  · intro hfit
    have hend : r.alloc.head + roundUp bytes minAlignedSize ≤ page + pageSize := by omega
    exact ⟨⟨page,h.current,by omega,hend⟩,fun c hc => h.apart hend hc⟩

theorem pageRun_room (hfull : ¬ r.alloc.Full bytes) : r.allocate mmap bytes =
    { alloc := ⟨(r.alloc.head + roundUp bytes minAlignedSize) % 2^64,
        (r.alloc.used + roundUp bytes minAlignedSize) % 2^64⟩
      pages := r.pages
      blocks := (r.alloc.head,roundUp bytes minAlignedSize) :: r.blocks } := by
  simp [PageRun.allocate,PageAllocator.allocate,hfull]

theorem pageRun_full (hfull : r.alloc.Full bytes) : r.allocate mmap bytes =
    { alloc := ⟨((mmap r.pages.length).val + roundUp bytes minAlignedSize) % 2^64,0⟩
      pages := mmap r.pages.length :: r.pages
      blocks := ((mmap r.pages.length).val,roundUp bytes minAlignedSize) :: r.blocks } := by
  simp [PageRun.allocate,PageAllocator.allocate,hfull,PageAllocator.pageAllocate]

theorem PageRun.Tidy.allocate (h : r.Tidy mmap page first counted)
    (hroom : first + (counted + roundUp bytes minAlignedSize) ≤ pageSize)
    (hfull : ¬ r.alloc.Full bytes) :
    (r.allocate mmap bytes).Tidy mmap page first (counted + roundUp bytes minAlignedSize) := by
  have hhead := h.head
  have hused := h.used
  have hend := page.2.2
  have hnew : (r.alloc.head + roundUp bytes minAlignedSize) % 2^64 =
      page + (first + (counted + roundUp bytes minAlignedSize)) := by omega
  have hcount : (r.alloc.used + roundUp bytes minAlignedSize) % 2^64 =
      counted + roundUp bytes minAlignedSize := by
    simp only [pageSize] at hroom
    omega
  rw [pageRun_room hfull,hnew,hcount]
  refine ⟨rfl,rfl,hroom,h.current,h.mapped,?_,?_⟩
  · refine List.forall_mem_cons.mpr ⟨⟨page,h.current,?_,?_,?_⟩,fun c hc => ?_⟩
    · exact hhead ▸ Nat.le_add_right _ _
    · dsimp only
      omega
    · intro _
      dsimp only
      omega
    · obtain ⟨q,hq,hlo,hhi,hcur⟩ := h.inside c hc
      refine ⟨q,hq,hlo,hhi,fun hqp => (hcur hqp).trans ?_⟩
      dsimp only
      omega
  · intro q hq hor
    by_cases hold : q ≠ page ∨ 0 < first + counted
    · obtain ⟨c,hc,hstart⟩ := h.begun q hq hold
      exact ⟨c,List.mem_cons_of_mem _ hc,hstart⟩
    · -- the first block of the page
      obtain ⟨hqp,hzero⟩ := not_or.mp hold
      have hqp := not_not.mp hqp
      subst hqp
      refine ⟨_,List.mem_cons_self,by omega,?_⟩
      obtain hne | hpos := hor
      · exact absurd rfl hne
      · omega

theorem PageRun.Tidy.own_full (h : r.Tidy mmap page first counted)
    (hnew : ∀ q ∈ r.pages, q ≠ mmap r.pages.length)
    (hsize : roundUp bytes minAlignedSize ≤ pageSize)
    (hcount : ¬ counted + roundUp bytes minAlignedSize ≤ pageSize) (hfull : r.alloc.Full bytes) :
    r.Own mmap bytes ∧ (r.allocate mmap bytes).Tidy mmap (mmap r.pages.length)
      (roundUp bytes minAlignedSize) 0 := by
  have hroom := h.room
  have hret := PageAllocator.start_full hfull (mmap r.pages.length)
  have hend := (mmap r.pages.length).2.2
  constructor
  · refine ⟨⟨mmap r.pages.length,by simp [pageRun_full hfull],hret.ge,?_⟩,fun c hc => ?_⟩
    · rw [hret]
      exact Nat.add_le_add_left hsize _
    · obtain ⟨q,hq,hlo,hhi,-⟩ := h.inside c hc
      have := PageAddr.apart (hnew q hq)
      rw [hret]
      omega
  · rw [pageRun_full hfull]
    have hhead : ((mmap r.pages.length).val + roundUp bytes minAlignedSize) % 2^64 =
        mmap r.pages.length + (roundUp bytes minAlignedSize + 0) := by omega
    refine ⟨hhead,rfl,by omega,List.mem_cons_self,?_,?_,?_⟩
    · refine List.forall_mem_cons.mpr ⟨⟨_,Nat.lt_succ_self _,rfl⟩,fun q hq => ?_⟩
      obtain ⟨i,hi,rfl⟩ := h.mapped q hq
      exact ⟨i,hi.trans (Nat.lt_succ_self _),rfl⟩
    · refine List.forall_mem_cons.mpr ⟨⟨_,List.mem_cons_self,le_rfl,?_,?_⟩,fun c hc => ?_⟩
      · exact Nat.add_le_add_left hsize _
      · exact fun _ => hhead.ge
      · obtain ⟨q,hq,hlo,hhi,-⟩ := h.inside c hc
        exact ⟨q,List.mem_cons_of_mem _ hq,hlo,hhi,fun heq => absurd heq (hnew q hq)⟩
    · intro q hq _
      obtain rfl | hq := List.mem_cons.mp hq
      · exact ⟨_,List.mem_cons_self,rfl,by dsimp only; omega⟩
      · have hbegun : q ≠ page ∨ 0 < first + counted := .inr (by omega)
        obtain ⟨c,hc,hstart⟩ := h.begun q hq hbegun
        exact ⟨c,List.mem_cons_of_mem _ hc,hstart⟩

/-- `mmap` returns `n` pages that do not repeat. -/
theorem own_iff_snug {n : Nat} (hmmap : Set.InjOn mmap (Set.Iio n)) {requests : List Nat}
    (hlen : r.pages.length + requests.length ≤ n)
    (hsize : ∀ bytes ∈ requests, roundUp bytes minAlignedSize ≤ pageSize)
    (h : r.Tidy mmap page first counted) :
    (∀ pre bytes post, requests = pre ++ bytes :: post →
      (pre.foldl (PageRun.allocate mmap) r).Own mmap bytes) ↔ Snug first counted requests := by
  induction requests generalizing r page first counted with
  | nil => simp [Snug]
  | cons bytes requests ih =>
    have hsplit : (∀ pre b post, bytes :: requests = pre ++ b :: post →
        (pre.foldl (PageRun.allocate mmap) r).Own mmap b) ↔ r.Own mmap bytes ∧
        ∀ pre b post, requests = pre ++ b :: post →
          (pre.foldl (PageRun.allocate mmap) (r.allocate mmap bytes)).Own mmap b := by
      constructor
      · intro hall
        exact ⟨hall [] bytes requests rfl,
          fun pre b post hs => hall (bytes :: pre) b post (by simp [hs])⟩
      · intro hall pre b post hs
        cases pre with
        | nil =>
          cases hs
          exact hall.1
        | cons x pre =>
          cases hs
          exact hall.2 pre b post rfl
    have hthis := hsize bytes List.mem_cons_self
    have hrest : ∀ b ∈ requests, roundUp b minAlignedSize ≤ pageSize :=
      fun b hb => hsize b (List.mem_cons_of_mem _ hb)
    have hfull := h.full_iff hthis
    rw [List.length_cons] at hlen
    rw [hsplit,Snug]
    by_cases hcount : counted + roundUp bytes minAlignedSize ≤ pageSize
    · have hnot : ¬ r.alloc.Full bytes := fun hf => hfull.mp hf hcount
      rw [if_pos hcount,h.own_iff hcount hnot]
      refine and_congr_right fun hroom => ih ?_ hrest (h.allocate hroom hnot)
      rw [pageRun_room hnot]
      dsimp only
      omega
    · have hnew := h.new_page hmmap (by omega)
      obtain ⟨hown,htidy⟩ := h.own_full hnew hthis hcount (hfull.mpr hcount)
      rw [if_neg hcount]
      refine (and_iff_right hown).trans (ih ?_ hrest htidy)
      rw [pageRun_full (hfull.mpr hcount),List.length_cons]
      omega

theorem tidy_init (mmap : Nat → PageAddr) : (PageRun.init mmap).Tidy mmap (mmap 0) 0 0 := by
  refine ⟨rfl,rfl,Nat.zero_le _,List.mem_singleton_self _,?_,nofun,?_⟩
  · intro q hq
    exact ⟨0,Nat.zero_lt_one,List.mem_singleton.mp hq⟩
  · intro q hq hor
    obtain hne | hpos := hor
    · exact absurd (List.mem_singleton.mp hq) hne
    · exact absurd hpos (Nat.lt_irrefl 0)

theorem pageRun_snoc (mmap : Nat → PageAddr) (requests : List Nat) (bytes : Nat) :
    PageRun.after mmap (requests ++ [bytes]) =
      (PageRun.after mmap requests).allocate mmap bytes := by
  simp [PageRun.after]

theorem after_first_page (mmap : Nat → PageAddr) {requests : List Nat}
    (h : allignedTotal requests ≤ pageSize) :
    (PageRun.after mmap requests).alloc = ⟨mmap 0 + allignedTotal requests,allignedTotal requests⟩ ∧
      (PageRun.after mmap requests).pages = [mmap 0] := by
  induction requests using List.reverseRecOn with
  | nil => exact ⟨rfl,rfl⟩
  | append_singleton requests bytes ih =>
    rw [allignedTotal_append,allignedTotal_singleton] at h ⊢
    obtain ⟨halloc,hpages⟩ := ih (by omega)
    have hend := (mmap 0).2.2
    have hfull : ¬ (PageRun.after mmap requests).alloc.Full bytes := by
      unfold PageAllocator.Full
      rw [halloc]
      simp only [pageSize] at *
      omega
    rw [pageRun_snoc,pageRun_room hfull,halloc]
    refine ⟨?_,hpages⟩
    simp only [PageAllocator.mk.injEq,pageSize] at *
    omega

/-- The counter loses track of the cursor with the first page change. -/
theorem synced_iff (mmap : Nat → PageAddr) {requests : List Nat}
    (hsize : ∀ bytes ∈ requests, roundUp bytes minAlignedSize ≤ pageSize) :
    (∀ pre post, requests = pre ++ post → (PageRun.after mmap pre).Synced) ↔
      allignedTotal requests ≤ pageSize := by
  constructor
  · intro hall
    induction requests using List.reverseRecOn with
    | nil => simp [allignedTotal]
    | append_singleton requests bytes ih =>
      have hold := ih (fun b hb => hsize b (List.mem_append_left _ hb))
        fun pre post hs => hall pre (post ++ [bytes]) (by simp [hs])
      rw [allignedTotal_append,allignedTotal_singleton]
      by_contra hover
      obtain ⟨halloc,hpages⟩ := after_first_page mmap hold
      have hthis := hsize bytes (by simp)
      have hfull : (PageRun.after mmap requests).alloc.Full bytes := by
        unfold PageAllocator.Full
        rw [halloc]
        simp only [pageSize] at *
        omega
      obtain ⟨page,hpage,hhead,-⟩ := hall (requests ++ [bytes]) [] (by simp)
      rw [pageRun_snoc,pageRun_full hfull] at hpage hhead
      obtain rfl := Option.some.inj hpage
      have hend := (mmap (PageRun.after mmap requests).pages.length).2.2
      dsimp only at hhead
      omega
  · intro h pre post hs
    subst hs
    rw [allignedTotal_append] at h
    obtain ⟨halloc,hpages⟩ := after_first_page mmap ((Nat.le_add_right _ _).trans h)
    refine ⟨mmap 0,by rw [hpages]; rfl,by rw [halloc],?_⟩
    rw [halloc]
    exact (Nat.le_add_right _ _).trans h

end Runs

/-- Every block lies in a page of its own process and overlaps no other block exactly when no
page overflows; the counter stays in step with the cursor exactly when one page is enough. -/
theorem page_blocks_iff (mmap : Nat → PageAddr) (requests : List Nat)
    (hmmap : Set.InjOn mmap (Set.Iio (requests.length + 1)))
    (hsize : ∀ bytes ∈ requests, roundUp bytes minAlignedSize ≤ pageSize) :
    ((∀ pre bytes post, requests = pre ++ bytes :: post →
      (PageRun.after mmap pre).Own mmap bytes) ↔ Snug 0 0 requests) ∧
    ((∀ pre post, requests = pre ++ post → (PageRun.after mmap pre).Synced) ↔
      allignedTotal requests ≤ pageSize) :=
  ⟨own_iff_snug hmmap (Nat.add_comm _ _).le hsize (tidy_init mmap),synced_iff mmap hsize⟩

theorem downwards_page (n : Nat) : pageSize ∣ 0x7ffff7ffe000 - n * pageSize ∧
    0x7ffff7ffe000 - n * pageSize + pageSize < 2^64 := by
  refine ⟨⟨0x7ffff7ffe - n,?_⟩,?_⟩ <;> simp only [pageSize] <;> omega

def downwards (n : Nat) : PageAddr := ⟨0x7ffff7ffe000 - n * pageSize,downwards_page n⟩

theorem downwards_injOn {n : Nat} (hn : n ≤ 1000) : Set.InjOn downwards (Set.Iio n) := by
  intro i hi j hj hij
  have heq := congrArg Subtype.val hij
  simp only [downwards,pageSize,Set.mem_Iio] at *
  omega

/-- Two pages, the second filled by what is left of it after its first request. -/
theorem page_blocks_filled :
    ((∀ pre bytes post, [4000,4000,96] = pre ++ bytes :: post →
      (PageRun.after downwards pre).Own downwards bytes) ↔ Snug 0 0 [4000,4000,96]) ∧
    ((∀ pre post, [4000,4000,96] = pre ++ post → (PageRun.after downwards pre).Synced) ↔
      allignedTotal [4000,4000,96] ≤ pageSize) ∧ Snug 0 0 [4000,4000,96] := by
  obtain ⟨hown,hsynced⟩ := page_blocks_iff downwards [4000,4000,96]
    (downwards_injOn (by decide)) (by decide)
  exact ⟨hown,hsynced,by decide⟩

/-- The third request is counted as the first of the second page and runs past its end; the
counter is wrong from the second request on. -/
theorem page_blocks_fails :
    (¬ ∀ pre bytes post, [4000,4000,112] = pre ++ bytes :: post →
      (PageRun.after downwards pre).Own downwards bytes) ∧
    ¬ ∀ pre post, [4000,4000,112] = pre ++ post → (PageRun.after downwards pre).Synced := by
  constructor
  · intro hall
    have hsnug := (own_iff_snug (downwards_injOn (n := 4) (by decide)) (by decide) (by decide)
      (tidy_init downwards)).mp hall
    revert hsnug
    decide
  · intro hall
    have htotal := (synced_iff downwards (by decide)).mp hall
    revert htotal
    decide

end GThread
