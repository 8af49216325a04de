import GThread.Tracking
import GThread.Library.Counting

/-! The fault handler over all of the memory of a process, in which more than the heap is
mapped: it stops nothing but what lies outside the heap, and there one page is missed. -/
namespace GThread

variable {L : Layout}

def Attempt.faults (M : Memory L) : Attempt → List Nat → Attempt × Option Exit
  | t, [] => (t,none)
  | t, a :: as =>
    match t.segfaultHandlerIn M a with
    | (t',none) => t'.faults M as
    | (t',some e) => (t',some e)

/-- An address is handled as a read of its page, and once the page is in the read set as a
write of it. -/
def Attempt.Handled (t t' : Attempt) (page : Nat) : Prop :=
  (page ∉ t.readSetVersion ∧ t' = { t with
    readSetVersion := t.readSetVersion.insert page (version t.localPageVersion page)
    prot := Function.update t.prot page .read }) ∨
  (page ∈ t.readSetVersion ∧ t' = { t with
    writeSetVersion := t.writeSetVersion.insert page (version t.localPageVersion page + 1)
    prot := Function.update t.prot page .readWrite })

theorem handleReadsIn_eq {M : Memory L} {t : Attempt} {page : Nat} (h : M.mapped page = true) :
    t.handleReadsIn M page = ({ t with
      readSetVersion := t.readSetVersion.insert page (version t.localPageVersion page)
      prot := Function.update t.prot page .read },none) := by
  unfold Attempt.handleReadsIn Attempt.mprotectIn version
  cases t.localPageVersion.lookup page <;> simp [h]

theorem handleWritesIn_eq {M : Memory L} {t : Attempt} {page : Nat} (h : M.mapped page = true) :
    t.handleWritesIn M page = ({ t with
      writeSetVersion := t.writeSetVersion.insert page (version t.localPageVersion page + 1)
      prot := Function.update t.prot page .readWrite },none) := by
  unfold Attempt.handleWritesIn Attempt.mprotectIn version
  cases t.localPageVersion.lookup page <;> simp [h]

theorem segfaultHandlerIn_heapAddr (M : Memory L) (t : Attempt) {a : Nat} (ha : L.InHeap a) :
    ∃ t', t.segfaultHandlerIn M a = (t',none) ∧ t.Handled t' (pageOf a) := by
  have hpage := L.heapPage_pageOf ha
  obtain ⟨hlo,hhi⟩ := hpage.2
  have hmapped := M.heap _ hpage
  have hin : ¬ (pageOf a < L.localHeap ∨ pageOf a > L.localHeap + heapSize) := by omega
  unfold Attempt.segfaultHandlerIn
  rw [← pageOf,if_neg hin]
  by_cases hr : pageOf a ∈ t.readSetVersion
  · rw [if_pos hr,handleWritesIn_eq hmapped]
    exact ⟨_,rfl,.inr ⟨hr,rfl⟩⟩
  · rw [if_neg hr,handleReadsIn_eq hmapped]
    exact ⟨_,rfl,.inl ⟨hr,rfl⟩⟩

theorem faults_alive (M : Memory L) (t : Attempt) {as : List Nat} (ha : ∀ a ∈ as, L.InHeap a) :
    (t.faults M as).2 = none := by
  induction as generalizing t with
  | nil => rfl
  | cons a as ih =>
    obtain ⟨t',ht,-⟩ := segfaultHandlerIn_heapAddr M t (ha a List.mem_cons_self)
    rw [Attempt.faults,ht]
    exact ih t' fun b hb => ha b (List.mem_cons_of_mem _ hb)

theorem faults_append {M : Memory L} {t t' : Attempt} {as : List Nat}
    (h : t.faults M as = (t',none)) (bs : List Nat) :
    t.faults M (as ++ bs) = t'.faults M bs := by
  induction as generalizing t with
  | nil =>
    cases h
    rfl
  | cons a as ih =>
    rw [Attempt.faults] at h
    rw [List.cons_append,Attempt.faults]
    split at h
    · exact ih h
    · cases h

theorem faults_count (M : Memory L) {t t' : Attempt} (fresh : t.readSetVersion = ∅ ∧
    t.writeSetVersion = ∅) {as : List Nat} (ha : ∀ a ∈ as, L.InHeap a)
    (h : t.faults M as = (t',none)) (page : Nat) :
    (page ∈ t'.readSetVersion ↔ 1 ≤ (as.map pageOf).count page) ∧
      (page ∈ t'.writeSetVersion ↔ 2 ≤ (as.map pageOf).count page) := by
  induction as using List.reverseRecOn generalizing t' with
  | nil =>
    cases h
    simp [fresh,Finmap.notMem_empty]
  | append_singleton as a ih =>
    obtain ⟨t₁,ht₁⟩ : ∃ t₁, t.faults M as = (t₁,none) :=
      ⟨_,Prod.ext rfl (faults_alive M t fun b hb => ha b (List.mem_append_left _ hb))⟩
    obtain ⟨hread,hwrite⟩ := ih (fun b hb => ha b (List.mem_append_left _ hb)) ht₁
    obtain ⟨t₂,ht₂,hcase⟩ := segfaultHandlerIn_heapAddr M t₁ (ha a (by simp))
    rw [faults_append ht₁,Attempt.faults,ht₂] at h
    cases h
    rw [List.map_append,List.count_append,List.map_singleton,List.count_singleton]
    by_cases hp : pageOf a = page
    · subst hp
      obtain ⟨hr,rfl⟩ | ⟨hr,rfl⟩ := hcase
      · rw [hread] at hr
        simp only [Finmap.mem_insert,hread,hwrite,beq_self_eq_true,if_true,true_or,true_iff]
        omega
      · rw [hread] at hr
        simp only [Finmap.mem_insert,hread,hwrite,beq_self_eq_true,if_true,true_or,true_iff]
        omega
    · have hne : ¬ page = pageOf a := fun h => hp h.symm
      have hbeq : (pageOf a == page) = false := by simpa using hp
      obtain ⟨-,rfl⟩ | ⟨-,rfl⟩ := hcase <;> simp [Finmap.mem_insert,hne,hbeq,hread,hwrite]

def Attempt.handled (M : Memory L) : Attempt → List Nat → List Nat
  | _, [] => []
  | t, a :: as =>
    match t.segfaultHandlerIn M a with
    | (t',none) => pageOf a :: t'.handled M as
    | (_,some _) => []

theorem handled_heap (M : Memory L) (t : Attempt) {as : List Nat} (ha : ∀ a ∈ as, L.InHeap a) :
    t.handled M as = as.map pageOf := by
  induction as generalizing t with
  | nil => rfl
  | cons a as ih =>
    obtain ⟨t',ht,-⟩ := segfaultHandlerIn_heapAddr M t (ha a List.mem_cons_self)
    rw [Attempt.handled,ht,List.map_cons]
    exact congrArg _ (ih t' fun b hb => ha b (List.mem_cons_of_mem _ hb))

/-- Each page of the heap is handled twice at most, first as a read and then as a write; a third
fault ends the process and changes nothing. -/
structure Settled (M : Memory L) (t : Attempt) (as : List Nat) : Prop where
  twice : ∀ page, (t.handled M as).count page ≤ 2
  first : ∀ pre a post t', as = pre ++ a :: post → t.faults M pre = (t',none) →
    pageOf a ∉ t'.writeSetVersion →
      ∃ t'', t'.segfaultHandlerIn M a = (t'',none) ∧ t'.Handled t'' (pageOf a)
  third : ∀ pre a post t', as = pre ++ a :: post → t.faults M pre = (t',none) →
    pageOf a ∈ t'.writeSetVersion → t'.segfaultHandlerIn M a = (t',some .segv)
  bounded : (t.handled M as).length ≤ 2 * (heapSize / pageSize)

def Layout.pages (L : Layout) : Finset Nat :=
  (Finset.range (heapSize / pageSize)).image fun i => L.localHeap + i * pageSize

theorem Layout.HeapPage.mem_pages {page : Nat} (h : L.HeapPage page) : page ∈ L.pages := by
  obtain ⟨k,hk⟩ := L.localAligned
  obtain ⟨⟨j,rfl⟩,hlo,hhi⟩ := h
  simp only [Layout.pages,Finset.mem_image,Finset.mem_range]
  refine ⟨j - k,?_,?_⟩ <;> simp only [pageSize,heapSize] at * <;> omega

/-- Faults settle exactly when no page of the heap faults a third time. -/
theorem settled_iff (M : Memory L) (t : Attempt) (g : VersionMap) (n : Nat) (as : List Nat)
    (ha : ∀ a ∈ as, L.InHeap a) :
    Settled M (t.atomicBegin g n) as ↔ ∀ page, (as.map pageOf).count page ≤ 2 := by
  constructor
  · intro h page
    rw [← handled_heap M (t.atomicBegin g n) ha]
    exact h.twice page
  · intro h
    refine ⟨fun page => ?_,?_,?_,?_⟩
    · rw [handled_heap M _ ha]
      exact h page
    · intro pre a post t' hsplit hpre hw
      exact segfaultHandlerIn_heapAddr M t' (ha a (by simp [hsplit]))
    · intro pre a post t' hsplit hpre hw
      have hin : ∀ b ∈ pre, L.InHeap b := fun b hb => ha b (by simp [hsplit,hb])
      have htwo := (faults_count M ⟨rfl,rfl⟩ hin hpre (pageOf a)).2.mp hw
      have hthree := h (pageOf a)
      simp only [hsplit,List.map_append,List.map_cons,List.count_append,
        List.count_cons_self] at hthree
      omega
    · rw [handled_heap M _ ha]
      apply (Counting.length_le_of_count (S := L.pages) ?_ h).trans
      · exact Nat.mul_le_mul_left 2 (Finset.card_image_le.trans (Finset.card_range _).le)
      · intro page hpage
        obtain ⟨a,hin,rfl⟩ := List.mem_map.mp hpage
        exact (L.heapPage_pageOf (ha a hin)).mem_pages

theorem settled_twice : Settled (.heapOnly .adjacent) (Attempt.mapped₀.atomicBegin ∅ 0)
    [0x100000,0x100008] :=
  (settled_iff _ _ _ _ _ (by decide)).mpr fun _ => List.count_le_length

/-- An instruction that faults on a heap page whatever its protection is faults for ever, as the
third fault is taken for a write again. -/
theorem settled_fails : ¬ Settled (.heapOnly .adjacent) (Attempt.mapped₀.atomicBegin ∅ 0)
      [0x100000,0x100000,0x100000] ∧
    ∀ n, ((Attempt.mapped₀.atomicBegin ∅ 0).faults (.heapOnly .adjacent)
      (List.replicate n 0x100000)).2 = none := by
  have hin : Layout.adjacent.InHeap 0x100000 := by decide
  constructor
  · intro h
    have hthree := h.twice (pageOf 0x100000)
    rw [handled_heap _ _ (by simp [hin])] at hthree
    simp at hthree
  · intro n
    exact faults_alive _ _ fun a ha => List.eq_of_mem_replicate ha ▸ hin

def Layout.Inside (L : Layout) (page : Nat) : Prop :=
  L.localHeap ≤ page ∧ page + pageSize ≤ L.localHeap + heapSize

theorem Layout.HeapPage.inside {page : Nat} (h : L.HeapPage page) : L.Inside page := by
  obtain ⟨k,hk⟩ := L.localAligned
  obtain ⟨⟨j,rfl⟩,hlo,hhi⟩ := h
  simp only [Layout.Inside,pageSize,heapSize] at *
  omega

theorem Layout.Inside.globalPos {page : Nat} (h : L.Inside page) :
    L.globalPos page = L.globalHeap + (page - L.localHeap) ∧
      L.globalPos page + pageSize ≤ L.globalHeap + heapSize := by
  obtain ⟨hlo,hhi⟩ := h
  have hin : L.InHeap page := ⟨hlo,by simp only [pageSize] at hhi; omega⟩
  have heq := L.globalPos_eq hin
  refine ⟨heq,?_⟩
  omega

/-- Only pages of the heap are tracked and copied, and any other fault ends the process as it
is. -/
structure HeapOnly (M : Memory L) (t : Attempt) (as : List Nat) : Prop where
  tracked : ∀ page, page ∈ (t.faults M as).1.readSetVersion ∨
    page ∈ (t.faults M as).1.writeSetVersion → L.Inside page
  others : ∀ pre a post t', as = pre ++ a :: post → t.faults M pre = (t',none) →
    ¬ L.InHeap a → ∃ e, t'.segfaultHandlerIn M a = (t',some e)
  copied : ∀ page ∈ (t.faults M as).1.writeSetVersion, L.Inside page ∧
    L.globalPos page = L.globalHeap + (page - L.localHeap) ∧
    L.globalPos page + pageSize ≤ L.globalHeap + heapSize

theorem faults_stop {M : Memory L} {t t' t'' : Attempt} {as : List Nat} {a : Nat} {e : Exit}
    (h : t.faults M as = (t',none)) (ha : t'.segfaultHandlerIn M a = (t'',some e))
    (bs : List Nat) : t.faults M (as ++ a :: bs) = (t'',some e) := by
  rw [faults_append h,Attempt.faults,ha]

theorem first_outside (as : List Nat) : (∀ a ∈ as, L.InHeap a) ∨
    ∃ pre a post, as = pre ++ a :: post ∧ (∀ b ∈ pre, L.InHeap b) ∧ ¬ L.InHeap a := by
  induction as with
  | nil => exact .inl (by simp)
  | cons a as ih =>
    by_cases ha : L.InHeap a
    · obtain hall | ⟨pre,b,post,rfl,hpre,hb⟩ := ih
      · exact .inl (List.forall_mem_cons.mpr ⟨ha,hall⟩)
      · exact .inr ⟨a :: pre,b,post,rfl,List.forall_mem_cons.mpr ⟨ha,hpre⟩,hb⟩
    · exact .inr ⟨[],a,as,rfl,by simp,ha⟩

theorem segfaultHandlerIn_outside (M : Memory L) (t : Attempt) {a : Nat} (ha : ¬ L.InHeap a)
    (hend : pageOf a ≠ L.localHeap + heapSize) : t.segfaultHandlerIn M a = (t,some .segv) := by
  have hbounds := (pageOf_eq_iff (pageSize_dvd_pageOf a) a).mp rfl
  obtain ⟨k,hk⟩ := L.localAligned
  obtain ⟨j,hj⟩ := pageSize_dvd_pageOf a
  have hout : pageOf a < L.localHeap ∨ pageOf a > L.localHeap + heapSize := by
    simp only [Layout.InHeap,pageSize,heapSize] at *
    omega
  unfold Attempt.segfaultHandlerIn
  rw [← pageOf,if_pos hout]

/-- The page behind the heap enters the read set, whether it is mapped or not. -/
theorem segfaultHandlerIn_end (M : Memory L) (t : Attempt) {a : Nat}
    (hend : pageOf a = L.localHeap + heapSize) (ht : pageOf a ∉ t.readSetVersion) :
    pageOf a ∈ (t.segfaultHandlerIn M a).1.readSetVersion := by
  have hin : ¬ (pageOf a < L.localHeap ∨ pageOf a > L.localHeap + heapSize) := by omega
  unfold Attempt.segfaultHandlerIn
  rw [← pageOf,if_neg hin,if_neg ht]
  cases hm : M.mapped (pageOf a) <;>
  simp [Attempt.handleReadsIn,Attempt.mprotectIn,hm,Finmap.mem_insert]

theorem inside_of_tracked {M : Memory L} {t t' : Attempt} (fresh : t.readSetVersion = ∅ ∧
    t.writeSetVersion = ∅) {as : List Nat} (ha : ∀ a ∈ as, L.InHeap a)
    (h : t.faults M as = (t',none)) {page : Nat}
    (hpage : page ∈ t'.readSetVersion ∨ page ∈ t'.writeSetVersion) : L.Inside page := by
  obtain ⟨hread,hwrite⟩ := faults_count M fresh ha h page
  have hcount : 0 < (as.map pageOf).count page := by
    obtain hr | hw := hpage
    · exact hread.mp hr
    · exact (Nat.zero_lt_two).trans_le (hwrite.mp hw)
  obtain ⟨a,hin,rfl⟩ := List.mem_map.mp (List.count_pos_iff.mp hcount)
  exact (L.heapPage_pageOf (ha a hin)).inside

/-- The handler keeps to the heap exactly when the page behind the heap does not fault before a
fault has ended the process. -/
theorem heap_only_iff (M : Memory L) (t : Attempt) (g : VersionMap) (n : Nat) (as : List Nat) :
    HeapOnly M (t.atomicBegin g n) as ↔ ∀ pre a post, as = pre ++ a :: post →
      (∀ b ∈ pre, L.InHeap b) → pageOf a ≠ L.localHeap + heapSize := by
  have fresh : (t.atomicBegin g n).readSetVersion = ∅ ∧ (t.atomicBegin g n).writeSetVersion = ∅ :=
    ⟨rfl,rfl⟩
  have alive : ∀ pre : List Nat, (∀ b ∈ pre, L.InHeap b) →
      ∃ t', (t.atomicBegin g n).faults M pre = (t',none) :=
    fun pre hpre => ⟨_,Prod.ext rfl (faults_alive M _ hpre)⟩
  constructor
  · intro h pre a post hsplit hpre hend
    obtain ⟨t',ht'⟩ := alive pre hpre
    have hout : ¬ L.Inside (pageOf a) := by
      intro hin
      have := hin.2
      simp only [pageSize] at this
      omega
    have hnew : pageOf a ∉ t'.readSetVersion :=
      fun hr => hout (inside_of_tracked fresh hpre ht' (.inl hr))
    have hnot : ¬ L.InHeap a := fun hin => hout (L.heapPage_pageOf hin).inside
    obtain ⟨e,he⟩ := h.others pre a post t' hsplit ht' hnot
    have htrack := segfaultHandlerIn_end M t' hend hnew
    rw [he] at htrack
    exact hnew htrack
  · intro h
    -- before the end of the process all faults are on heap pages
    have inHeap : ∀ pre post t', as = pre ++ post → (t.atomicBegin g n).faults M pre = (t',none) →
        ∀ b ∈ pre, L.InHeap b := by
      intro pre post t' hsplit hpre
      obtain hall | ⟨pre',a,mid,rfl,hin,ha⟩ := first_outside (L := L) pre
      · exact hall
      · obtain ⟨t₁,ht₁⟩ := alive pre' hin
        have hend := h pre' a (mid ++ post) (by simp [hsplit]) hin
        have hstop := faults_stop ht₁ (segfaultHandlerIn_outside M t₁ ha hend) mid
        cases hpre.symm.trans hstop
    have final : ∃ pre, (∀ b ∈ pre, L.InHeap b) ∧
        (t.atomicBegin g n).faults M pre = (((t.atomicBegin g n).faults M as).1,none) := by
      obtain hall | ⟨pre,a,post,rfl,hin,ha⟩ := first_outside (L := L) as
      · exact ⟨as,hall,Prod.ext rfl (faults_alive M _ hall)⟩
      · obtain ⟨t₁,ht₁⟩ := alive pre hin
        have hsegv := segfaultHandlerIn_outside M t₁ ha (h pre a post rfl hin)
        have hstop := faults_stop ht₁ hsegv post
        exact ⟨pre,hin,by rw [hstop,ht₁]⟩
    obtain ⟨pre,hpre,hfinal⟩ := final
    have inside : ∀ page, page ∈ ((t.atomicBegin g n).faults M as).1.readSetVersion ∨
        page ∈ ((t.atomicBegin g n).faults M as).1.writeSetVersion → L.Inside page :=
      fun page hpage => inside_of_tracked fresh hpre hfinal hpage
    refine ⟨inside,fun pre a post t' hsplit ht' ha => ?_,fun page hw => ?_⟩
    · have hend := h pre a post hsplit (inHeap pre (a :: post) t' hsplit ht')
      exact ⟨_,segfaultHandlerIn_outside M t' ha hend⟩
    · have hin := inside page (.inr hw)
      exact ⟨hin,hin.globalPos⟩

def Memory.all : Memory .adjacent := ⟨fun _ => true,fun _ _ => rfl⟩

/-- Two faults on the page behind the heap, where the shared mapping starts: `CommitHeap` would
copy it past the end of the shared mapping. -/
theorem heap_only_fails :
    ¬ HeapOnly .all (Attempt.mapped₀.atomicBegin ∅ 0) [0x180000,0x180000] ∧
    0x180000 ∈ ((Attempt.mapped₀.atomicBegin ∅ 0).faults .all
      [0x180000,0x180000]).1.writeSetVersion ∧
    Layout.adjacent.globalHeap + heapSize ≤ Layout.adjacent.globalPos 0x180000 := by
  have hw : 0x180000 ∈ ((Attempt.mapped₀.atomicBegin ∅ 0).faults .all
      [0x180000,0x180000]).1.writeSetVersion := by decide +kernel
  refine ⟨fun h => ?_,hw,by decide⟩
  have hin := (h.copied _ hw).1
  revert hin
  unfold Layout.Inside
  decide

end GThread
