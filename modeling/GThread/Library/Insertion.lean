import Mathlib.Data.List.Nodup

/-! Lists that grow by inserting a new element just before an old one. -/
namespace Insertion
variable {α : Type*} [DecidableEq α]

def insertBefore (b c : α) : List α → List α
  | [] => []
  | a :: l => if a = b then c :: a :: l else a :: insertBefore b c l

variable {b c : α} {l : List α}

theorem mem_insertBefore (hb : b ∈ l) (q : α) : q ∈ insertBefore b c l ↔ q = c ∨ q ∈ l := by
  induction l with
  | nil => cases hb
  | cons a l ih =>
    unfold insertBefore
    split
    · simp
    · rename_i ha
      have hb : b ∈ l := (List.mem_cons.mp hb).resolve_left (Ne.symm ha)
      simp only [List.mem_cons,ih hb]
      tauto

theorem nodup_insertBefore (hc : c ∉ l) (hl : l.Nodup) : (insertBefore b c l).Nodup := by
  induction l with
  | nil => exact hl
  | cons a l ih =>
    obtain ⟨ha,hl'⟩ := List.nodup_cons.mp hl
    have hcl : c ∉ l := fun h => hc (List.mem_cons_of_mem _ h)
    unfold insertBefore
    split
    · exact List.nodup_cons.mpr ⟨hc,hl⟩
    · refine List.nodup_cons.mpr ⟨?_,ih hcl hl'⟩
      by_cases hb : b ∈ l
      · rw [mem_insertBefore hb]
        intro hmem
        obtain rfl | h := hmem
        · exact hc List.mem_cons_self
        · exact ha h
      · rename_i hab
        have hskip : insertBefore b c l = l := by
          clear ih hc ha hl hl' hcl
          induction l with
          | nil => rfl
          | cons d l ih =>
            obtain ⟨hbd,hb⟩ := not_or.mp (mt List.mem_cons.mpr hb)
            rw [insertBefore,if_neg (Ne.symm hbd),ih hb]
        rwa [hskip]

theorem insertBefore_append (pre post : List α) (hb : b ∉ pre) :
    insertBefore b c (pre ++ b :: post) = pre ++ c :: b :: post := by
  induction pre with
  | nil => simp [insertBefore]
  | cons a pre ih =>
    obtain ⟨hba,hb⟩ := not_or.mp (mt List.mem_cons.mpr hb)
    rw [List.cons_append,insertBefore,if_neg (Ne.symm hba),ih hb,List.cons_append]

theorem idxOf_insertBefore_self (hb : b ∈ l) (hc : c ∉ l) :
    (insertBefore b c l).idxOf c = l.idxOf b := by
  induction l with
  | nil => cases hb
  | cons a l ih =>
    obtain ⟨hca,hcl⟩ := not_or.mp (mt List.mem_cons.mpr hc)
    unfold insertBefore
    split
    · rename_i ha
      simp [ha]
    · rename_i ha
      have hb : b ∈ l := (List.mem_cons.mp hb).resolve_left (Ne.symm ha)
      rw [List.idxOf_cons_ne _ (Ne.symm hca),List.idxOf_cons_ne _ ha,ih hb hcl]

theorem idxOf_insertBefore (hb : b ∈ l) {q : α} (hq : q ≠ c) :
    (insertBefore b c l).idxOf q =
      if l.idxOf q < l.idxOf b then l.idxOf q else l.idxOf q + 1 := by
  induction l with
  | nil => cases hb
  | cons a l ih =>
    unfold insertBefore
    split
    · rename_i ha
      rw [List.idxOf_cons_ne _ (Ne.symm hq)]
      simp [ha]
    · rename_i ha
      have hb : b ∈ l := (List.mem_cons.mp hb).resolve_left (Ne.symm ha)
      rw [List.idxOf_cons_ne _ ha]
      by_cases hqa : q = a
      · simp [hqa]
      · rw [List.idxOf_cons_ne _ (Ne.symm hqa),List.idxOf_cons_ne _ (Ne.symm hqa),ih hb]
        split <;> simp_all

theorem idxOf_lt_of_append {pre : List α} (post : List α) {q : α} (hq : q ∈ pre) (hb : b ∉ pre) :
    (pre ++ b :: post).idxOf q < (pre ++ b :: post).idxOf b := by
  rw [List.idxOf_append_of_mem hq,List.idxOf_append_of_notMem hb]
  have := List.idxOf_lt_length_of_mem hq
  omega

end Insertion
