import Mathlib.Data.List.Basic
import Mathlib.Data.Nat.Notation

/-! Numbers in base 16 as text, padded with zeros. -/
namespace Hex

def isHex (c : Char) : Bool :=
  '0' ≤ c && c ≤ '9' || 'a' ≤ c && c ≤ 'f' || 'A' ≤ c && c ≤ 'F'

def hexValue (c : Char) : ℕ :=
  if c ≤ '9' then c.toNat - '0'.toNat
  else if c ≤ 'F' then c.toNat - 'A'.toNat + 10
  else c.toNat - 'a'.toNat + 10

/-- The value of a list of digits, behind digits of the value `v`. -/
def ofHex (cs : List Char) (v : ℕ) : ℕ := cs.foldl (fun v c => 16 * v + hexValue c) v

def toHex (w n : ℕ) : List Char := (Nat.toDigits 16 n).leftpad w '0'

theorem hexValue_digitChar : ∀ d < 16, hexValue d.digitChar = d := by decide

theorem isHex_digitChar : ∀ d < 16, isHex d.digitChar = true := by decide

theorem ofHex_toDigits (n : ℕ) : ofHex (Nat.toDigits 16 n) 0 = n := by
  induction n using Nat.strongRecOn with
  | ind n ih =>
    rw [Nat.toDigits_eq_if (by decide)]
    split
    · rename_i hlt
      simp [ofHex,hexValue_digitChar n hlt]
    · rename_i hge
      have hdiv := ih (n / 16) (Nat.div_lt_self (by omega) (by decide))
      unfold ofHex at *
      rw [List.foldl_append,hdiv]
      simp only [List.foldl_cons,List.foldl_nil,
        hexValue_digitChar (n % 16) (Nat.mod_lt n (by decide))]
      exact Nat.div_add_mod n 16

theorem isHex_toDigits (n : ℕ) : ∀ c ∈ Nat.toDigits 16 n, isHex c = true := by
  induction n using Nat.strongRecOn with
  | ind n ih =>
    rw [Nat.toDigits_eq_if (by decide)]
    split
    · rename_i hlt
      simpa using isHex_digitChar n hlt
    · rename_i hge
      intro c hc
      obtain hc | hc := List.mem_append.mp hc
      · exact ih (n / 16) (Nat.div_lt_self (by omega) (by decide)) c hc
      · rw [List.mem_singleton.mp hc]
        exact isHex_digitChar _ (Nat.mod_lt n (by decide))

theorem ofHex_toHex (w n : ℕ) : ofHex (toHex w n) 0 = n := by
  have hzeros (k : ℕ) : ofHex (List.replicate k '0') 0 = 0 := by
    induction k with
    | zero => rfl
    | succ k ih => exact ih
  unfold ofHex at hzeros
  rw [toHex,List.leftpad,ofHex,List.foldl_append,hzeros]
  exact ofHex_toDigits n

theorem isHex_toHex (w n : ℕ) : ∀ c ∈ toHex w n, isHex c = true := by
  intro c hc
  obtain hc | hc := List.mem_append.mp hc
  · rw [List.eq_of_mem_replicate hc]
    rfl
  · exact isHex_toDigits n c hc

theorem toHex_ne_nil (w n : ℕ) : toHex w n ≠ [] :=
  List.append_ne_nil_of_right_ne_nil _ Nat.toDigits_ne_nil

end Hex
