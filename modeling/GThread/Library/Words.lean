import Mathlib.Logic.Function.Iterate
import Mathlib.Algebra.Order.Group.Nat
import Mathlib.Tactic.Ring

/-! Little-endian words in a memory of bytes. -/
namespace Words

/-- The `w` bytes at `a`, the lowest first. -/
def readWord (m : ℕ → UInt8) (a : ℕ) : ℕ → ℕ
  | 0 => 0
  | w + 1 => readWord m a w + (m (a + w)).toNat * 256 ^ w

def writeWord (m : ℕ → UInt8) (a v : ℕ) : ℕ → ℕ → UInt8
  | 0 => m
  | w + 1 => Function.update (writeWord m a v w) (a + w) (UInt8.ofNat (v / 256 ^ w))

theorem readWord_lt (m : ℕ → UInt8) (a w : ℕ) : readWord m a w < 256 ^ w := by
  induction w with
  | zero => exact Nat.one_pos
  | succ w ih =>
    have hb : (m (a + w)).toNat ≤ 255 := Nat.le_of_lt_succ (m (a + w)).toNat_lt
    calc readWord m a w + (m (a + w)).toNat * 256 ^ w
        < 256 ^ w + 255 * 256 ^ w := Nat.add_lt_add_of_lt_of_le ih (Nat.mul_le_mul_right _ hb)
      _ = 256 ^ (w + 1) := by ring

theorem readWord_congr {m n : ℕ → UInt8} {a w : ℕ} (h : ∀ i < w, m (a + i) = n (a + i)) :
    readWord m a w = readWord n a w := by
  induction w with
  | zero => rfl
  | succ w ih =>
    simp only [readWord,ih fun i hi => h i (Nat.lt_succ_of_lt hi),h w (Nat.lt_succ_self w)]

theorem writeWord_of_lt (m : ℕ → UInt8) (a v : ℕ) {w b : ℕ} (h : b < a ∨ a + w ≤ b) :
    writeWord m a v w b = m b := by
  induction w with
  | zero => rfl
  | succ w ih =>
    rw [writeWord,Function.update_of_ne (by omega)]
    exact ih (by omega)

theorem readWord_writeWord (m : ℕ → UInt8) (a v w : ℕ) :
    readWord (writeWord m a v w) a w = v % 256 ^ w := by
  induction w with
  | zero => simp [readWord,Nat.mod_one]
  | succ w ih =>
    have hlow : readWord (writeWord m a v (w + 1)) a w = v % 256 ^ w := by
      rw [← ih]
      refine readWord_congr fun i hi => ?_
      rw [writeWord,Function.update_of_ne (by omega)]
    have hbyte : (UInt8.ofNat (v / 256 ^ w)).toNat = v / 256 ^ w % 256 := UInt8.toNat_ofNat'
    rw [readWord,hlow,writeWord,Function.update_self,hbyte,pow_succ 256 w,Nat.mod_mul]
    ring

end Words
