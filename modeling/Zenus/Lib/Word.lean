import Mathlib.Data.Nat.Bitwise
import Mathlib.Tactic.NormNum

/-! # 64-bit words as natural numbers

Machine words are natural numbers below `2 ^ 64`.  Addition wraps, complement is
taken within the word, and the masks that clear low bits are related to division
so that linear arithmetic can finish what they start.
-/

namespace Lib.Word

def WORD : Nat := 2 ^ 64

def wadd (a b : Nat) : Nat := (a + b) % WORD

def wsub (a b : Nat) : Nat := (a + WORD - b) % WORD

def wmul (a b : Nat) : Nat := a * b % WORD

def satAdd (a b : Nat) : Nat := min (a + b) (WORD - 1)

def checkedAdd (a b : Nat) : Option Nat := if a + b < WORD then some (a + b) else none

def bnot (m : Nat) : Nat := WORD - 1 - m

theorem WORD_eq : WORD = 18446744073709551616 := by decide

theorem wadd_of_lt {a b : Nat} (h : a + b < WORD) : wadd a b = a + b := Nat.mod_eq_of_lt h

theorem eq_of_checkedAdd {a b c : Nat} (sum : checkedAdd a b = some c) : c = a + b := by
  unfold checkedAdd at sum
  split at sum
  · exact (Option.some.inj sum).symm
  · simp at sum

theorem wsub_of_le {a b : Nat} (h : b ≤ a) (bound : a < WORD) : wsub a b = a - b := by
  rw [wsub, show a + WORD - b = a - b + WORD by omega, Nat.add_mod_right]
  exact Nat.mod_eq_of_lt (by omega)

theorem wsub_lt (a b : Nat) : wsub a b < WORD := Nat.mod_lt _ (by decide)

theorem testBit_bnot_mask (k i : Nat) (h : k ≤ 64) :
    (bnot (2 ^ k - 1)).testBit i = (decide (k ≤ i) && decide (i < 64)) := by
  have shifted : bnot (2 ^ k - 1) = (2 ^ (64 - k) - 1) <<< k := by
    have pos : 0 < 2 ^ k := Nat.two_pow_pos k
    have whole : 2 ^ (64 - k) * 2 ^ k = 2 ^ 64 := by rw [← Nat.pow_add, Nat.sub_add_cancel h]
    simp only [bnot, WORD, Nat.shiftLeft_eq, Nat.sub_mul, whole, Nat.one_mul]
    omega
  rw [shifted, Nat.testBit_shiftLeft, Nat.testBit_two_pow_sub_one]
  by_cases low : k ≤ i
  · simp only [low, decide_true, Bool.true_and]
    congr 1
    exact propext (by omega)
  · simp [low]

theorem and_bnot_mask_mod (x : Nat) {k : Nat} (hk : k ≤ 64) :
    x &&& bnot (2 ^ k - 1) = x % WORD / 2 ^ k * 2 ^ k := by
  rw [← Nat.shiftLeft_eq, ← Nat.shiftRight_eq_div_pow]
  apply Nat.eq_of_testBit_eq
  intro i
  rw [Nat.testBit_and, testBit_bnot_mask k i hk, Nat.testBit_shiftLeft, Nat.testBit_shiftRight,
    WORD, Nat.testBit_mod_two_pow]
  by_cases low : k ≤ i
  · rw [Nat.add_sub_cancel' low]
    by_cases inWord : i < 64 <;> simp [low, inWord]
  · simp [low]

theorem and_bnot_mask {x k : Nat} (hx : x < WORD) (hk : k ≤ 64) :
    x &&& bnot (2 ^ k - 1) = x / 2 ^ k * 2 ^ k := by
  rw [and_bnot_mask_mod x hk, Nat.mod_eq_of_lt hx]

theorem and_bnot_page (x : Nat) : 4096 ∣ x &&& bnot 0xFFF := by
  rw [show 0xFFF = 2 ^ 12 - 1 by decide, and_bnot_mask_mod x (by decide)]
  exact Dvd.intro_left _ rfl

/-- Rounding up by adding `2 ^ k - 1` and clearing: the least multiple at or
    above `x`. -/
theorem roundUp_spec {x a : Nat} (pos : 0 < a) :
    x ≤ (x + (a - 1)) / a * a ∧ (x + (a - 1)) / a * a < x + a ∧ a ∣ (x + (a - 1)) / a * a := by
  have split := Nat.div_add_mod (x + (a - 1)) a
  have small := Nat.mod_lt (x + (a - 1)) pos
  rw [Nat.mul_comm] at split
  exact ⟨by omega, by omega, Nat.dvd_mul_left _ _⟩

end Lib.Word
