import Mathlib.Data.UInt

/-! # Images of bytes

A store of bytes is a function on addresses.  A structure in it is read through its
view from an address, with little-endian fields, and written by patching a span.
-/

namespace Lib.Image

abbrev Img := Nat → UInt8

/-- The image from `a` on. -/
def view (img : Img) (a : Nat) : Img := fun i => img (a + i)

/-- `n` bytes from `a` on replaced. -/
def patch (img : Img) (a n : Nat) (data : Img) : Img := fun x =>
  if a ≤ x ∧ x < a + n then data (x - a) else img x

def le16 (img : Img) (a : Nat) : Nat := (img a).toNat + 2 ^ 8 * (img (a + 1)).toNat

def le32 (img : Img) (a : Nat) : Nat := le16 img a + 2 ^ 16 * le16 img (a + 2)

/-- Byte `i` of a little-endian number. -/
def byteOf (v i : Nat) : UInt8 := UInt8.ofNat (v / 2 ^ (8 * i))

def put16 (img : Img) (a v : Nat) : Img := patch img a 2 (byteOf v)

def put32 (img : Img) (a v : Nat) : Img := patch img a 4 (byteOf v)

def testBit (img : Img) (a i : Nat) : Bool := (img a).toNat.testBit i

def setBit (img : Img) (a i : Nat) : Img := patch img a 1 fun _ => UInt8.ofNat ((img a).toNat ||| 2 ^ i)

variable {img img' : Img} {a b n v x i m j : Nat} {data : Img}

theorem patch_inside (above : a ≤ x) (below : x < a + n) : patch img a n data x = data (x - a) :=
  if_pos ⟨above, below⟩

theorem patch_outside (outside : x < a ∨ a + n ≤ x) : patch img a n data x = img x :=
  if_neg (by omega)

theorem patch_add (below : i < n) : patch img a n data (a + i) = data i := by
  rw [patch_inside (Nat.le_add_right a i) (Nat.add_lt_add_left below a), Nat.add_sub_cancel_left]

/-- To change a few bytes of a span that was read and write the span back is to change
    those bytes. -/
theorem patch_patch_view (fits : i + m ≤ n) :
    patch img a n (patch (view img a) i m data) = patch img (a + i) m data := by
  funext x
  by_cases outer : a ≤ x ∧ x < a + n
  · rw [patch_inside outer.1 outer.2]
    by_cases inner : i ≤ x - a ∧ x - a < i + m
    · rw [patch_inside inner.1 inner.2, patch_inside (by omega) (by omega), Nat.sub_sub]
    · rw [patch_outside (by omega), patch_outside (by omega), view, Nat.add_sub_cancel' outer.1]
  · rw [patch_outside (by omega), patch_outside (by omega)]

theorem le16_congr (same : ∀ i < 2, img' (b + i) = img (a + i)) : le16 img' b = le16 img a := by
  have first := same 0 (by omega)
  have second := same 1 (by omega)
  rw [Nat.add_zero, Nat.add_zero] at first
  rw [le16, le16, first, second]

theorem le32_congr (same : ∀ i < 4, img' (b + i) = img (a + i)) : le32 img' b = le32 img a := by
  have low : le16 img' b = le16 img a := le16_congr fun i below => same i (by omega)
  have high : le16 img' (b + 2) = le16 img (a + 2) := le16_congr fun i below => by
    have shifted := same (2 + i) (by omega)
    rwa [← Nat.add_assoc, ← Nat.add_assoc] at shifted
  rw [le32, le32, low, high]

theorem le32_view (img : Img) (a i : Nat) : le32 (view img a) i = le32 img (a + i) :=
  le32_congr fun j _ => congrArg img (Nat.add_assoc a i j).symm

theorem le16_lt (img : Img) (a : Nat) : le16 img a < 2 ^ 16 := by
  have low := (img a).toNat_lt
  have high := (img (a + 1)).toNat_lt
  rw [le16]
  omega

theorem le32_lt (img : Img) (a : Nat) : le32 img a < 2 ^ 32 := by
  have low := le16_lt img a
  have high := le16_lt img (a + 2)
  rw [le32]
  omega

theorem byteOf_toNat (v i : Nat) : (byteOf v i).toNat = v / 2 ^ (8 * i) % 2 ^ 8 := UInt8.toNat_ofNat'

theorem le32_put32 (small : v < 2 ^ 32) : le32 (put32 img a v) a = v := by
  have byte : ∀ i < 4, (put32 img a v (a + i)).toNat = v / 2 ^ (8 * i) % 2 ^ 8 := fun i below => by
    rw [put32, patch_add below, byteOf_toNat]
  have b0 := byte 0 (by omega)
  have b1 := byte 1 (by omega)
  have b2 := byte 2 (by omega)
  have b3 := byte 3 (by omega)
  rw [Nat.add_zero] at b0
  rw [le32, le16, le16, b0, b1, Nat.add_assoc a 2 1, b2, b3]
  omega

theorem le32_patch (outside : ∀ i < 4, b + i < a ∨ a + n ≤ b + i) :
    le32 (patch img a n data) b = le32 img b :=
  le32_congr fun i below => patch_outside (outside i below)

theorem le32_put32_of_ne (apart : b + 4 ≤ a ∨ a + 4 ≤ b) : le32 (put32 img a v) b = le32 img b :=
  le32_patch fun i below => by omega

theorem testBit_setBit (small : i < 8) :
    testBit (setBit img a i) b j = (testBit img b j || decide (b = a ∧ i = j)) := by
  by_cases here : b = a
  · subst here
    have byte : setBit img b i b = UInt8.ofNat ((img b).toNat ||| 2 ^ i) :=
      patch_inside (Nat.le_refl b) (Nat.lt_succ_self b)
    have bound : (img b).toNat ||| 2 ^ i < 2 ^ 8 :=
      Nat.or_lt_two_pow (img b).toNat_lt (Nat.pow_lt_pow_right (by omega) small)
    rw [testBit, byte, UInt8.toNat_ofNat', Nat.mod_eq_of_lt bound, Nat.testBit_or, Nat.testBit_two_pow]
    simp [testBit]
  · rw [testBit, setBit, patch_outside (by omega)]
    simp [testBit, here]

end Lib.Image
