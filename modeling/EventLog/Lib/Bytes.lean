import Mathlib.Algebra.Group.Int.Defs
import Mathlib.Algebra.Group.Nat.Defs
import Mathlib.Data.List.Induction

/-!
# Byte strings

Fixed-width big-endian numbers and slices of byte strings, as the encoders and
positional reads of a file format use them.
-/

namespace EventLog.Lib

abbrev Bytes := List UInt8

/-! ## Big-endian numbers -/

/-- The `w` low bytes of `n`, most significant first. -/
def beBytes : (w n : Nat) → Bytes
  | 0, _ => []
  | w + 1, n => beBytes w (n / 256) ++ [UInt8.ofNat (n % 256)]

/-- The number a byte string denotes, most significant byte first. -/
def beNat (bs : Bytes) : Nat := bs.foldl (fun acc b => acc * 256 + b.toNat) 0

@[simp] theorem beBytes_length (w n : Nat) : (beBytes w n).length = w := by
  induction w generalizing n with
  | zero => rfl
  | succ w ih => simp [beBytes, ih]

theorem beNat_concat (bs : Bytes) (b : UInt8) : beNat (bs ++ [b]) = beNat bs * 256 + b.toNat := by
  simp [beNat]

/-- A number is cut to the width of its field. -/
theorem beNat_beBytes_mod (w n : Nat) : beNat (beBytes w n) = n % 256 ^ w := by
  induction w generalizing n with
  | zero =>
    rw [Nat.pow_zero, Nat.mod_one]
    rfl
  | succ w ih =>
    -- the last byte holds the remainder, and the rest the quotient
    have hbyte : (UInt8.ofNat (n % 256)).toNat = n % 256 := by
      rw [UInt8.toNat_ofNat']
      omega
    rw [beBytes, beNat_concat, ih, hbyte, Nat.pow_succ', Nat.mod_mul]
    omega

theorem beNat_beBytes {w n : Nat} (h : n < 256 ^ w) : beNat (beBytes w n) = n := by
  rw [beNat_beBytes_mod, Nat.mod_eq_of_lt h]

/-- A byte string is the number it denotes, written at its own width. -/
theorem beBytes_beNat (bs : Bytes) : beBytes bs.length (beNat bs) = bs := by
  induction bs using List.reverseRecOn with
  | nil => rfl
  | append_singleton bs b ih =>
    have hbyte := b.toNat_lt
    have hdiv : (beNat bs * 256 + b.toNat) / 256 = beNat bs := by omega
    have hmod : (beNat bs * 256 + b.toNat) % 256 = b.toNat := by omega
    rw [List.length_append, List.length_singleton, beBytes, beNat_concat, hdiv, hmod, ih,
      UInt8.ofNat_toNat]

theorem beNat_lt (bs : Bytes) : beNat bs < 256 ^ bs.length := by
  have hmod := beNat_beBytes_mod bs.length (beNat bs)
  rw [beBytes_beNat] at hmod
  rw [hmod]
  exact Nat.mod_lt _ (Nat.pow_pos (by decide))

/-! ## Slices -/

/-- `len` bytes from position `pos` on, fewer at the end of the string. -/
def slice (bs : Bytes) (pos len : Nat) : Bytes := (bs.drop pos).take len

theorem slice_length (bs : Bytes) (pos len : Nat) :
    (slice bs pos len).length = min len (bs.length - pos) := by
  rw [slice, List.length_take, List.length_drop]

theorem slice_length_of_le {bs : Bytes} {pos len : Nat} (h : pos + len ≤ bs.length) :
    (slice bs pos len).length = len := by
  rw [slice_length]
  omega

/-- A slice of the front of a string. -/
theorem slice_take {bs : Bytes} {pos len n : Nat} (h : pos + len ≤ n) :
    slice (bs.take n) pos len = slice bs pos len := by
  rw [slice, slice, List.drop_take, List.take_take, Nat.min_eq_left (by omega)]

/-- Slicing behind a known first part. -/
theorem slice_append_right (a b : Bytes) (pos len : Nat) :
    slice (a ++ b) (a.length + pos) len = slice b pos len := by
  rw [slice, slice, ← List.drop_drop, List.drop_left]

/-- Two slices next to each other. -/
theorem slice_add (bs : Bytes) (pos m n : Nat) :
    slice bs pos (m + n) = slice bs pos m ++ slice bs (pos + m) n := by
  rw [slice, slice, slice, List.take_add, List.drop_drop]

theorem slice_zero (bs : Bytes) (len : Nat) : slice bs 0 len = bs.take len := rfl

/-- The part between two known parts. -/
theorem slice_middle (a b c : Bytes) : slice (a ++ (b ++ c)) a.length b.length = b := by
  have h := slice_append_right a (b ++ c) 0 b.length
  rwa [Nat.add_zero, slice_zero, List.take_left] at h

/-- A slice does not see a byte outside it. -/
theorem slice_set {bs : Bytes} {pos len p : Nat} (b : UInt8) (h : p < pos ∨ pos + len ≤ p) :
    slice (bs.set p b) pos len = slice bs pos len := by
  rw [slice, slice]
  rcases h with h | h
  · rw [List.drop_set_of_lt h]
  · rw [List.drop_set, if_neg (by omega), List.take_set_of_le (by omega)]

/-- A slice shows an altered byte inside it. -/
theorem slice_set_inside (bs : Bytes) {pos p : Nat} (len : Nat) (b : UInt8) (h : pos ≤ p) :
    slice (bs.set p b) pos len = (slice bs pos len).set (p - pos) b := by
  rw [slice, slice, List.drop_set, if_neg (by omega), List.take_set]

end EventLog.Lib
