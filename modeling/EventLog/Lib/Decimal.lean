import EventLog.Lib.Bytes
import Mathlib.Data.Nat.Digits.Lemmas

/-!
# Decimal numerals

ASCII numerals padded with zeros to a width, and the value a string of digits denotes.  Among
the strings of one length the two are inverse to each other; a longer or shorter string of
digits can denote the same number.
-/

namespace EventLog.Lib

/-- The character of a digit. -/
def digitByte (d : Nat) : UInt8 := UInt8.ofNat (48 + d)

/-- The digit of a character. -/
def digitVal (c : UInt8) : Nat := c.toNat - 48

def IsDigit (c : UInt8) : Prop := 48 ≤ c.toNat ∧ c.toNat ≤ 57

instance (c : UInt8) : Decidable (IsDigit c) := inferInstanceAs (Decidable (_ ∧ _))

/-- The numeral of `n`, padded with zeros on the left to at least `w` digits. -/
def paddedDecimal (w n : Nat) : Bytes := (Nat.digitsAppend 10 w n).reverse.map digitByte

/-- What a reader that has seen `n` makes of the digits `s`. -/
def decimalFrom (n : Nat) (s : Bytes) : Nat := s.foldl (fun n c => n * 10 + digitVal c) n

/-- The number a string of digits denotes. -/
def decimalValue (s : Bytes) : Nat := decimalFrom 0 s

section Decimal

variable {w n d : Nat} {s : Bytes} {c : UInt8}

theorem digitByte_toNat (h : d < 10) : (digitByte d).toNat = 48 + d :=
  UInt8.toNat_ofNat_of_lt (by simp only [UInt8.size]; omega)

theorem isDigit_digitByte (h : d < 10) : IsDigit (digitByte d) := by
  rw [IsDigit, digitByte_toNat h]
  omega

theorem digitVal_digitByte (h : d < 10) : digitVal (digitByte d) = d := by
  rw [digitVal, digitByte_toNat h, Nat.add_sub_cancel_left]

theorem IsDigit.digitVal_lt (h : IsDigit c) : digitVal c < 10 := by
  have := h.2
  rw [digitVal]
  omega

theorem IsDigit.digitByte_digitVal (h : IsDigit c) : digitByte (digitVal c) = c := by
  have hle := h.1
  rw [← UInt8.toNat_inj, digitByte_toNat h.digitVal_lt, digitVal]
  omega

/-- More digits never make the number smaller. -/
theorem le_decimalFrom (n : Nat) (s : Bytes) : n ≤ decimalFrom n s := by
  induction s generalizing n with
  | nil => exact Nat.le_refl n
  | cons c s ih => exact Nat.le_trans (by omega) (ih (n * 10 + digitVal c))

/-- The value is that of the digits in reverse order. -/
theorem decimalValue_eq (s : Bytes) :
    decimalValue s = Nat.ofDigits 10 (s.map digitVal).reverse := by
  rw [decimalValue, decimalFrom]
  induction s using List.reverseRecOn with
  | nil => rfl
  | append_singleton s c ih =>
    rw [List.foldl_append, List.foldl_cons, List.foldl_nil, ih, List.map_append, List.map_singleton,
      List.reverse_append, List.reverse_singleton, List.singleton_append, Nat.ofDigits_cons]
    omega

theorem paddedDecimal_isDigit (hc : c ∈ paddedDecimal w n) : IsDigit c := by
  obtain ⟨d, hd, rfl⟩ := List.mem_map.mp hc
  exact isDigit_digitByte (Nat.lt_of_mem_digitsAppend (by decide) w d (List.mem_reverse.mp hd))

theorem paddedDecimal_length (h : n < 10 ^ w) : (paddedDecimal w n).length = w := by
  rw [paddedDecimal, List.length_map, List.length_reverse, Nat.length_digitsAppend (by decide) w h]

/-- A numeral denotes its number. -/
theorem decimalValue_paddedDecimal (w n : Nat) : decimalValue (paddedDecimal w n) = n := by
  have hdigits : ((Nat.digitsAppend 10 w n).reverse.map digitByte).map digitVal =
      (Nat.digitsAppend 10 w n).reverse := by
    rw [List.map_map]
    refine (List.map_congr_left fun d hd => ?_).trans (List.map_id _)
    exact digitVal_digitByte (Nat.lt_of_mem_digitsAppend (by decide) w d (List.mem_reverse.mp hd))
  rw [decimalValue_eq, paddedDecimal, hdigits, List.reverse_reverse, Nat.digitsAppend,
    Nat.ofDigits_append_replicate_zero, Nat.ofDigits_digits]

/-- A string of digits is the numeral of its length. -/
theorem paddedDecimal_decimalValue (h : ∀ c ∈ s, IsDigit c) :
    paddedDecimal s.length (decimalValue s) = s := by
  have hmem : (s.map digitVal).reverse ∈
      {L : List Nat | L.length = s.length ∧ ∀ x ∈ L, x < 10} := by
    refine ⟨by simp, fun x hx => ?_⟩
    obtain ⟨c, hc, rfl⟩ := List.mem_map.mp (List.mem_reverse.mp hx)
    exact (h c hc).digitVal_lt
  have hinv := (Nat.setInvOn_digitsAppend_ofDigits (by decide : 1 < 10) s.length).1 hmem
  rw [paddedDecimal, decimalValue_eq, hinv, List.reverse_reverse, List.map_map]
  exact (List.map_congr_left fun c hc => (h c hc).digitByte_digitVal).trans (List.map_id _)

end Decimal

end EventLog.Lib
