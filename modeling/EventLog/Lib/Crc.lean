import EventLog.Lib.Bytes
import Mathlib.Data.Nat.Bitwise

/-!
# Reflected cyclic redundancy checks

A reflected CRC reads the message least significant bit first.  Its register is shifted
down once for each bit, and the polynomial is added when a one is shifted out.

* **Bit step**: `crcShift` is linear in exclusive or, and loses nothing on registers of the
  width of the polynomial.  On longer numbers it reads the bits above that width as message
  bits still to come.
* **Closed form**: `crcRegister_eq` gives the register after a message as the shifts of one
  number, the message least significant byte first.
* **Bursts**: `crcRegister_ne_of_burst`: two messages whose differences lie in a window of
  the width of the register leave different registers.
-/

namespace EventLog.Lib

variable {poly c w : Nat}

/-! ## Bit step -/

/-- Shift one bit out of the register. -/
def crcShift (poly c : Nat) : Nat := if c % 2 = 1 then c / 2 ^^^ poly else c / 2

theorem crcShift_xor (poly a b : Nat) :
    crcShift poly (a ^^^ b) = crcShift poly a ^^^ crcShift poly b := by
  have hpoly : a / 2 ^^^ poly ^^^ (b / 2 ^^^ poly) = a / 2 ^^^ b / 2 := by
    rw [Nat.xor_assoc, Nat.xor_comm (b / 2), ← Nat.xor_assoc poly, Nat.xor_self, Nat.zero_xor]
  simp only [crcShift, Nat.xor_mod_two_eq_one, Nat.xor_div_two]
  by_cases ha : a % 2 = 1 <;> by_cases hb : b % 2 = 1 <;> simp only [ha, hb, if_true, if_false]
  · simpa using hpoly.symm
  · simp [Nat.xor_assoc, Nat.xor_comm poly]
  · simp [Nat.xor_assoc]
  · simp

@[simp] theorem crcShift_two_mul (poly c : Nat) : crcShift poly (2 * c) = c := by
  unfold crcShift
  rw [if_neg (by omega), Nat.mul_div_cancel_left c (by omega)]

theorem crcShift_lt (hpoly : poly < 2 ^ (w + 1)) (hc : c < 2 ^ (w + 1)) :
    crcShift poly c < 2 ^ (w + 1) := by
  have hhalf : c / 2 < 2 ^ (w + 1) := by omega
  unfold crcShift
  split
  · exact Nat.xor_lt_two_pow hhalf hpoly
  · exact hhalf

/-- The polynomial has the top bit of the register, which a shift leaves clear. -/
theorem crcShift_ne_zero (hpoly : 2 ^ w ≤ poly) (hc : c < 2 ^ (w + 1)) (h : c ≠ 0) :
    crcShift poly c ≠ 0 := by
  rw [Nat.pow_succ] at hc
  unfold crcShift
  split
  · intro hzero
    have hsame := Nat.xor_eq_zero_iff.mp hzero
    omega
  · omega

/-- Shift `n` bits out of the register. -/
def crcShifts (poly n c : Nat) : Nat := Nat.repeat (crcShift poly) n c

theorem crcShifts_succ (poly n c : Nat) :
    crcShifts poly (n + 1) c = crcShift poly (crcShifts poly n c) := rfl

theorem crcShifts_add (poly m n c : Nat) :
    crcShifts poly (m + n) c = crcShifts poly m (crcShifts poly n c) := by
  induction m with
  | zero =>
    rw [Nat.zero_add]
    rfl
  | succ m ih => rw [Nat.succ_add, crcShifts_succ, crcShifts_succ, ih]

theorem crcShifts_xor (poly n a b : Nat) :
    crcShifts poly n (a ^^^ b) = crcShifts poly n a ^^^ crcShifts poly n b := by
  induction n with
  | zero => rfl
  | succ n ih => rw [crcShifts_succ, crcShifts_succ, crcShifts_succ, ih, crcShift_xor]

/-- Zeros are shifted out without a trace. -/
theorem crcShifts_two_pow_mul (poly n c : Nat) : crcShifts poly n (2 ^ n * c) = c := by
  induction n generalizing c with
  | zero => exact Nat.one_mul c
  | succ n ih => rw [crcShifts_succ, Nat.pow_succ, Nat.mul_assoc, ih, crcShift_two_mul]

theorem crcShifts_lt (hpoly : poly < 2 ^ (w + 1)) (hc : c < 2 ^ (w + 1)) (n : Nat) :
    crcShifts poly n c < 2 ^ (w + 1) := by
  induction n with
  | zero => exact hc
  | succ n ih => exact crcShift_lt hpoly ih

theorem crcShifts_ne_zero (hlow : 2 ^ w ≤ poly) (hhigh : poly < 2 ^ (w + 1))
    (hc : c < 2 ^ (w + 1)) (h : c ≠ 0) (n : Nat) : crcShifts poly n c ≠ 0 := by
  induction n with
  | zero => exact h
  | succ n ih => exact crcShift_ne_zero hlow (crcShifts_lt hhigh hc n) ih

/-! ## Byte strings, least significant first -/

/-- Bit `i` of a byte string, least significant first in each byte. -/
def bitAt (bs : Bytes) (i : Nat) : Bool := (bs.getD (i / 8) 0).toNat.testBit (i % 8)

/-- The number a byte string denotes, least significant byte first. -/
def leNat : Bytes → Nat
  | [] => 0
  | b :: bs => 2 ^ 8 * leNat bs + b.toNat

theorem testBit_leNat (bs : Bytes) (i : Nat) : (leNat bs).testBit i = bitAt bs i := by
  induction bs generalizing i with
  | nil => simp [leNat, bitAt]
  | cons b bs ih =>
    rw [leNat, Nat.testBit_two_pow_mul_add _ b.toNat_lt]
    unfold bitAt
    -- the bit is in the first byte, or eight places on in the rest
    split
    next hi => rw [Nat.div_eq_of_lt hi, Nat.mod_eq_of_lt hi, List.getD_cons_zero]
    next hi =>
      obtain ⟨j, rfl⟩ : ∃ j, i = j + 8 := ⟨i - 8, by omega⟩
      rw [ih, Nat.add_sub_cancel, Nat.add_div_right j (by omega), Nat.add_mod_right,
        List.getD_cons_succ, bitAt]

theorem leNat_lt (bs : Bytes) : leNat bs < 2 ^ (8 * bs.length) := by
  induction bs with
  | nil => exact Nat.one_pos
  | cons b bs ih =>
    have hb := b.toNat_lt
    have hpow : 2 ^ (8 * (b :: bs).length) = 2 ^ 8 * 2 ^ (8 * bs.length) := by
      rw [List.length_cons, Nat.mul_succ, Nat.add_comm, Nat.pow_add]
    rw [hpow, leNat]
    omega

/-- A byte string is determined by its length and its number. -/
theorem leNat_inj {a b : Bytes} (hlen : a.length = b.length) (h : leNat a = leNat b) : a = b := by
  induction a generalizing b with
  | nil => exact (List.length_eq_zero_iff.mp hlen.symm).symm
  | cons x a ih =>
    cases b with
    | nil => cases hlen
    | cons y b =>
      have hx := x.toNat_lt
      have hy := y.toNat_lt
      -- the first byte is the remainder modulo 256
      rw [leNat, leNat] at h
      obtain rfl : x = y := UInt8.toNat_inj.mp (by omega)
      rw [ih (Nat.succ.inj hlen) (by omega)]

/-- A part below bit `n` and one from there on. -/
theorem two_pow_mul_add_eq_xor {n b : Nat} (a : Nat) (hb : b < 2 ^ n) :
    2 ^ n * a + b = b ^^^ 2 ^ n * a := by
  refine Nat.eq_of_testBit_eq fun i => ?_
  rw [Nat.testBit_two_pow_mul_add _ hb, Nat.testBit_xor, Nat.testBit_two_pow_mul]
  -- below `n` only `b` has bits, from `n` on only the multiple
  by_cases hi : i < n
  · have hlow : ¬ i ≥ n := Nat.not_le_of_lt hi
    simp [hi, hlow]
  · have hhigh : i ≥ n := Nat.le_of_not_lt hi
    have hclear : b.testBit i = false :=
      Nat.testBit_lt_two_pow (Nat.lt_of_lt_of_le hb (Nat.pow_le_pow_right (by omega) hhigh))
    simp [hi, hhigh, hclear]

/-! ## Register -/

/-- The register after a message. -/
def crcRegister (poly c : Nat) (bs : Bytes) : Nat :=
  bs.foldl (fun c b => crcShifts poly 8 (c ^^^ b.toNat)) c

theorem crcRegister_append (poly c : Nat) (a b : Bytes) :
    crcRegister poly c (a ++ b) = crcRegister poly (crcRegister poly c a) b :=
  List.foldl_append

/-- **Closed form**: the whole message is added at once, and shifted through. -/
theorem crcRegister_eq (poly c : Nat) (bs : Bytes) :
    crcRegister poly c bs = crcShifts poly (8 * bs.length) (c ^^^ leNat bs) := by
  induction bs generalizing c with
  | nil =>
    rw [leNat, Nat.xor_zero]
    rfl
  | cons b bs ih =>
    -- eight shifts take in the first byte, the rest of the message comes behind it
    have hfirst : crcRegister poly c (b :: bs) =
        crcRegister poly (crcShifts poly 8 (c ^^^ b.toNat)) bs := rfl
    rw [hfirst, ih, List.length_cons, Nat.mul_succ, crcShifts_add, leNat,
      two_pow_mul_add_eq_xor _ b.toNat_lt, ← Nat.xor_assoc, crcShifts_xor poly 8 (c ^^^ b.toNat),
      crcShifts_two_pow_mul]

/-- One byte through a table of the shifts of all bytes. -/
theorem crcShifts_eight_table (poly : Nat) {b : Nat} (hb : b < 2 ^ 8) :
    crcShifts poly 8 ((c ^^^ b) % 2 ^ 8) ^^^ c / 2 ^ 8 = crcShifts poly 8 (c ^^^ b) := by
  have hhigh : (c ^^^ b) / 2 ^ 8 = c / 2 ^ 8 := by
    rw [Nat.xor_div_two_pow, Nat.div_eq_of_lt hb, Nat.xor_zero]
  conv_rhs =>
    rw [← Nat.div_add_mod (c ^^^ b) (2 ^ 8), two_pow_mul_add_eq_xor _ (Nat.mod_lt _ (by omega)),
      crcShifts_xor, crcShifts_two_pow_mul, hhigh]

theorem crcRegister_lt (hpoly : poly < 2 ^ (w + 1)) (hw : 7 ≤ w) (hc : c < 2 ^ (w + 1))
    (bs : Bytes) : crcRegister poly c bs < 2 ^ (w + 1) := by
  induction bs generalizing c with
  | nil => exact hc
  | cons b bs ih =>
    have hb : b.toNat < 2 ^ (w + 1) :=
      Nat.lt_of_lt_of_le b.toNat_lt (Nat.pow_le_pow_right (by omega) (by omega : 8 ≤ w + 1))
    exact ih (crcShifts_lt hpoly (Nat.xor_lt_two_pow hc hb) 8)

/-! ## Bursts -/

/-- Two byte strings of one length that differ, and only within `n` consecutive bits. -/
def Burst (n : Nat) (a b : Bytes) : Prop :=
  a.length = b.length ∧ a ≠ b ∧ ∃ start, ∀ i, bitAt a i ≠ bitAt b i → start ≤ i ∧ i < start + n

/-- Some consecutive bytes replaced by others. -/
theorem burst_of_bytes {n : Nat} (x z : Bytes) {y y' : Bytes} (hlen : y.length = y'.length)
    (hne : y ≠ y') (hn : 8 * y.length ≤ n) : Burst n (x ++ (y ++ z)) (x ++ (y' ++ z)) := by
  refine ⟨by simp [hlen], fun h => hne ?_, 8 * x.length, fun i hi => ?_⟩
  · exact List.append_cancel_right (List.append_cancel_left h)
  · by_contra hout
    refine hi ?_
    unfold bitAt
    congr 2
    rw [List.getD_eq_getElem?_getD, List.getD_eq_getElem?_getD]
    congr 1
    -- the byte of the bit lies before the replaced ones or behind them
    by_cases hfront : i / 8 < x.length
    · rw [List.getElem?_append_left hfront, List.getElem?_append_left hfront]
    · rw [List.getElem?_append_right (by omega), List.getElem?_append_right (by omega),
        List.getElem?_append_right (by omega), List.getElem?_append_right (by omega), hlen]

/-- A number whose bits lie in a window is a word of that width, moved up to it. -/
theorem exists_word_of_window {e start n : Nat}
    (hwindow : ∀ i, e.testBit i = true → start ≤ i ∧ i < start + n) :
    ∃ u < 2 ^ n, e = 2 ^ start * u := by
  refine ⟨e / 2 ^ start, Nat.lt_pow_two_of_testBit _ fun j hj => ?_,
    Nat.eq_of_testBit_eq fun j => ?_⟩
  · rw [Nat.testBit_div_two_pow]
    by_contra hset
    have := (hwindow _ (by simpa using hset)).2
    omega
  · rw [Nat.testBit_two_pow_mul, Nat.testBit_div_two_pow]
    by_cases hj : start ≤ j
    · simp [hj]
    · have hclear : e.testBit j = false := by
        by_contra hset
        exact hj (hwindow j (by simpa using hset)).1
      simp [hj, hclear]

/-- **Bursts are seen**: a difference within the width of the register changes it. -/
theorem crcRegister_ne_of_burst (hlow : 2 ^ w ≤ poly) (hhigh : poly < 2 ^ (w + 1))
    {a b : Bytes} (h : Burst (w + 1) a b) (c : Nat) :
    crcRegister poly c a ≠ crcRegister poly c b := by
  obtain ⟨hlen, hne, start, hwindow⟩ := h
  intro hsame
  set e := leNat a ^^^ leNat b with he
  have hbit : ∀ i, e.testBit i = true → bitAt a i ≠ bitAt b i := fun i hi => by
    rw [he, Nat.testBit_xor, testBit_leNat, testBit_leNat] at hi
    simpa using hi
  -- the two registers differ by the shifts of the difference
  have hzero : crcShifts poly (8 * a.length) e = 0 := by
    have hcancel : c ^^^ leNat a ^^^ (c ^^^ leNat b) = e := by
      rw [Nat.xor_assoc, Nat.xor_left_comm (leNat a), ← Nat.xor_assoc, Nat.xor_self, Nat.zero_xor]
    rw [crcRegister_eq, crcRegister_eq, ← hlen] at hsame
    rw [← hcancel, crcShifts_xor, hsame, Nat.xor_self]
  have he0 : e ≠ 0 := fun h0 => hne (leNat_inj hlen (Nat.xor_eq_zero_iff.mp h0))
  -- the window lies in the message
  obtain ⟨i, hi⟩ := Nat.exists_testBit_of_ne_zero he0
  have hstart : start ≤ 8 * a.length := by
    by_contra hgt
    have hlt : e < 2 ^ (8 * a.length) := Nat.xor_lt_two_pow (leNat_lt a) (hlen ▸ leNat_lt b)
    have hout : e.testBit i = false := Nat.testBit_lt_two_pow (Nat.lt_of_lt_of_le hlt
      (Nat.pow_le_pow_right (by omega) (by have := (hwindow i (hbit i hi)).1; omega)))
    rw [hout] at hi
    cases hi
  -- and the difference is a word of the register's width, moved up to it
  obtain ⟨u, hu, hword⟩ := exists_word_of_window fun i hi => hwindow i (hbit i hi)
  have hu0 : u ≠ 0 := fun h0 => he0 (by rw [hword, h0, Nat.mul_zero])
  refine crcShifts_ne_zero hlow hhigh hu hu0 (8 * a.length - start) ?_
  rw [hword, ← Nat.sub_add_cancel hstart, crcShifts_add, crcShifts_two_pow_mul] at hzero
  exact hzero

end EventLog.Lib
