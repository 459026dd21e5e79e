import EventLog.Lib.Bytes

/-!
# Appending to a file

A file is its byte string.  An append may fail after it left a strict prefix of the
bytes behind.  File sizes are signed 64-bit numbers, so a write that would pass that
limit fails and writes nothing.
-/

namespace EventLog.Lib

/-- The largest file size. -/
def maxFileSize : Nat := 2 ^ 63 - 1

/-- What the operating system does with one append: complete it, or fail after `k` bytes. -/
inductive WriteOutcome where
  | ok
  | failed (k : Nat)
  deriving DecidableEq, Repr

/-- Append `buf` to the file; the flag says whether the write returned a nil error.  A
    failed write has appended a strict prefix. -/
def fileWrite (data buf : Bytes) : WriteOutcome → Bytes × Bool
  | .ok => if data.length + buf.length ≤ maxFileSize then (data ++ buf, true) else (data, false)
  | .failed k => (data ++ buf.take (min k (buf.length - 1)), false)

/-- The write happens as a whole or not at all. -/
def WriteOutcome.Atomic : WriteOutcome → Prop
  | .ok => True
  | .failed k => k = 0

instance : DecidablePred WriteOutcome.Atomic := fun o => by
  cases o <;> unfold WriteOutcome.Atomic <;> infer_instance

/-- A write that succeeded appended everything. -/
theorem fileWrite_eq_true {data buf : Bytes} {o : WriteOutcome}
    (h : (fileWrite data buf o).2 = true) :
    (fileWrite data buf o).1 = data ++ buf ∧ data.length + buf.length ≤ maxFileSize := by
  cases o with
  | ok =>
    unfold fileWrite at h ⊢
    split_ifs with hle
    · exact ⟨rfl, hle⟩
    · rw [if_neg hle] at h
      cases h
  | failed k => cases h

/-- A write that appended nothing failed. -/
theorem fileWrite_nothing {data buf : Bytes} {o : WriteOutcome} (hbuf : buf ≠ [])
    (h : (fileWrite data buf o).1 = data) : (fileWrite data buf o).2 = false := by
  by_contra hok
  rw [(fileWrite_eq_true (Bool.of_not_eq_false hok)).1, List.append_right_eq_self] at h
  exact hbuf h

/-- A write that failed appended a strict prefix. -/
theorem fileWrite_eq_false {data buf : Bytes} {o : WriteOutcome} (hbuf : buf ≠ [])
    (h : (fileWrite data buf o).2 = false) :
    ∃ n, n < buf.length ∧ (fileWrite data buf o).1 = data ++ buf.take n ∧
      (o.Atomic → n = 0) := by
  have hpos := List.length_pos_iff.mpr hbuf
  cases o with
  | ok =>
    unfold fileWrite at h ⊢
    split_ifs with hle
    · rw [if_pos hle] at h
      cases h
    · -- a write past the largest file size leaves nothing
      exact ⟨0, hpos, by simp, fun _ => rfl⟩
  | failed k =>
    refine ⟨min k (buf.length - 1), by omega, rfl, fun hk => ?_⟩
    have hzero : k = 0 := hk
    omega

end EventLog.Lib
