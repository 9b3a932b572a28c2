import Gnostr.Wire.BlockMode

/-!
# Iterated compression

A digest takes a text in blocks of a fixed size: a compression function is applied to the state
and one block after the other. What does not fill a block is kept until more of the text arrives.
`absorb` is the state after all whole blocks of a text and `rest` what is kept. `absorb_append`
and `rest_append` say that it makes no difference where a text is cut.
-/

namespace Wire

/-- What follows the whole blocks of a text. -/
def rest (n : Nat) (t : Bytes) : Bytes :=
  t.drop (n * (t.length / n))

/-- The rest is shorter than a block. -/
theorem length_rest (n : Nat) (t : Bytes) : (rest n t).length = t.length % n := by
  have hdiv := Nat.div_add_mod t.length n
  rw [rest, List.length_drop]
  omega

/-- A text that is shorter is its own rest. -/
theorem rest_of_lt {n : Nat} {t : Bytes} (h : t.length < n) : rest n t = t := by
  rw [rest, Nat.div_eq_of_lt h, Nat.mul_zero, List.drop_zero]

/-- One block more. -/
theorem length_block_append {n : Nat} (hn : 0 < n) (b : Block n) (t : Bytes) :
    (b.1 ++ t).length / n = t.length / n + 1 := by
  rw [List.length_append, b.2, Nat.add_comm, Nat.add_div_right _ hn]

/-- It does not change the rest. -/
theorem rest_block_append {n : Nat} (hn : 0 < n) (b : Block n) (t : Bytes) :
    rest n (b.1 ++ t) = rest n t := by
  rw [rest, length_block_append hn, Nat.mul_add, Nat.mul_one, Nat.add_comm, ← List.drop_drop,
    List.drop_left' b.2, rest]

/-- A text with a whole block in front. -/
theorem exists_block {n : Nat} {t : Bytes} (h : n ≤ t.length) :
    ∃ (b : Block n) (u : Bytes), t = b.1 ++ u :=
  ⟨⟨t.take n, List.length_take_of_le h⟩, t.drop n, (List.take_append_drop n t).symm⟩

/-- A text is a block more, or less than a block. -/
theorem block_induction {n : Nat} (hn : 0 < n) {motive : Bytes → Prop}
    (short : ∀ t, t.length < n → motive t)
    (step : ∀ (b : Block n) (t : Bytes), motive t → motive (b.1 ++ t)) (t : Bytes) : motive t := by
  induction hlen : t.length using Nat.strong_induction_on generalizing t with
  | _ len ih =>
      subst hlen
      by_cases hlt : t.length < n
      · exact short t hlt
      · obtain ⟨b, u, rfl⟩ := exists_block (Nat.le_of_not_lt hlt)
        refine step b u (ih u.length ?_ u rfl)
        rw [List.length_append, b.2]
        omega

section Absorb

variable {σ : Type} {n : Nat} (compress : σ → Block n → σ)

/-- The state after all whole blocks of a text. -/
def absorb (s : σ) (t : Bytes) : σ :=
  (blocks n (t.length / n) t).foldl compress s

/-- Less than a block is not absorbed. -/
theorem absorb_of_lt {s : σ} {t : Bytes} (h : t.length < n) : absorb compress s t = s := by
  rw [absorb, Nat.div_eq_of_lt h, blocks, List.foldl_nil]

/-- The first block is compressed first. -/
theorem absorb_block_append (hn : 0 < n) (s : σ) (b : Block n) (t : Bytes) :
    absorb compress s (b.1 ++ t) = absorb compress (compress s b) t := by
  have hfirst : Block.first n (b.1 ++ t) = b := by
    refine Subtype.ext ?_
    rw [Block.first_of_le (by simp [b.2]), List.take_left' b.2]
  rw [absorb, length_block_append hn, blocks, hfirst, List.drop_left' b.2, List.foldl_cons, absorb]

/-- A block is compressed. -/
theorem absorb_block (hn : 0 < n) (s : σ) (b : Block n) :
    absorb compress s b.1 = compress s b := by
  rw [← List.append_nil b.1, absorb_block_append compress hn]
  exact absorb_of_lt compress hn

/-- A text may be cut anywhere, as long as what was kept of the first part stays in front of the
second. -/
theorem absorb_append (hn : 0 < n) (s : σ) (t u : Bytes) :
    absorb compress s (t ++ u) = absorb compress (absorb compress s t) (rest n t ++ u) := by
  induction t using block_induction hn generalizing s with
  | short t hlt => rw [absorb_of_lt compress hlt, rest_of_lt hlt]
  | step b t ih =>
      rw [List.append_assoc, absorb_block_append compress hn, ih,
        absorb_block_append compress hn, rest_block_append hn]

end Absorb

/-- What is kept of a text is what is kept when its first part was taken before. -/
theorem rest_append {n : Nat} (hn : 0 < n) (t u : Bytes) :
    rest n (t ++ u) = rest n (rest n t ++ u) := by
  induction t using block_induction hn with
  | short t hlt => rw [rest_of_lt hlt]
  | step b t ih => rw [List.append_assoc, rest_block_append hn, ih, rest_block_append hn]

end Wire
