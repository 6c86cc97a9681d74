import Mathlib.Data.List.Basic
import Mathlib.Data.Nat.ModEq

/-!
# Padded Messages

A message is brought to a whole number of blocks before it is hashed: a mark,
the fewest fillers that will do, and a field of fixed length. The alphabet and
the field are arbitrary.

Only the length of the message modulo the block decides how many fillers there
are, so the blocks can be cut off the front of the message before it is known
how it ends.

## Main definitions

* `gap`: The distance to the next multiple of the block.
* `padding`, `padded`: What is appended, and the message with it.
* `blocksOf`: A list cut into blocks.
* `marked`: A list whose last element is told from the others.

## Theorems

* `mod_add_length_padding`: A padded message is of whole blocks.
* `gap_eq`: The only distance below a block that ends on a multiple.
* `blocksOf_cons`: Cutting the first block off.
-/

namespace Wujian100

variable {α : Type*}

/-- How far `n` is from the next multiple of `B`. -/
def gap (B n : Nat) : Nat := (B - n % B) % B

/-- What follows a message of `n` letters: a mark, fillers, and the field. -/
def padding (B : Nat) (mark filler : α) (field : List α) (n : Nat) : List α :=
  mark :: List.replicate (gap B (n + 1 + field.length)) filler ++ field

/-- The message brought to whole blocks. -/
def padded (B : Nat) (mark filler : α) (field msg : List α) : List α :=
  msg ++ padding B mark filler field msg.length

/-- A list cut into blocks of `B`. -/
def blocksOf (B : Nat) (l : List α) : List (List α) :=
  (List.range (l.length / B)).map fun i => (l.drop (B * i)).take B

/-- A list with `true` at its last element and `false` at the others. -/
def marked : List α → List (Bool × α)
  | [] => []
  | [a] => [(true, a)]
  | a :: b :: l => (false, a) :: marked (b :: l)

/-- The only distance below a block that ends on a multiple of it. -/
theorem gap_eq {B n k : Nat} (hk : k < B) (h : (n + k) % B = 0) : gap B n = k := by
  have hn : n % B < B := Nat.mod_lt _ (by omega)
  have hsum : (n % B + k) % B = 0 := by
    rw [Nat.mod_add_mod]
    exact h
  rw [gap]
  -- The sum of two numbers below `B` is a multiple of it when it is zero or `B`.
  by_cases hlt : n % B + k < B
  · rw [Nat.mod_eq_of_lt hlt] at hsum
    have h0 : n % B = 0 := by omega
    rw [h0, Nat.sub_zero, Nat.mod_self]
    omega
  · rw [Nat.mod_eq_sub_mod (by omega), Nat.mod_eq_of_lt (by omega)] at hsum
    rw [Nat.mod_eq_of_lt (by omega)]
    omega

/-- The distance does end on a multiple. -/
theorem mod_add_gap {B : Nat} (n : Nat) (hB : 0 < B) : (n + gap B n) % B = 0 := by
  have hn : n % B < B := Nat.mod_lt _ hB
  rw [gap, Nat.add_mod_mod, ← Nat.mod_add_mod, Nat.add_sub_cancel' (by omega), Nat.mod_self]

/-- A padded message is of whole blocks. -/
theorem mod_add_length_padding {B : Nat} (mark filler : α) (field : List α) (n : Nat)
    (hB : 0 < B) : (n + (padding B mark filler field n).length) % B = 0 := by
  have h := mod_add_gap (n + 1 + field.length) hB
  simp only [padding, List.length_append, List.length_cons, List.length_replicate]
  rw [← h]
  congr 1
  omega

/-- The padding is the same for every message with one length modulo the block. -/
theorem padding_eq {B n k : Nat} (mark filler : α) (field : List α) (hk : k < B)
    (h : (n + 1 + field.length + k) % B = 0) :
    padding B mark filler field n = mark :: List.replicate k filler ++ field := by
  rw [padding, gap_eq hk h]

theorem blocksOf_nil (B : Nat) : blocksOf B ([] : List α) = [] := by
  simp only [blocksOf, List.length_nil, Nat.zero_div, List.range_zero, List.map_nil]

/-- Cutting the first block off. -/
theorem blocksOf_cons {B : Nat} {b : List α} (hB : 0 < B) (hb : b.length = B) (l : List α) :
    blocksOf B (b ++ l) = b :: blocksOf B l := by
  have hlen : (b ++ l).length / B = l.length / B + 1 := by
    rw [List.length_append, hb, Nat.add_comm, Nat.add_div_right _ hB]
  have hfirst : (b ++ l).take B = b := by
    rw [← hb, List.take_left]
  rw [blocksOf, hlen, List.range_succ_eq_map, List.map_cons, Nat.mul_zero, List.drop_zero, hfirst,
    List.map_map]
  refine congrArg (b :: ·) (List.map_congr_left fun i _ => ?_)
  have hdrop : (b ++ l).drop (B * (i + 1)) = l.drop (B * i) := by
    rw [Nat.mul_succ, Nat.add_comm, ← List.drop_drop, ← hb, List.drop_left]
  rw [Function.comp_apply, Nat.succ_eq_add_one, hdrop]

/-- A block by itself. -/
theorem blocksOf_single {B : Nat} {b : List α} (hB : 0 < B) (hb : b.length = B) :
    blocksOf B b = [b] := by
  have h := blocksOf_cons hB hb []
  rwa [List.append_nil, blocksOf_nil] at h

theorem marked_cons {a : α} {l : List α} (hl : l ≠ []) : marked (a :: l) = (false, a) :: marked l := by
  cases l with
  | nil => exact absurd rfl hl
  | cons b l => rfl

/-- A list of at least one block is cut into at least one. -/
theorem blocksOf_ne_nil {B : Nat} {l : List α} (hB : 0 < B) (hl : B ≤ l.length) :
    blocksOf B l ≠ [] := by
  have hpos : 0 < l.length / B := Nat.div_pos hl hB
  intro h
  have hlen := congrArg List.length h
  rw [blocksOf, List.length_map, List.length_range, List.length_nil] at hlen
  omega

end Wujian100
