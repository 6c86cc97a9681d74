import Mathlib.Data.List.Basic
import Mathlib.Tactic.Linarith

/-!
# Writes in Order

A memory that is filled by a list of writes holds at each place what was written there last.

## Main definitions

* `lastWrite`: What a list of writes leaves at a place.
* `writeRun`: Writes to places that follow each other.

## Theorems

* `lastWrite_append`: Later writes hide earlier ones.
* `lastWrite_eq_none`: A place that nothing is written to.
* `lastWrite_writeRun`, `lastWrite_writeRun_out`: Inside and outside of a run.
-/

namespace Wujian100

variable {α β : Type*}

section LastWrite

variable [DecidableEq α] {ws vs : List (α × β)} {a : α}

/-- What the writes leave at a place, if they write to it. -/
def lastWrite (ws : List (α × β)) (a : α) : Option β := ws.reverse.lookup a

theorem lastWrite_append : lastWrite (ws ++ vs) a = (lastWrite vs a).or (lastWrite ws a) := by
  rw [lastWrite, List.reverse_append, List.lookup_append]
  rfl

theorem lastWrite_eq_none (h : ∀ w ∈ ws, w.1 ≠ a) : lastWrite ws a = none := by
  rw [lastWrite, List.lookup_eq_none_iff]
  intro w hw
  have := h w (List.mem_reverse.mp hw)
  exact bne_iff_ne.mpr this.symm

end LastWrite

/-- Writes of `f 0`, `f 1` and so on to the `n` places from `start` on. -/
def writeRun (start : Int) (n : Nat) (f : Nat → β) : List (Int × β) :=
  (List.range n).map fun i : Nat => (start + (i : Int), f i)

variable {start a : Int} {n : Nat} {f : Nat → β}

theorem writeRun_succ :
    writeRun start (n + 1) f = writeRun start n f ++ [(start + n, f n)] := by
  rw [writeRun, List.range_succ, List.map_append]
  rfl

/-- Nothing is written before the run and from its end on. -/
theorem lastWrite_writeRun_out (h : a < start ∨ start + n ≤ a) :
    lastWrite (writeRun start n f) a = none := by
  refine lastWrite_eq_none fun w hw => ?_
  obtain ⟨i, hi, rfl⟩ := List.mem_map.mp hw
  have := List.mem_range.mp hi
  dsimp only
  omega

theorem lastWrite_writeRun {i : Nat} (hi : i < n) :
    lastWrite (writeRun start n f) (start + i) = some (f i) := by
  induction n with
  | zero => exact absurd hi (Nat.not_lt_zero i)
  | succ n ih =>
      rw [writeRun_succ, lastWrite_append]
      rcases Nat.lt_succ_iff_lt_or_eq.mp hi with hlt | rfl
      · -- The last write is to another place.
        have hlast : lastWrite [(start + n, f n)] (start + i) = none := by
          refine lastWrite_eq_none fun w hw => ?_
          obtain rfl := List.mem_singleton.mp hw
          dsimp only
          omega
        rw [hlast, Option.none_or, ih hlt]
      · have hlast : lastWrite [(start + (i : Int), f i)] (start + i) = some (f i) :=
          List.lookup_cons_self
        rw [hlast, Option.some_or]

end Wujian100
