import Mathlib.Data.Nat.Bits
import Mathlib.Tactic.Ring

/-!
# Pipelines

A clocked machine takes an input in each clock. A signal of it lags by `d` if it shows, `d`
clocks after any input, what some function makes of that input, whatever the machine was in
before and whatever the other inputs are. Signals that lag are put together along the
wires: a register behind a signal lags by one more, and what is made of signals that lag
alike lags like them.

Wires are numbers. A slice of a wire is a quotient and a remainder, and wires side by side
are a sum.

## Main definitions

* `after`: The state after so many clocks.
* `Lags`: A signal shows what was made of an input some clocks ago.
* `slice`, `cat`: A slice of a wire, and two wires side by side.

## Theorems

* `lags_input`, `Lags.reg`: Registers.
* `Lags.map`, `Lags.pair`: What is made of signals.
* `Lags.part`: A machine inside another.
* `slice_cat_high`, `slice_cat_low`: Slices of wires side by side.
-/

namespace Wujian100

/-! ## Signals that lag -/

section Lags

variable {S S' I I' X Y : Type}

/-- The state after so many clocks. -/
def after (next : S → I → S) (s : S) (input : Nat → I) : Nat → S
  | 0 => s
  | n + 1 => next (after next s input n) (input n)

/-- The signal shows what `f` makes of the input `d` clocks ago. -/
def Lags (next : S → I → S) (sig : S → X) (d : Nat) (f : I → X) : Prop :=
  ∀ s input t, sig (after next s input (t + d)) = f (input t)

variable {next : S → I → S} {sig : S → X} {d : Nat} {f : I → X}

/-- A register of the input. -/
theorem lags_input (h : ∀ s i, sig (next s i) = f i) : Lags next sig 1 f := by
  intro s input t
  exact h _ _

/-- A register of a signal. -/
theorem Lags.reg (h : Lags next sig d f) (sig' : S → Y) (g : X → Y)
    (hreg : ∀ s i, sig' (next s i) = g (sig s)) : Lags next sig' (d + 1) fun i => g (f i) := by
  intro s input t
  change sig' (next (after next s input (t + d)) (input (t + d))) = g (f (input t))
  rw [hreg, h]

/-- What is made of a signal. -/
theorem Lags.map (h : Lags next sig d f) (g : X → Y) :
    Lags next (fun s => g (sig s)) d fun i => g (f i) := by
  intro s input t
  exact congrArg g (h s input t)

/-- Two signals. -/
theorem Lags.pair {sig' : S → Y} {f' : I → Y} (h : Lags next sig d f) (h' : Lags next sig' d f') :
    Lags next (fun s => (sig s, sig' s)) d fun i => (f i, f' i) := by
  intro s input t
  exact Prod.ext (h s input t) (h' s input t)

/-- The same, said otherwise. -/
theorem Lags.congr {f' : I → X} (h : Lags next sig d f) (hf : ∀ i, f i = f' i) :
    Lags next sig d f' := by
  intro s input t
  rw [h, hf]

/-- A machine that is part of another, which gives it its inputs. -/
theorem Lags.part {next' : S' → I' → S'} (h : Lags next sig d f) (proj : S' → S) (g : I' → I)
    (hpart : ∀ s i, proj (next' s i) = next (proj s) (g i)) :
    Lags next' (fun s => sig (proj s)) d fun i => f (g i) := by
  intro s input t
  have hafter : ∀ n, proj (after next' s input n)
      = after next (proj s) (fun k => g (input k)) n := by
    intro n
    induction n with
    | zero => rfl
    | succ n ih =>
        change proj (next' (after next' s input n) (input n)) = _
        rw [hpart, ih]
        rfl
  dsimp only
  rw [hafter, h]

end Lags

/-! ## Slices -/

/-- The `w` bits of a wire from bit `lo` on. -/
def slice (x lo w : Nat) : Nat := x / 2 ^ lo % 2 ^ w

/-- Two wires side by side, the lower one of `w` bits. -/
def cat (hi w lo : Nat) : Nat := hi * 2 ^ w + lo

theorem slice_lt (x lo w : Nat) : slice x lo w < 2 ^ w :=
  Nat.mod_lt _ (Nat.two_pow_pos w)

theorem slice_of_lt {x w : Nat} (h : x < 2 ^ w) : slice x 0 w = x := by
  unfold slice
  rw [Nat.pow_zero, Nat.div_one, Nat.mod_eq_of_lt h]

theorem slice_cat_high {hi w lo : Nat} (h : lo < 2 ^ w) (k n : Nat) :
    slice (cat hi w lo) (w + k) n = slice hi k n := by
  unfold slice cat
  rw [Nat.pow_add, ← Nat.div_div_eq_div_mul, Nat.add_comm,
    Nat.add_mul_div_right _ _ (Nat.two_pow_pos w), Nat.div_eq_of_lt h, Nat.zero_add]

theorem slice_cat_above {hi w lo : Nat} (h : lo < 2 ^ w) (n : Nat) :
    slice (cat hi w lo) w n = slice hi 0 n :=
  slice_cat_high h 0 n

theorem slice_cat_low {hi w lo k n : Nat} (h : k + n ≤ w) :
    slice (cat hi w lo) k n = slice lo k n := by
  unfold slice cat
  rcases Nat.exists_eq_add_of_le h with ⟨m, rfl⟩
  have hsplit : hi * 2 ^ (k + n + m) = 2 ^ k * (2 ^ n * (hi * 2 ^ m)) := by ring
  rw [hsplit, Nat.mul_add_div (Nat.two_pow_pos k), Nat.mul_add_mod]

theorem cat_lt {hi lo n w : Nat} (hhi : hi < 2 ^ n) (hlo : lo < 2 ^ w) :
    cat hi w lo < 2 ^ (n + w) := by
  unfold cat
  have hle : (hi + 1) * 2 ^ w ≤ 2 ^ n * 2 ^ w := Nat.mul_le_mul_right _ hhi
  rw [Nat.add_mul, Nat.one_mul] at hle
  rw [Nat.pow_add]
  omega

theorem cat_div (hi n k lo : Nat) : cat hi (n + k) lo / 2 ^ n = cat hi k (lo / 2 ^ n) := by
  unfold cat
  rw [Nat.pow_add, Nat.mul_comm (2 ^ n), ← Nat.mul_assoc, Nat.add_comm,
    Nat.add_mul_div_right _ _ (Nat.two_pow_pos n), Nat.add_comm]

theorem cat_mod (hi n k lo : Nat) : cat hi (n + k) lo % 2 ^ n = lo % 2 ^ n := by
  unfold cat
  rw [Nat.pow_add, Nat.mul_comm (2 ^ n), ← Nat.mul_assoc, Nat.add_comm, Nat.add_mul_mod_self_right]

/-- Two slices side by side, the one where the other ends. -/
theorem cat_slices (x lo n m : Nat) :
    cat (slice x (lo + n) m) n (slice x lo n) = slice x lo (n + m) := by
  unfold cat slice
  rw [Nat.pow_add, ← Nat.div_div_eq_div_mul, Nat.pow_add, Nat.mod_mul]
  ring

end Wujian100
