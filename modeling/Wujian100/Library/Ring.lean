import Mathlib.Data.Nat.ModEq
import Mathlib.Tactic.Ring

/-!
# Rings of Cells

A ring keeps a list in `cap` cells, from some cell on and around the end. What
is copied in or out may run over the end and then takes two straight copies.
Nothing here depends on what is copied.

## Main definitions

* `blit`: A straight copy.
* `window`: The cells of a straight memory as a list.
* `RingHolds`: A ring holds a list from a cell on.
* `Blitted`: A ring after a list has been copied into it.

## Theorems

* `RingHolds.append_iff`: A list in two parts.
* `RingHolds.extend`: Copying behind a list extends it.
* `blitted_straight`, `blitted_split`: One copy or two copy in.
* `window_straight`, `window_split`: One copy or two copy out.
-/

namespace Wujian100

variable {α : Type}

/-- `n` cells of `src` from `s` on, copied to `d`. -/
def blit (dst : Nat → α) (d : Nat) (src : Nat → α) (s n : Nat) : Nat → α :=
  fun i => if d ≤ i ∧ i < d + n then src (s + (i - d)) else dst i

/-- `n` cells from `s` on. -/
def window (src : Nat → α) (s n : Nat) : List α :=
  (List.range n).map fun i => src (s + i)

/-- The ring holds the list from `p` on. -/
def RingHolds (cap : Nat) (mem : Nat → α) (p : Nat) (l : List α) : Prop :=
  ∀ i b, l[i]? = some b → mem ((p + i) % cap) = b

/-- `mem'` is `mem` with the list written from `t` on. -/
structure Blitted (cap : Nat) (mem : Nat → α) (t : Nat) (l : List α) (mem' : Nat → α) : Prop where
  cells : RingHolds cap mem' t l
  frame : ∀ i, (∀ k, k < l.length → i ≠ (t + k) % cap) → i < cap → mem' i = mem i

/-! ## Straight copies -/

theorem blit_of_mem {dst src : Nat → α} {d s n i : Nat} (h : d ≤ i) (h' : i < d + n) :
    blit dst d src s n i = src (s + (i - d)) :=
  if_pos ⟨h, h'⟩

theorem blit_of_not {dst src : Nat → α} {d s n i : Nat} (h : i < d ∨ d + n ≤ i) :
    blit dst d src s n i = dst i :=
  if_neg (by omega)

/-- What was copied is there. -/
theorem window_blit (dst src : Nat → α) (d s n : Nat) :
    window (blit dst d src s n) d n = window src s n := by
  refine List.map_congr_left ?_
  intro i hi
  rw [List.mem_range] at hi
  rw [blit_of_mem (by omega) (by omega), Nat.add_sub_cancel_left]

@[simp] theorem length_window (src : Nat → α) (s n : Nat) : (window src s n).length = n := by
  rw [window, List.length_map, List.length_range]

theorem getElem?_window {src : Nat → α} {s n i : Nat} {b : α}
    (h : (window src s n)[i]? = some b) : i < n ∧ src (s + i) = b := by
  rw [window, List.getElem?_map] at h
  by_cases hi : i < n
  · rw [List.getElem?_range hi] at h
    exact ⟨hi, Option.some.inj h⟩
  · rw [List.getElem?_eq_none (by rw [List.length_range]; omega)] at h
    exact absurd h (by simp)

theorem window_congr {src src' : Nat → α} {s s' n : Nat}
    (h : ∀ i, i < n → src (s + i) = src' (s' + i)) : window src s n = window src' s' n := by
  refine List.map_congr_left ?_
  intro i hi
  exact h i (List.mem_range.mp hi)

theorem window_add (src : Nat → α) (s m n : Nat) :
    window src s (m + n) = window src s m ++ window src (s + m) n := by
  rw [window, List.range_add, List.map_append, List.map_map]
  congr 1
  refine List.map_congr_left ?_
  intro i _
  rw [Function.comp_apply, Nat.add_assoc]

theorem window_cons (src : Nat → α) (s n : Nat) :
    window src s (n + 1) = src s :: window src (s + 1) n := by
  rw [Nat.add_comm n 1, window_add]
  rfl

theorem window_snoc (src : Nat → α) (s n : Nat) :
    window src s (n + 1) = window src s n ++ [src (s + n)] := by
  rw [window_add]
  rfl

/-! ## Holding a list -/

section Holds

variable {cap p : Nat} {mem mem' : Nat → α} {l l' : List α}

theorem RingHolds.append_iff :
    RingHolds cap mem p (l ++ l') ↔ RingHolds cap mem p l ∧ RingHolds cap mem (p + l.length) l' := by
  constructor
  · intro h
    refine ⟨fun i b hb => h i b ?_, fun i b hb => ?_⟩
    · rw [List.getElem?_append_left (List.getElem?_eq_some_iff.mp hb).1]
      exact hb
    · have := h (l.length + i) b (by rw [List.getElem?_append_right (by omega)]; simpa using hb)
      rwa [← Nat.add_assoc] at this
  · rintro ⟨hl, hl'⟩ i b hb
    by_cases hi : i < l.length
    · rw [List.getElem?_append_left hi] at hb
      exact hl i b hb
    · rw [List.getElem?_append_right (by omega)] at hb
      have := hl' (i - l.length) b hb
      rwa [Nat.add_assoc, show l.length + (i - l.length) = i by omega] at this

/-- Only the cell modulo the size counts. -/
theorem RingHolds.congr {q : Nat} (h : RingHolds cap mem p l) (hq : q % cap = p % cap) :
    RingHolds cap mem q l := by
  intro i b hb
  have := h i b hb
  rwa [Nat.add_mod, ← hq, ← Nat.add_mod] at this

/-- A list that fits leaves no cell twice. -/
theorem ring_ne {i k n : Nat} (hi : i < n) (hk : n + k < cap) :
    (p + i) % cap ≠ (p + n + k) % cap := by
  intro h
  have hmod : p + i ≡ p + (n + k) [MOD cap] := by
    rw [Nat.ModEq, h, Nat.add_assoc]
  have heq : i ≡ n + k [MOD cap] := Nat.ModEq.add_left_cancel' p hmod
  have hlt : i < cap := by omega
  rw [Nat.ModEq, Nat.mod_eq_of_lt hlt, Nat.mod_eq_of_lt hk] at heq
  omega

/-- Copying behind a list extends it. -/
theorem RingHolds.extend (h : RingHolds cap mem p l) (hb : Blitted cap mem (p + l.length) l' mem')
    (hlen : l.length + l'.length ≤ cap) : RingHolds cap mem' p (l ++ l') := by
  refine RingHolds.append_iff.mpr ⟨?_, hb.cells⟩
  intro i b hi
  have hil : i < l.length := (List.getElem?_eq_some_iff.mp hi).1
  rw [hb.frame]
  · exact h i b hi
  · intro k hk
    exact ring_ne hil (by omega)
  · exact Nat.mod_lt _ (by omega)

theorem Blitted.congr {t u : Nat} (h : Blitted cap mem t l mem') (hu : u % cap = t % cap) :
    Blitted cap mem u l mem' := by
  refine ⟨h.cells.congr hu, ?_⟩
  intro i hne hi
  refine h.frame i ?_ hi
  intro k hk
  have := hne k hk
  rwa [Nat.add_mod, hu, ← Nat.add_mod] at this

end Holds

/-! ## Copying in -/

section CopyIn

variable {cap t s n : Nat} {mem src : Nat → α}

/-- A copy that does not reach over the end. -/
theorem blitted_straight (h : t + n ≤ cap) :
    Blitted cap mem t (window src s n) (blit mem t src s n) := by
  refine ⟨?_, ?_⟩
  · intro i b hb
    rcases getElem?_window hb with ⟨hi, rfl⟩
    rw [Nat.mod_eq_of_lt (by omega), blit_of_mem (by omega) (by omega)]
    congr 1
    omega
  · intro i hne hi
    refine blit_of_not ?_
    by_contra hin
    refine hne (i - t) (by rw [length_window]; omega) ?_
    rw [show t + (i - t) = i by omega, Nat.mod_eq_of_lt hi]

/-- A copy in two parts: up to the end, and the rest from the start on. -/
theorem blitted_split (mem src : Nat → α) (s : Nat) (ht : t < cap) (hn : cap - t < n)
    (hcap : n ≤ cap) :
    Blitted cap mem t (window src s n)
      (blit (blit mem t src s (cap - t)) 0 src (s + (cap - t)) (n - (cap - t))) := by
  refine ⟨?_, ?_⟩
  · intro i b hb
    rcases getElem?_window hb with ⟨hi, rfl⟩
    by_cases hw : t + i < cap
    · rw [Nat.mod_eq_of_lt hw, blit_of_not (by omega), blit_of_mem (by omega) (by omega)]
      congr 1
      omega
    · have hmod : (t + i) % cap = t + i - cap := by
        rw [Nat.mod_eq_sub_mod (by omega), Nat.mod_eq_of_lt (by omega)]
      rw [hmod, blit_of_mem (by omega) (by omega)]
      congr 1
      omega
  · intro i hne hi
    have hout : ¬(t ≤ i ∨ i < n - (cap - t)) := by
      rintro (hle | hlt)
      · refine hne (i - t) (by rw [length_window]; omega) ?_
        rw [show t + (i - t) = i by omega, Nat.mod_eq_of_lt hi]
      · refine hne (cap - t + i) (by rw [length_window]; omega) ?_
        rw [show t + (cap - t + i) = i + cap by omega, Nat.add_mod_right, Nat.mod_eq_of_lt hi]
    rw [blit_of_not (by omega), blit_of_not (by omega)]

end CopyIn

/-! ## Copying out -/

section CopyOut

variable {cap h d : Nat} {mem dst : Nat → α} {l : List α}

theorem RingHolds.eq_of_window {f : Nat → α} {e : Nat} (hl : RingHolds cap mem h l)
    (hf : ∀ i, i < l.length → f (e + i) = mem ((h + i) % cap)) : window f e l.length = l := by
  refine List.ext_getElem? ?_
  intro i
  by_cases hi : i < l.length
  · rw [window, List.getElem?_map, List.getElem?_range hi, List.getElem?_eq_getElem hi]
    rw [Option.map_some, hf i hi, hl i _ (List.getElem?_eq_getElem hi)]
  · rw [List.getElem?_eq_none (by rw [length_window]; omega), List.getElem?_eq_none (by omega)]

theorem window_straight (hl : RingHolds cap mem h l) (hcap : h + l.length ≤ cap) :
    window (blit dst d mem h l.length) d l.length = l := by
  refine hl.eq_of_window ?_
  intro i hi
  rw [blit_of_mem (by omega) (by omega), Nat.mod_eq_of_lt (by omega)]
  congr 1
  omega

theorem window_split (dst : Nat → α) (d : Nat) (hl : RingHolds cap mem h l) (hh : h < cap)
    (hcap : l.length ≤ cap)
    (hn : cap - h < l.length) :
    window (blit (blit dst d mem h (cap - h)) (d + (cap - h)) mem 0 (l.length - (cap - h))) d
      l.length = l := by
  refine hl.eq_of_window ?_
  intro i hi
  by_cases hw : h + i < cap
  · rw [Nat.mod_eq_of_lt hw, blit_of_not (by omega), blit_of_mem (by omega) (by omega)]
    congr 1
    omega
  · have hmod : (h + i) % cap = h + i - cap := by
      rw [Nat.mod_eq_sub_mod (by omega), Nat.mod_eq_of_lt (by omega)]
    rw [hmod, blit_of_mem (by omega) (by omega)]
    congr 1
    omega

end CopyOut

end Wujian100
