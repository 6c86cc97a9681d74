import Mathlib.Logic.Function.Basic

/-!
# Allocators

What an allocator owes those who use it, with nothing said about how it finds the room. A heap
has blocks that are handed out, each at an address and of some length, and cells. A request may
be refused, and then nothing changes; a block that is granted is at least as long as was asked
for, lies between two bounds and has no cell in common with another one; and no request touches
a block it does not name.

The blocks that are handed out are then always apart, and what a block holds is up to those who
name it, whatever the others do in the meantime.

## Main definitions

* `Heap`: Blocks and cells.
* `Op`: What is asked for.
* `Step`, `Steps`: What may come of it.
* `Heap.Keeps`: A block that is as it was.
* `Heap.Sound`: Blocks that are apart and between the bounds.

## Theorems

* `Step.sound`, `Steps.sound`: Blocks stay apart.
* `Step.keeps`, `Steps.keeps`: A block that is not named stays as it is.
-/

namespace Wujian100

namespace Allocator

/-- The lengths of the blocks that are handed out, and what the cells hold. -/
structure Heap (V : Type) where
  block : Nat → Option Nat
  cell : Nat → V

/-- What is asked for. -/
inductive Op (V : Type) where
  | alloc (n : Nat)
  | free (p : Nat)
  | realloc (p n : Nat)
  | write (p i : Nat) (v : V)

section Heap

variable {V : Type}

/-- A block is as long as it was and holds what it held. -/
def Heap.Keeps (h h' : Heap V) (q : Nat) : Prop :=
  h'.block q = h.block q ∧ ∀ n, h.block q = some n → ∀ i < n, h'.cell (q + i) = h.cell (q + i)

/-- The block at `p` has `n` cells between the bounds, and no other one has any of them. -/
structure Heap.Grants (h : Heap V) (lo hi p n : Nat) : Prop where
  block : h.block p = some n
  inside : lo ≤ p ∧ p + n ≤ hi
  apart : ∀ q m, h.block q = some m → q ≠ p → p + n ≤ q ∨ q + m ≤ p

/-- All blocks are apart and between the bounds. -/
def Heap.Sound (h : Heap V) (lo hi : Nat) : Prop :=
  ∀ p n, h.block p = some n → h.Grants lo hi p n

/-- Those that may come to nothing: an allocation, and to free what is no block. -/
def Op.Refusable (h : Heap V) : Op V → Prop
  | .alloc _ => True
  | .free p => h.block p = none
  | .realloc _ _ => True
  | .write _ _ _ => False

/-- Those that do not name the block. -/
def Op.Spares (q : Nat) : Op V → Prop
  | .alloc _ => True
  | .free p => p ≠ q
  | .realloc p _ => p ≠ q
  | .write p _ _ => p ≠ q

/-- What may come of an operation. -/
inductive Step (lo hi : Nat) (h : Heap V) : Op V → Heap V → Prop where
  | refuse {op : Op V} {h' : Heap V} (refusable : op.Refusable h) (same : ∀ q, h.Keeps h' q) :
      Step lo hi h op h'
  | alloc {n p m : Nat} {h' : Heap V} (fresh : h.block p = none) (long : n ≤ m)
      (grants : h'.Grants lo hi p m) (same : ∀ q, q ≠ p → h.Keeps h' q) :
      Step lo hi h (.alloc n) h'
  | free {p : Nat} {h' : Heap V} (gone : h'.block p = none) (same : ∀ q, q ≠ p → h.Keeps h' q) :
      Step lo hi h (.free p) h'
  | resize {n p k p' m : Nat} {h' : Heap V} (old : h.block p = some k)
      (fresh : p' ≠ p → h.block p' = none) (gone : p' ≠ p → h'.block p = none) (long : n ≤ m)
      (grants : h'.Grants lo hi p' m)
      (contents : ∀ i < min k n, h'.cell (p' + i) = h.cell (p + i))
      (same : ∀ q, q ≠ p → q ≠ p' → h.Keeps h' q) : Step lo hi h (.realloc p n) h'
  | write {p i k : Nat} {v : V} (block : h.block p = some k) (inside : i < k) :
      Step lo hi h (.write p i v) ⟨h.block, Function.update h.cell (p + i) v⟩

/-- One operation after another. -/
inductive Steps (lo hi : Nat) : Heap V → List (Op V) → Heap V → Prop where
  | nil (h : Heap V) : Steps lo hi h [] h
  | cons {h h' h'' : Heap V} {op : Op V} {ops : List (Op V)} (step : Step lo hi h op h')
      (rest : Steps lo hi h' ops h'') : Steps lo hi h (op :: ops) h''

variable {h h' h'' : Heap V} {op : Op V} {ops : List (Op V)} {lo hi p q n m : Nat}

theorem Heap.Keeps.refl (h : Heap V) (q : Nat) : h.Keeps h q := ⟨rfl, fun _ _ _ _ => rfl⟩

theorem Heap.Keeps.trans (hk : h.Keeps h' q) (hk' : h'.Keeps h'' q) : h.Keeps h'' q := by
  refine ⟨hk'.1.trans hk.1, fun n hn i hi => ?_⟩
  rw [hk'.2 n (hk.1.trans hn) i hi, hk.2 n hn i hi]

/-! ## Blocks are apart -/

/-- Fewer blocks, and one that is granted. -/
theorem Heap.Grants.sound (hg : h'.Grants lo hi p m) (hs : h.Sound lo hi)
    (hold : ∀ q n, q ≠ p → h'.block q = some n → h.block q = some n) : h'.Sound lo hi := by
  intro q n hq
  by_cases hqp : q = p
  · subst hqp
    rw [Option.some.inj (hq.symm.trans hg.block)]
    exact hg
  · have hsq := hs q n (hold q n hqp hq)
    refine ⟨hq, hsq.inside, fun r k hr hne => ?_⟩
    by_cases hrp : r = p
    · -- the block that is granted is apart from this one
      subst hrp
      rw [Option.some.inj (hr.symm.trans hg.block)]
      exact (hg.apart q n hq hqp).symm
    · exact hsq.apart r k (hold r k hrp hr) hne

/-- Fewer blocks. -/
theorem Heap.Sound.mono (hs : h.Sound lo hi)
    (hold : ∀ q n, h'.block q = some n → h.block q = some n) : h'.Sound lo hi := by
  intro q n hq
  have hsq := hs q n (hold q n hq)
  exact ⟨hq, hsq.inside, fun r k hr hne => hsq.apart r k (hold r k hr) hne⟩

theorem Step.sound (hs : h.Sound lo hi) (hstep : Step lo hi h op h') : h'.Sound lo hi := by
  cases hstep with
  | refuse _ same => exact hs.mono fun q n hq => (same q).1 ▸ hq
  | alloc _ _ grants same => exact grants.sound hs fun q n hne hq => (same q hne).1 ▸ hq
  | @free p _ gone same =>
      refine hs.mono fun q n hq => ?_
      have hne : q ≠ p := by
        intro heq
        rw [heq, gone] at hq
        cases hq
      exact (same q hne).1 ▸ hq
  | @resize n p k p' m _ _ _ gone _ grants _ same =>
      refine grants.sound hs fun q n hne hq => ?_
      have hqp : q ≠ p := by
        intro heq
        rw [heq, gone fun hpp => hne (heq.trans hpp.symm)] at hq
        cases hq
      exact (same q hqp hne).1 ▸ hq
  | write => exact hs.mono fun q n hq => hq

theorem Steps.sound (hs : h.Sound lo hi) (hsteps : Steps lo hi h ops h') : h'.Sound lo hi := by
  induction hsteps with
  | nil => exact hs
  | cons step _ ih => exact ih (step.sound hs)

/-! ## What a block holds -/

theorem Step.keeps (hs : h.Sound lo hi) (hstep : Step lo hi h op h') (hq : h.block q = some n)
    (hspares : op.Spares q) : h.Keeps h' q := by
  cases hstep with
  | refuse _ same => exact same q
  | alloc fresh _ _ same =>
      refine same q ?_
      rintro rfl
      rw [fresh] at hq
      cases hq
  | free _ same => exact same q hspares.symm
  | @resize _ p _ p' _ _ _ fresh _ _ _ _ same =>
      refine same q hspares.symm ?_
      rintro rfl
      rw [fresh hspares.symm] at hq
      cases hq
  | @write p i k _ block inside =>
      refine ⟨rfl, fun m hm j hj => Function.update_of_ne ?_ _ _⟩
      have hapart := (hs q m hm).apart p k block hspares
      omega

/-- A block that is not named is still there, and holds what it held. -/
theorem Steps.keeps (hs : h.Sound lo hi) (hsteps : Steps lo hi h ops h')
    (hq : h.block q = some n) (hspares : ∀ op ∈ ops, op.Spares q) : h.Keeps h' q := by
  induction hsteps with
  | nil => exact Heap.Keeps.refl _ q
  | cons step _ ih =>
      have hkeep := step.keeps hs hq (hspares _ List.mem_cons_self)
      have hrest := ih (step.sound hs) (hkeep.1.trans hq)
        fun op hop => hspares op (List.mem_cons_of_mem _ hop)
      exact hkeep.trans hrest

end Heap

end Allocator

end Wujian100
