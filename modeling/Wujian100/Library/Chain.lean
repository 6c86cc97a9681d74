import Mathlib.Data.Fintype.Card
import Mathlib.Data.List.Nodup
import Mathlib.Logic.Function.Basic

/-!
# Chains of Pointers

A chain starts at a pointer and goes on from each cell to the next, until a cell
points nowhere. Following it for as many steps as there are cells either comes to
the end or never will.

## Main definitions

* `walk`: The cells of a chain, within a number of steps.
* `Linked`: The chain is that list of cells.

## Theorems

* `Linked.walk_eq`: A chain with an end is walked to its end.
* `linked_of_walk`: What is walked is the chain.
* `walk_eq_none`: A chain that is walked in vain has no end.
* `Linked.push`: A cell put in front.
* `Linked.unlink`: A cell taken out.
-/

namespace Wujian100

variable {C : Type}

/-- The cells from a pointer on, if the end comes within so many steps. -/
def walk (next : C → Option C) : Nat → Option C → Option (List C)
  | _, none => some []
  | 0, some _ => none
  | n + 1, some c => (walk next n (next c)).map fun l => c :: l

/-- The cells from a pointer on are those of the list. -/
def Linked (next : C → Option C) (start : Option C) : List C → Prop
  | [] => start = none
  | c :: l => start = some c ∧ Linked next (next c) l

section

variable {next next' : C → Option C} {start : Option C} {l : List C}

theorem linked_of_walk {n : Nat} (h : walk next n start = some l) : Linked next start l := by
  induction n generalizing start l with
  | zero =>
      cases start with
      | none =>
          simp only [walk, Option.some.injEq] at h
          rw [← h]
          rfl
      | some c => cases h
  | succ n ih =>
      cases start with
      | none =>
          simp only [walk, Option.some.injEq] at h
          rw [← h]
          rfl
      | some c =>
          simp only [walk, Option.map_eq_some_iff] at h
          rcases h with ⟨l', hl', rfl⟩
          exact ⟨rfl, ih hl'⟩

theorem Linked.unique {l' : List C} (h : Linked next start l) (h' : Linked next start l') :
    l = l' := by
  induction l generalizing start l' with
  | nil =>
      cases l' with
      | nil => rfl
      | cons c l' => exact absurd (h.symm.trans h'.1) (by simp)
  | cons c l ih =>
      cases l' with
      | nil => exact absurd (h'.symm.trans h.1) (by simp)
      | cons c' l' =>
          have hc : c = c' := Option.some.inj (h.1.symm.trans h'.1)
          subst hc
          rw [ih h.2 h'.2]

/-- From any cell of a chain, the chain goes on as it does. -/
theorem Linked.suffix {a : List C} {c : C} {b : List C} (h : Linked next start (a ++ c :: b)) :
    Linked next (some c) (c :: b) := by
  induction a generalizing start with
  | nil => exact ⟨rfl, h.2⟩
  | cons d a ih => exact ih h.2

/-- A chain with an end does not come back. -/
theorem Linked.nodup (h : Linked next start l) : l.Nodup := by
  induction l generalizing start with
  | nil => exact List.nodup_nil
  | cons c l ih =>
      refine List.nodup_cons.mpr ⟨?_, ih h.2⟩
      intro hmem
      rcases List.append_of_mem hmem with ⟨a, b, hab⟩
      -- The chain from `c` on would be longer than itself.
      have hrest := h.2
      rw [hab] at hrest
      have heq : c :: b = c :: l := hrest.suffix.unique ⟨rfl, h.2⟩
      have hlen := congrArg List.length heq
      rw [hab] at hlen
      simp at hlen
      omega

theorem Linked.walk_eq {n : Nat} (h : Linked next start l) (hn : l.length ≤ n) :
    walk next n start = some l := by
  induction l generalizing start n with
  | nil =>
      have hstart : start = none := h
      rw [hstart]
      cases n with
      | zero => rfl
      | succ n => rfl
  | cons c l ih =>
      cases n with
      | zero => exact absurd hn (by simp)
      | succ n =>
          have hstart : start = some c := h.1
          rw [hstart]
          simp only [walk]
          rw [ih h.2 (by simpa using hn), Option.map_some]

theorem Linked.length_le [Fintype C] (h : Linked next start l) : l.length ≤ Fintype.card C :=
  h.nodup.length_le_card

/-- A chain that does not end within as many steps as there are cells has no end. -/
theorem walk_eq_none [Fintype C] (h : walk next (Fintype.card C) start = none) (n : Nat) :
    walk next n start = none := by
  cases hn : walk next n start with
  | none => rfl
  | some l =>
      have hlinked := linked_of_walk hn
      rw [hlinked.walk_eq hlinked.length_le] at h
      cases h

/-- Only the cells of a chain matter. -/
theorem Linked.congr (h : Linked next start l) (hnext : ∀ c ∈ l, next' c = next c) :
    Linked next' start l := by
  induction l generalizing start with
  | nil => exact h
  | cons c l ih =>
      refine ⟨h.1, ?_⟩
      rw [hnext c List.mem_cons_self]
      exact ih h.2 fun d hd => hnext d (List.mem_cons_of_mem _ hd)

variable [DecidableEq C]

/-- A cell put in front of a chain. -/
theorem Linked.push {c : C} (h : Linked next start l) (hc : c ∉ l) :
    Linked (Function.update next c start) (some c) (c :: l) := by
  refine ⟨rfl, ?_⟩
  rw [Function.update_self]
  refine h.congr ?_
  intro d hd
  refine Function.update_of_ne ?_ _ _
  intro he
  exact hc (he ▸ hd)

/-- The cell in front of `c`, if there is one. -/
def before (next : C → Option C) (c : C) : List C → Option C
  | [] => none
  | d :: l => if next d = some c then some d else before next c l

theorem before_mem {c d : C} (h : before next c l = some d) : d ∈ l ∧ next d = some c := by
  induction l with
  | nil => cases h
  | cons e l ih =>
      unfold before at h
      by_cases he : next e = some c
      · rw [if_pos he, Option.some.injEq] at h
        subst h
        exact ⟨List.mem_cons_self, he⟩
      · rw [if_neg he] at h
        rcases ih h with ⟨hmem, hnext⟩
        exact ⟨List.mem_cons_of_mem _ hmem, hnext⟩

/-- The first cell taken out: the chain starts behind it. -/
theorem Linked.unlink_first {c : C} (h : Linked next (some c) l) :
    Linked next (next c) (l.erase c) := by
  cases l with
  | nil => cases h
  | cons d l =>
      have hd : c = d := Option.some.inj h.1
      subst hd
      rw [List.erase_cons_head]
      exact h.2

/-- Another cell taken out: the one in front of it points behind it. -/
theorem Linked.unlink {c : C} (h : Linked next start l) (hstart : start ≠ some c) (hc : c ∈ l) :
    ∃ d, before next c l = some d ∧
      Linked (Function.update next d (next c)) start (l.erase c) := by
  induction l generalizing start with
  | nil => cases hc
  | cons e l ih =>
      have hec : e ≠ c := fun he => hstart (he ▸ h.1)
      have hmem : c ∈ l := (List.mem_cons.mp hc).resolve_left (Ne.symm hec)
      have hnodup := h.nodup
      rw [List.nodup_cons] at hnodup
      rw [List.erase_cons_tail (by simpa using hec)]
      unfold before
      by_cases he : next e = some c
      · rw [if_pos he]
        refine ⟨e, rfl, h.1, ?_⟩
        rw [Function.update_self]
        have hrest := h.2
        rw [he] at hrest
        refine hrest.unlink_first.congr ?_
        intro d hd
        refine Function.update_of_ne ?_ _ _
        intro hde
        exact hnodup.1 (hde ▸ List.mem_of_mem_erase hd)
      · rw [if_neg he]
        rcases ih h.2 he hmem with ⟨d, hd, hlinked⟩
        have hde : e ≠ d := fun hed => hnodup.1 (hed ▸ (before_mem hd).1)
        refine ⟨d, hd, h.1, ?_⟩
        rw [Function.update_of_ne hde]
        exact hlinked

end

end Wujian100
