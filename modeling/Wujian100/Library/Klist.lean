import Mathlib.Data.List.Sort

/-!
# Queues Kept in Order

A queue is walked from its head until an entry is due after the new one, and the
new one goes in front of it: `List.orderedInsert`. Entries that are due together
stay in the order they came.

## Theorems

* `pairwise_orderedInsert`: The queue stays sorted by a key.
* `takeWhile_eq_filter`: A walk that stops at the first entry that is not due finds
  all that are.
-/

namespace Wujian100

variable {α κ : Type} {r : α → α → Prop} [DecidableRel r] {x : α} {l : List α}

theorem nodup_orderedInsert : (l.orderedInsert r x).Nodup ↔ x ∉ l ∧ l.Nodup := by
  rw [(List.perm_orderedInsert r x l).nodup_iff, List.nodup_cons]

theorem orderedInsert_ne_nil : l.orderedInsert r x ≠ [] := by
  intro h
  have hlen := List.orderedInsert_length r l x
  rw [h] at hlen
  exact absurd hlen (by simp)

/-- The walk looks at the entries of the queue only. -/
theorem orderedInsert_congr {r' : α → α → Prop} [DecidableRel r'] (h : ∀ y ∈ l, r x y ↔ r' x y) :
    l.orderedInsert r x = l.orderedInsert r' x := by
  induction l with
  | nil => rfl
  | cons y l ih =>
      have hy := h y List.mem_cons_self
      rw [List.orderedInsert_cons, List.orderedInsert_cons, if_congr hy rfl rfl,
        ih fun z hz => h z (List.mem_cons_of_mem _ hz)]

/-- Where the entries that stop the walk are those due later, the queue stays
    sorted. -/
theorem pairwise_orderedInsert [LinearOrder κ] {key : α → κ}
    (hl : l.Pairwise fun a b => key a ≤ key b) (hr : ∀ y ∈ l, r x y ↔ key x < key y) :
    (l.orderedInsert r x).Pairwise fun a b => key a ≤ key b := by
  induction l with
  | nil => simp
  | cons y l ih =>
      rw [List.pairwise_cons] at hl
      have hy := hr y List.mem_cons_self
      rw [List.orderedInsert_cons]
      by_cases hstop : r x y
      · rw [if_pos hstop, List.pairwise_cons]
        have hlt := hy.mp hstop
        refine ⟨?_, List.pairwise_cons.mpr hl⟩
        intro z hz
        rcases List.mem_cons.mp hz with rfl | hz
        · exact hlt.le
        · exact hlt.le.trans (hl.1 z hz)
      · rw [if_neg hstop, List.pairwise_cons]
        have hle : key y ≤ key x := not_lt.mp fun hlt => hstop (hy.mpr hlt)
        refine ⟨?_, ih hl.2 fun z hz => hr z (List.mem_cons_of_mem _ hz)⟩
        intro z hz
        rcases (List.mem_orderedInsert r).mp hz with rfl | hz
        · exact hle
        · exact hl.1 z hz

/-- Behind an entry that is not due none is, so a walk that stops there misses
    nothing. -/
theorem takeWhile_eq_filter {p : α → Bool} (hl : l.Pairwise fun a b => p b = true → p a = true) :
    l.takeWhile p = l.filter p := by
  induction l with
  | nil => rfl
  | cons y l ih =>
      rw [List.pairwise_cons] at hl
      cases hy : p y with
      | true => rw [List.takeWhile_cons_of_pos hy, List.filter_cons_of_pos hy, ih hl.2]
      | false =>
          have hnone : l.filter p = [] := by
            rw [List.filter_eq_nil_iff]
            intro z hz hp
            rw [hl.1 z hz hp] at hy
            cases hy
          rw [List.takeWhile_cons_of_neg (by simp [hy]), List.filter_cons_of_neg (by simp [hy]), hnone]

end Wujian100
