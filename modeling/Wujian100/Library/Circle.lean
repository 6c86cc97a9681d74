import Mathlib.Data.List.Nodup
import Mathlib.Logic.Function.Basic

/-!
# Circles of Links

A list without an end: each node says which one is next and which one is before it, and the
head is one of them. It is what a pair of pointers in each element of a list leaves in memory.

## Main definitions

* `Links`: From one node over a list of nodes to another, there and back.
* `Circle`: From the head to the head, over nodes that are all different.
* `insertNext`, `insertPrev`: The links when a node is put in front of the head.
* `forEach`: A loop from node to node, while something holds of what it has so far.

## Theorems

* `Links.congr`: Only the links of the nodes matter.
* `Circle.insert`: A new node comes last.
* `Circle.forEach`: The loop goes over all nodes, in their order.
-/

namespace Wujian100

variable {α σ : Type}

/-- From `a` over the nodes to `b`, and back. -/
def Links (next prev : α → α) : α → List α → α → Prop
  | a, [], b => next a = b ∧ prev b = a
  | a, n :: nodes, b => (next a = n ∧ prev n = a) ∧ Links next prev n nodes b

/-- All nodes, once around. -/
def Circle (next prev : α → α) (head : α) (nodes : List α) : Prop :=
  (head :: nodes).Nodup ∧ Links next prev head nodes head

/-- `next` when `x` is put in front of the head. -/
def insertNext [DecidableEq α] (next prev : α → α) (head x : α) : α → α :=
  Function.update (Function.update next x head) (prev head) x

/-- `prev` when `x` is put in front of the head. -/
def insertPrev [DecidableEq α] (prev : α → α) (head x : α) : α → α :=
  Function.update (Function.update prev x (prev head)) head x

/-- The loop from a node on, for so many turns at most. -/
def forEach [DecidableEq α] (next : α → α) (stop : α) (go : σ → Bool) (f : σ → α → σ) :
    Nat → α → σ → Option σ
  | 0, _, _ => none
  | turns + 1, tmp, s =>
      if tmp ≠ stop ∧ go s = true then forEach next stop go f turns (next tmp) (f s tmp) else some s

section Links

variable {next prev next' prev' : α → α} {a b x : α} {nodes : List α}

theorem Links.congr (h : Links next prev a nodes b) (hnext : ∀ n ∈ a :: nodes, next' n = next n)
    (hprev : ∀ n ∈ nodes ++ [b], prev' n = prev n) : Links next' prev' a nodes b := by
  induction nodes generalizing a with
  | nil =>
      refine ⟨?_, ?_⟩
      · rw [hnext a List.mem_cons_self]
        exact h.1
      · rw [hprev b List.mem_cons_self]
        exact h.2
  | cons n nodes ih =>
      rcases h with ⟨⟨hn, hp⟩, hrest⟩
      refine ⟨⟨?_, ?_⟩, ih hrest ?_ ?_⟩
      · rw [hnext a List.mem_cons_self]
        exact hn
      · rw [hprev n List.mem_cons_self]
        exact hp
      · exact fun k hk => hnext k (List.mem_cons_of_mem a hk)
      · exact fun k hk => hprev k (List.mem_cons_of_mem n hk)

/-- The node before the last link is the last one. -/
theorem Links.prev_mem (h : Links next prev a nodes b) : prev b ∈ a :: nodes := by
  induction nodes generalizing a with
  | nil =>
      rw [h.2]
      exact List.mem_cons_self
  | cons n nodes ih => exact List.mem_cons_of_mem a (ih h.2)

/-- Links to another end, over one node more. -/
theorem Links.extend (h : Links next prev a nodes b) (hnext : ∀ n ∈ a :: nodes, n ≠ prev b →
      next' n = next n)
    (hprev : ∀ n ∈ nodes, prev' n = prev n) (hnodup : (a :: nodes).Nodup)
    (hlast : next' (prev b) = x) (hx : prev' x = prev b) (hend : next' x = b)
    (hb : prev' b = x) : Links next' prev' a (nodes ++ [x]) b := by
  induction nodes generalizing a with
  | nil =>
      rw [h.2] at hlast hx
      exact ⟨⟨hlast, hx⟩, hend, hb⟩
  | cons n nodes ih =>
      rcases h with ⟨⟨hn, hp⟩, hrest⟩
      have hne : a ≠ prev b := by
        intro heq
        have hmem := hrest.prev_mem
        rw [← heq] at hmem
        exact (List.nodup_cons.mp hnodup).1 hmem
      refine ⟨⟨?_, ?_⟩, ih hrest ?_ ?_ (List.nodup_cons.mp hnodup).2⟩
      · rw [hnext a List.mem_cons_self hne]
        exact hn
      · rw [hprev n List.mem_cons_self]
        exact hp
      · exact fun k hk => hnext k (List.mem_cons_of_mem a hk)
      · exact fun k hk => hprev k (List.mem_cons_of_mem n hk)

end Links

section Circle

variable {next prev : α → α} {head x : α} {nodes : List α}

theorem circle_nil (hnext : next head = head) (hprev : prev head = head) :
    Circle next prev head [] :=
  ⟨List.nodup_cons.mpr ⟨List.not_mem_nil, List.nodup_nil⟩, hnext, hprev⟩

theorem Circle.congr {next' prev' : α → α} (h : Circle next prev head nodes)
    (hnext : ∀ n ∈ head :: nodes, next' n = next n)
    (hprev : ∀ n ∈ head :: nodes, prev' n = prev n) : Circle next' prev' head nodes := by
  refine ⟨h.1, h.2.congr hnext fun n hn => hprev n ?_⟩
  rcases List.mem_append.mp hn with hn | hn
  · exact List.mem_cons_of_mem head hn
  · rw [List.mem_singleton.mp hn]
    exact List.mem_cons_self

/-- A node that was none comes last. -/
theorem Circle.insert [DecidableEq α] (h : Circle next prev head nodes) (hx : x ∉ head :: nodes) :
    Circle (insertNext next prev head x) (insertPrev prev head x) head (nodes ++ [x]) := by
  have hhead : x ≠ head := (ne_of_mem_of_not_mem List.mem_cons_self hx).symm
  have hlast : x ≠ prev head := (ne_of_mem_of_not_mem h.2.prev_mem hx).symm
  rcases List.nodup_cons.mp h.1 with ⟨hout, hnodup⟩
  refine ⟨?_, h.2.extend ?_ ?_ h.1 ?_ ?_ ?_ ?_⟩
  · rw [← List.cons_append]
    refine h.1.append (List.nodup_cons.mpr ⟨List.not_mem_nil, List.nodup_nil⟩) ?_
    rw [List.disjoint_singleton]
    exact hx
  · intro n hn hne
    unfold insertNext
    rw [Function.update_of_ne hne, Function.update_of_ne (ne_of_mem_of_not_mem hn hx)]
  · intro n hn
    unfold insertPrev
    rw [Function.update_of_ne (ne_of_mem_of_not_mem hn hout),
      Function.update_of_ne (ne_of_mem_of_not_mem (List.mem_cons_of_mem head hn) hx)]
  · exact Function.update_self _ _ _
  · unfold insertPrev
    rw [Function.update_of_ne hhead, Function.update_self]
  · unfold insertNext
    rw [Function.update_of_ne hlast, Function.update_self]
  · exact Function.update_self _ _ _

/-- A loop that does not go on leaves everything as it is. -/
theorem forEach_stop [DecidableEq α] (next : α → α) (stop : α) (go : σ → Bool) (f : σ → α → σ)
    {turns : Nat} (hturns : 0 < turns) (tmp : α) (s : σ) (hgo : go s = false) :
    forEach next stop go f turns tmp s = some s := by
  cases turns with
  | zero => exact absurd hturns (Nat.lt_irrefl 0)
  | succ turns =>
      rw [Wujian100.forEach, if_neg]
      rw [hgo]
      exact fun h => Bool.false_ne_true h.2

/-- A loop that goes on goes over all nodes that are left. -/
theorem Links.forEach [DecidableEq α] {a : α} {go : σ → Bool} (f : σ → α → σ)
    (hgo : ∀ s, go s = true) {s : σ} (h : Links next prev a nodes head) (hout : head ∉ nodes) {turns : Nat}
    (hturns : nodes.length < turns) :
    forEach next head go f turns (next a) s = some (nodes.foldl f s) := by
  induction nodes generalizing a s turns with
  | nil =>
      cases turns with
      | zero => exact absurd hturns (Nat.not_lt_zero _)
      | succ turns =>
          rw [Wujian100.forEach, h.1, if_neg fun hne => hne.1 rfl]
          rfl
  | cons n nodes ih =>
      cases turns with
      | zero => exact absurd hturns (Nat.not_lt_zero _)
      | succ turns =>
          rcases h with ⟨⟨hn, -⟩, hrest⟩
          have hne : n ≠ head := ne_of_mem_of_not_mem List.mem_cons_self hout
          rw [Wujian100.forEach, hn, if_pos ⟨hne, hgo s⟩, List.foldl_cons]
          exact ih hrest (fun hmem => hout (List.mem_cons_of_mem n hmem))
            (Nat.lt_of_succ_lt_succ hturns)

theorem Circle.forEach [DecidableEq α] {go : σ → Bool} (f : σ → α → σ)
    (hgo : ∀ s, go s = true) (s : σ) (h : Circle next prev head nodes) {turns : Nat}
    (hturns : nodes.length < turns) :
    forEach next head go f turns (next head) s = some (nodes.foldl f s) :=
  h.2.forEach f hgo (List.nodup_cons.mp h.1).1 hturns

end Circle

end Wujian100
