import Wujian100.Library.Ring

/-!
# Bounded Queues

A queue of cells with room for `cap` of them, called with memory of the caller's and
a length: as much is put as there is room for, and as much is got as there is. A
machine that answers calls is compared with another by what it answers; where one
call keeps the two together, all calls do.

## Main definitions

* `overlay`: Memory with a list written from its start on.
* `BoundedOp`, `BoundedOut`: A call, and what the caller sees.
* `bounded`: The queue.
* `answers`: What a machine answers to several calls.

## Theorems

* `copied_straight`, `copied_split`: One copy or two take a list out of a ring.
* `answers_simulates`: Machines that answer one call alike answer all alike.
-/

namespace Wujian100

variable {α : Type}

/-- `dst` with the list written over its first cells. -/
def overlay (dst : Nat → α) (l : List α) : Nat → α :=
  fun i => (l[i]?).getD (dst i)

/-! ## Copying a list out of a ring -/

section Copied

variable {cap h : Nat} {mem : Nat → α} {l : List α}

/-- What ends up in memory that gets a list from a ring. -/
theorem RingHolds.eq_overlay {f dst : Nat → α} (hl : RingHolds cap mem h l)
    (hin : ∀ i, i < l.length → f i = mem ((h + i) % cap))
    (hout : ∀ i, l.length ≤ i → f i = dst i) : f = overlay dst l := by
  ext1 i
  unfold overlay
  by_cases hi : i < l.length
  · rw [hin i hi, List.getElem?_eq_getElem hi, Option.getD_some]
    exact hl i _ (List.getElem?_eq_getElem hi)
  · rw [hout i (by omega), List.getElem?_eq_none (by omega), Option.getD_none]

theorem copied_straight (dst : Nat → α) (hl : RingHolds cap mem h l) (hcap : h + l.length ≤ cap) :
    blit dst 0 mem h l.length = overlay dst l := by
  refine hl.eq_overlay ?_ ?_
  · intro i hi
    rw [blit_of_mem (by omega) (by omega), Nat.mod_eq_of_lt (by omega), Nat.sub_zero]
  · intro i hi
    exact blit_of_not (by omega)

theorem copied_split (dst : Nat → α) (hl : RingHolds cap mem h l) (hh : h < cap)
    (hcap : l.length ≤ cap) (hn : cap - h ≤ l.length) :
    blit (blit dst 0 mem h (cap - h)) (cap - h) mem 0 (l.length - (cap - h)) = overlay dst l := by
  refine hl.eq_overlay ?_ ?_
  · intro i hi
    by_cases hw : h + i < cap
    · rw [blit_of_not (by omega), blit_of_mem (by omega) (by omega), Nat.mod_eq_of_lt hw,
        Nat.sub_zero]
    · have hmod : (h + i) % cap = h + i - cap := by
        rw [Nat.mod_eq_sub_mod (by omega), Nat.mod_eq_of_lt (by omega)]
      rw [hmod, blit_of_mem (by omega) (by omega)]
      congr 1
      omega
  · intro i hi
    rw [blit_of_not (by omega), blit_of_not (by omega)]

/-- A copy of nothing. -/
theorem blit_zero (dst src : Nat → α) (d s : Nat) : blit dst d src s 0 = dst := by
  ext1 i
  exact blit_of_not (by omega)

end Copied

/-! ## The queue -/

/-- A call: cells to put or the memory to get them into, and how many at most. -/
inductive BoundedOp (α : Type) where
  | put (src : Nat → α) (len : Nat)
  | get (dst : Nat → α) (len : Nat)
  | skip (len : Nat)
  | peek (dst : Nat → α) (len : Nat)
  | drain (dst : Nat → α)
  | clear

/-- What the caller sees: how many cells it was, and its memory. -/
inductive BoundedOut (α : Type) where
  | moved (len : Nat)
  | copied (len : Nat) (dst : Nat → α)
  | cleared

/-- A queue with room for `cap` cells. -/
def bounded (cap : Nat) (q : List α) : BoundedOp α → BoundedOut α × List α
  | .put src len =>
      let n := min len (cap - q.length)
      (.moved n, q ++ window src 0 n)
  | .get dst len =>
      let n := min len q.length
      (.copied n (overlay dst (q.take n)), q.drop n)
  | .skip len =>
      let n := min len q.length
      (.moved n, q.drop n)
  | .peek dst len =>
      let n := min len q.length
      (.copied n (overlay dst (q.take n)), q)
  | .drain dst => (.copied q.length (overlay dst q), [])
  | .clear => (.cleared, [])

/-! ## Several calls -/

section Answers

variable {S T A B O : Type}

/-- What the machine answers to each call, and where it ends. -/
def answers (step : S → A → O × S) : S → List A → List O × S
  | s, [] => ([], s)
  | s, a :: as =>
      let r := step s a
      let rest := answers step r.2 as
      (r.1 :: rest.1, rest.2)

theorem answers_simulates {step : S → A → O × S} {step' : T → B → O × T} {R : S → T → Prop}
    (f : A → B) (hstep : ∀ s t a, R s t →
      (step s a).1 = (step' t (f a)).1 ∧ R (step s a).2 (step' t (f a)).2)
    (as : List A) : ∀ {s : S} {t : T}, R s t →
      (answers step s as).1 = (answers step' t (as.map f)).1 ∧
        R (answers step s as).2 (answers step' t (as.map f)).2 := by
  induction as with
  | nil =>
      intro s t hR
      exact ⟨rfl, hR⟩
  | cons a as ih =>
      intro s t hR
      rcases hstep s t a hR with ⟨hout, hnext⟩
      rcases ih hnext with ⟨houts, hlast⟩
      refine ⟨?_, hlast⟩
      rw [List.map_cons, answers, answers, hout, houts]

end Answers

end Wujian100
