import Mathlib.Data.List.Nodup
import Mathlib.Tactic.Ring

/-!
# Lists with Two Links

A list whose nodes point to the next and to the previous one, with nothing in front of the first
and behind the last. The links are any two functions of a node, so they may be words of a memory.

## Main definitions

* `Dlist`: The links are those of the list.

## Theorems

* `Dlist.congr`: Only the links of the nodes matter.
* `Dlist.push`: A node put in front.
* `Dlist.erase`, `Dlist.erase_head`: A node taken out.
-/

namespace Wujian100

/-- From the node behind `p` on, the nodes are those of the list; `0` is no node. -/
def Dlist (prv nxt : Nat → Nat) : Nat → List Nat → Prop
  | _, [] => True
  | p, x :: l => prv x = p ∧ nxt x = l.headD 0 ∧ Dlist prv nxt x l

namespace Dlist

variable {prv nxt prv' nxt' : Nat → Nat} {p x : Nat} {l : List Nat}

/-- Only the links of the nodes matter. -/
theorem congr (h : Dlist prv nxt p l) (hprv : ∀ y ∈ l, prv' y = prv y)
    (hnxt : ∀ y ∈ l, nxt' y = nxt y) : Dlist prv' nxt' p l := by
  induction l generalizing p with
  | nil => trivial
  | cons a l ih =>
      refine ⟨?_, ?_, ?_⟩
      · rw [hprv a List.mem_cons_self]
        exact h.1
      · rw [hnxt a List.mem_cons_self]
        exact h.2.1
      · exact ih h.2.2 (fun y hy => hprv y (List.mem_cons_of_mem a hy))
          fun y hy => hnxt y (List.mem_cons_of_mem a hy)

/-- A node put in front; the one that was first points back to it. -/
theorem push (h : Dlist prv nxt p l) (hx : prv' x = p) (hx' : nxt' x = l.headD 0)
    (hnodup : l.Nodup) (hprv : ∀ y ∈ l, prv' y = if y = l.headD 0 then x else prv y)
    (hnxt : ∀ y ∈ l, nxt' y = nxt y) : Dlist prv' nxt' p (x :: l) := by
  refine ⟨hx, hx', ?_⟩
  cases l with
  | nil => trivial
  | cons a l =>
      rw [List.nodup_cons] at hnodup
      refine ⟨?_, ?_, ?_⟩
      · rw [hprv a List.mem_cons_self]
        exact if_pos rfl
      · rw [hnxt a List.mem_cons_self]
        exact h.2.1
      · refine h.2.2.congr (fun y hy => ?_) fun y hy => hnxt y (List.mem_cons_of_mem a hy)
        have hne : y ≠ a := fun heq => hnodup.1 (heq ▸ hy)
        rw [hprv y (List.mem_cons_of_mem a hy)]
        exact if_neg hne

theorem prev_mem (h : Dlist prv nxt p l) (hx : x ∈ l) (hne : l.headD 0 ≠ x) : prv x ∈ l := by
  induction l generalizing p with
  | nil => cases hx
  | cons a l ih =>
      have hmem : x ∈ l := (List.mem_cons.mp hx).resolve_left (Ne.symm hne)
      by_cases hhead : l.headD 0 = x
      · cases l with
        | nil => cases hmem
        | cons b l =>
            have hb : b = x := hhead
            rw [← hb, h.2.2.1]
            exact List.mem_cons_self
      · exact List.mem_cons_of_mem a (ih h.2.2 hmem hhead)

theorem prev_head (h : Dlist prv nxt p l) (hx : x ∈ l) (hhead : l.headD 0 = x) : prv x = p := by
  cases l with
  | nil => cases hx
  | cons a l =>
      have ha : a = x := hhead
      rw [← ha]
      exact h.1

theorem next_mem (h : Dlist prv nxt p l) (hx : x ∈ l) : nxt x = 0 ∨ nxt x ∈ l := by
  induction l generalizing p with
  | nil => cases hx
  | cons a l ih =>
      rcases List.mem_cons.mp hx with rfl | hmem
      · rw [h.2.1]
        cases l with
        | nil => exact Or.inl rfl
        | cons b l => exact Or.inr (List.mem_cons_of_mem x List.mem_cons_self)
      · rcases ih h.2.2 hmem with hnil | hnext
        · exact Or.inl hnil
        · exact Or.inr (List.mem_cons_of_mem a hnext)

/-- The node behind the one in front. -/
theorem prev_next (h : Dlist prv nxt p l) (hx : x ∈ l) (hne : l.headD 0 ≠ x) :
    nxt (prv x) = x := by
  induction l generalizing p with
  | nil => cases hx
  | cons a l ih =>
      have hmem : x ∈ l := (List.mem_cons.mp hx).resolve_left (Ne.symm hne)
      by_cases hhead : l.headD 0 = x
      · rw [prev_head h.2.2 hmem hhead, h.2.1, hhead]
      · exact ih h.2.2 hmem hhead

/-- No node is followed by itself or by the first one. -/
theorem next_ne (h : Dlist prv nxt p l) (hx : x ∈ l) (hnodup : l.Nodup) (hzero : 0 ∉ l) :
    nxt x ≠ x ∧ nxt x ≠ l.headD 0 := by
  induction l generalizing p with
  | nil => cases hx
  | cons a l ih =>
      have hfresh := List.nodup_cons.mp hnodup
      have hzero' : 0 ∉ l := fun hmem => hzero (List.mem_cons_of_mem a hmem)
      have hne : ∀ y, y = 0 ∨ y ∈ l → y ≠ a := by
        intro y hy heq
        rcases hy with hy | hy
        · exact hzero (hy ▸ heq ▸ List.mem_cons_self)
        · exact hfresh.1 (heq ▸ hy)
      rcases List.mem_cons.mp hx with rfl | hmem
      · rw [h.2.1]
        cases l with
        | nil => exact ⟨hne 0 (Or.inl rfl), hne 0 (Or.inl rfl)⟩
        | cons b l =>
            exact ⟨hne b (Or.inr List.mem_cons_self), hne b (Or.inr List.mem_cons_self)⟩
      · exact ⟨(ih h.2.2 hmem hfresh.2 hzero').1, hne _ (next_mem h.2.2 hmem)⟩

/-- The first node after one was taken out. -/
theorem erase_head (h : Dlist prv nxt p l) :
    (l.erase x).headD 0 = if l.headD 0 = x ∧ l ≠ [] then nxt x else l.headD 0 := by
  cases l with
  | nil => exact (if_neg fun hc => hc.2 rfl).symm
  | cons a l =>
      by_cases ha : a = x
      · rw [if_pos ⟨ha, List.cons_ne_nil a l⟩, ← ha, List.erase_cons_head, h.2.1]
      · rw [if_neg fun hc => ha hc.1, List.erase_cons_tail (by simpa using ha)]
        rfl

/-- A node taken out: its neighbours point to each other. -/
theorem erase (h : Dlist prv nxt p l) (hx : x ∈ l) (hnodup : l.Nodup) (hzero : 0 ∉ l) (hp : p ∉ l)
    (hprv : ∀ y ∈ l, y ≠ x → prv' y = if y = nxt x then prv x else prv y)
    (hnxt : ∀ y ∈ l, y ≠ x → nxt' y = if y = prv x then nxt x else nxt y) :
    Dlist prv' nxt' p (l.erase x) := by
  -- the part in front of `x` keeps its links but the last one's, the part behind but the first's
  induction l generalizing p with
  | nil => cases hx
  | cons a l ih =>
      have hfresh := List.nodup_cons.mp hnodup
      have hzero' : 0 ∉ l := fun hmem => hzero (List.mem_cons_of_mem a hmem)
      by_cases ha : a = x
      · rw [← ha, List.erase_cons_head]
        rw [← ha] at hprv hnxt
        have hkeep : ∀ y ∈ l, nxt' y = nxt y := by
          intro y hy
          have hya : y ≠ a := fun heq => hfresh.1 (heq ▸ hy)
          have hyp : y ≠ p := fun heq => hp (heq ▸ List.mem_cons_of_mem a hy)
          rw [hnxt y (List.mem_cons_of_mem a hy) hya, h.1]
          exact if_neg hyp
        cases l with
        | nil => trivial
        | cons b l =>
            have hb : b ≠ a := fun heq => hfresh.1 (heq ▸ List.mem_cons_self)
            have hfresh' := List.nodup_cons.mp hfresh.2
            refine ⟨?_, ?_, ?_⟩
            · rw [hprv b (List.mem_cons_of_mem a List.mem_cons_self) hb, h.2.1]
              exact (if_pos rfl).trans h.1
            · rw [hkeep b List.mem_cons_self]
              exact h.2.2.2.1
            · refine h.2.2.2.2.congr (fun y hy => ?_)
                fun y hy => hkeep y (List.mem_cons_of_mem b hy)
              have hya : y ≠ a := fun heq => hfresh.1 (heq ▸ List.mem_cons_of_mem b hy)
              have hyb : y ≠ b := fun heq => hfresh'.1 (heq ▸ hy)
              rw [hprv y (List.mem_cons_of_mem a (List.mem_cons_of_mem b hy)) hya, h.2.1]
              exact if_neg hyb
      · have hmem : x ∈ l := (List.mem_cons.mp hx).resolve_left fun heq => ha heq.symm
        rw [List.erase_cons_tail (by simpa using ha)]
        have hnext : a ≠ nxt x := by
          intro heq
          rcases next_mem h.2.2 hmem with hnil | hnext
          · exact hzero (hnil ▸ heq ▸ List.mem_cons_self)
          · exact hfresh.1 (heq ▸ hnext)
        refine ⟨?_, ?_, ?_⟩
        · rw [hprv a List.mem_cons_self ha, if_neg hnext]
          exact h.1
        · rw [hnxt a List.mem_cons_self ha, erase_head h.2.2]
          by_cases hhead : l.headD 0 = x
          · have hprev : a = prv x := (prev_head h.2.2 hmem hhead).symm
            have hboth : l.headD 0 = x ∧ l ≠ [] := ⟨hhead, List.ne_nil_of_mem hmem⟩
            rw [if_pos hprev, if_pos hboth]
          · have hprev : a ≠ prv x := fun heq => hfresh.1 (heq ▸ prev_mem h.2.2 hmem hhead)
            have hboth : ¬(l.headD 0 = x ∧ l ≠ []) := fun hc => hhead hc.1
            rw [if_neg hprev, if_neg hboth]
            exact h.2.1
        · exact ih h.2.2 hmem hfresh.2 hzero' hfresh.1
            (fun y hy => hprv y (List.mem_cons_of_mem a hy))
            fun y hy => hnxt y (List.mem_cons_of_mem a hy)

end Dlist

end Wujian100
