import Mathlib.Algebra.BigOperators.Group.Finset.Basic
import Mathlib.Algebra.Order.BigOperators.Group.Finset
import Mathlib.Data.Fintype.Order
import Mathlib.Logic.Relation
import Mathlib.Order.Bounds.Basic
import Mathlib.Order.Lattice.Nat
import Mathlib.Tactic.Ring

/-!
# Inherited Priorities

Parties have base priorities, and some keep others from going on. Whoever keeps a
party waiting is at least as urgent as that party, and not more urgent than its own
base priority and those it keeps waiting make it. A smaller number is more urgent.

When the priority of a party changes, the one that keeps it waiting may have to
change too, and so on. A change only goes on where it matters, and the priorities
all go the same way, so it comes to an end.

## Main definitions

* `Best`: The priority of a party by its base priority and those it keeps waiting.
* `Settled`: Every party has that priority.
* `propagate`: The change of a priority and what it leads to.

## Theorems

* `Settled.isLeast_transGen`: All that wait for a party, also through others, count.
* `Settled.isLeast_base`: Where no party waits for itself, base priorities decide.
* `propagate_raise`, `propagate_lower`: A change ends with all priorities settled.
-/

namespace Wujian100

namespace Inherit

variable {T : Type}

/-- The least of a party's base priority and the priorities of those it keeps
    waiting. -/
def Best (f base : T → Nat) (blocks : T → T → Prop) (t : T) (v : Nat) : Prop :=
  IsLeast (insert (base t) (f '' {u | blocks u t})) v

/-- That least priority. -/
noncomputable def best (f base : T → Nat) (blocks : T → T → Prop) (t : T) : Nat :=
  sInf (insert (base t) (f '' {u | blocks u t}))

/-- The parties of `S` have their least priorities. -/
def Settled (S : T → Prop) (f base : T → Nat) (blocks : T → T → Prop) : Prop :=
  ∀ t, S t → Best f base blocks t (f t)

section Best

variable {f f' base base' : T → Nat} {blocks blocks' : T → T → Prop} {t u w : T} {v p : Nat}

theorem best_spec (f base : T → Nat) (blocks : T → T → Prop) (t : T) :
    Best f base blocks t (best f base blocks t) :=
  ⟨Nat.sInf_mem ⟨_, Set.mem_insert _ _⟩, fun _ h => Nat.sInf_le h⟩

theorem Best.eq_best (h : Best f base blocks t v) : v = best f base blocks t :=
  h.unique (best_spec f base blocks t)

theorem Best.le_base (h : Best f base blocks t v) : v ≤ base t :=
  h.2 (Set.mem_insert _ _)

theorem Best.le_of_blocks (h : Best f base blocks t v) (hu : blocks u t) : v ≤ f u :=
  h.2 (Set.mem_insert_of_mem _ ⟨u, hu, rfl⟩)

/-- The least priority is reached. -/
theorem Best.reached (h : Best f base blocks t v) : v = base t ∨ ∃ u, blocks u t ∧ f u = v := by
  rcases h.1 with hb | ⟨u, hu, hv⟩
  · exact .inl hb
  · exact .inr ⟨u, hu, hv⟩

theorem Best.of (hreached : v = base t ∨ ∃ u, blocks u t ∧ f u = v) (hbase : v ≤ base t)
    (hle : ∀ u, blocks u t → v ≤ f u) : Best f base blocks t v := by
  refine ⟨?_, ?_⟩
  · rcases hreached with hb | ⟨u, hu, hv⟩
    · exact .inl hb
    · exact .inr ⟨u, hu, hv⟩
  · intro x hx
    rcases hx with hx | ⟨u, hu, hx⟩
    · rw [hx]
      exact hbase
    · rw [← hx]
      exact hle u hu

theorem Best.congr (h : Best f base blocks t v) (hbase : base' t = base t)
    (hblocks : ∀ u, blocks' u t ↔ blocks u t) (hf : ∀ u, blocks u t → f' u = f u) :
    Best f' base' blocks' t v := by
  refine .of ?_ (hbase ▸ h.le_base) ?_
  · rcases h.reached with hb | ⟨u, hu, hv⟩
    · exact .inl (hb.trans hbase.symm)
    · exact .inr ⟨u, (hblocks u).mpr hu, (hf u hu).trans hv⟩
  · intro u hu
    have hold := (hblocks u).mp hu
    rw [hf u hold]
    exact h.le_of_blocks hold

/-- Those that come to wait are not more urgent. -/
theorem Best.widen (h : Best f base blocks t v) (hsub : ∀ u, blocks u t → blocks' u t)
    (hnew : ∀ u, blocks' u t → blocks u t ∨ v ≤ f u) : Best f base blocks' t v := by
  refine .of ?_ h.le_base ?_
  · rcases h.reached with hb | ⟨u, hu, hv⟩
    · exact .inl hb
    · exact .inr ⟨u, hsub u hu, hv⟩
  · intro u hu
    rcases hnew u hu with hold | hle
    · exact h.le_of_blocks hold
    · exact hle

/-- Those that wait no longer were less urgent. -/
theorem Best.narrow (h : Best f base blocks t v) (hsub : ∀ u, blocks' u t → blocks u t)
    (hold : ∀ u, blocks u t → blocks' u t ∨ f u ≠ v) : Best f base blocks' t v := by
  refine .of ?_ h.le_base fun u hu => h.le_of_blocks (hsub u hu)
  rcases h.reached with hb | ⟨u, hu, hv⟩
  · exact .inl hb
  · exact .inr ⟨u, (hold u hu).resolve_right fun hne => hne hv, hv⟩

/-- One that comes to wait is more urgent. -/
theorem Best.join (h : Best f base blocks t v) (hsub : ∀ u, blocks' u t → blocks u t ∨ u = w)
    (hw : blocks' w t) (hp : f w ≤ v) : Best f base blocks' t (f w) := by
  refine .of (.inr ⟨w, hw, rfl⟩) (hp.trans h.le_base) ?_
  intro u hu
  rcases hsub u hu with hold | he
  · exact hp.trans (h.le_of_blocks hold)
  · rw [he]

variable [DecidableEq T]

/-- One that waits becomes more urgent than anything was. -/
theorem Best.raise (h : Best f base blocks t v) (hw : blocks w t) (hp : p < v) :
    Best (Function.update f w p) base blocks t p := by
  refine .of (.inr ⟨w, hw, Function.update_self ..⟩) (hp.le.trans h.le_base) ?_
  intro u hu
  by_cases he : u = w
  · rw [he, Function.update_self]
  · rw [Function.update_of_ne he]
    exact hp.le.trans (h.le_of_blocks hu)

/-- One that did not decide still does not. -/
theorem Best.keep (h : Best f base blocks t v) (hw : f w ≠ v) (hp : v ≤ p) :
    Best (Function.update f w p) base blocks t v := by
  refine .of ?_ h.le_base ?_
  · rcases h.reached with hb | ⟨u, hu, hv⟩
    · exact .inl hb
    · have hne : u ≠ w := by
        intro he
        rw [he] at hv
        exact hw hv
      exact .inr ⟨u, hu, (Function.update_of_ne hne _ _).trans hv⟩
  · intro u hu
    by_cases he : u = w
    · rw [he, Function.update_self]
      exact hp
    · rw [Function.update_of_ne he]
      exact h.le_of_blocks hu

/-- Where one becomes less urgent, nothing becomes more urgent. -/
theorem Best.le_of_lower (h : Best f base blocks t v) {v' : Nat}
    (h' : Best (Function.update f w p) base blocks t v') (hp : f w ≤ p) : v ≤ v' := by
  rcases h'.reached with hb | ⟨u, hu, hv⟩
  · rw [hb]
    exact h.le_base
  · rw [← hv]
    by_cases he : u = w
    · rw [he, Function.update_self]
      exact (h.le_of_blocks (he ▸ hu)).trans hp
    · rw [Function.update_of_ne he]
      exact h.le_of_blocks hu

/-- Parties that do not wait for `w` see nothing of its change. -/
theorem Best.update_of_not_blocks (h : Best f base blocks t v) (hw : ¬blocks w t) (p : Nat) :
    Best (Function.update f w p) base blocks t v := by
  refine h.congr rfl (fun _ => Iff.rfl) ?_
  intro u hu
  refine Function.update_of_ne ?_ _ _
  intro he
  exact hw (he ▸ hu)

end Best

/-! ## Chains of those that wait -/

section Transitive

open Relation

variable {S : T → Prop} {f base : T → Nat} {blocks : T → T → Prop} {t : T}

theorem Settled.le_of_transGen (h : Settled S f base blocks) (hS : ∀ u t, blocks u t → S t) {u : T}
    (hu : TransGen blocks u t) : f t ≤ f u := by
  induction hu with
  | single hb => exact (h _ (hS _ _ hb)).le_of_blocks hb
  | tail _ hb ih => exact ((h _ (hS _ _ hb)).le_of_blocks hb).trans ih

/-- All that wait for a party, also through others, count. -/
theorem Settled.isLeast_transGen (h : Settled S f base blocks) (hS : ∀ u t, blocks u t → S t)
    (ht : S t) : Best f base (TransGen blocks) t (f t) := by
  refine .of ?_ (h t ht).le_base fun u hu => h.le_of_transGen hS hu
  rcases (h t ht).reached with hb | ⟨u, hu, hv⟩
  · exact .inl hb
  · exact .inr ⟨u, .single hu, hv⟩

/-- What a party waits for through others, among those that a party waits for. -/
theorem wellFounded_of_acyclic [Finite T] (hacyclic : ∀ u, ReflTransGen blocks u t →
      ¬TransGen blocks u u) :
    WellFounded fun u v => TransGen blocks u v ∧ ReflTransGen blocks v t := by
  have htrans : IsTrans T fun u v => TransGen blocks u v ∧ ReflTransGen blocks v t := by
    refine ⟨?_⟩
    intro a b c hab hbc
    exact ⟨hab.1.trans hbc.1, hbc.2⟩
  have hirrefl : Std.Irrefl fun u v => TransGen blocks u v ∧ ReflTransGen blocks v t := by
    refine ⟨?_⟩
    intro a ha
    exact hacyclic a ha.2 ha.1
  exact Finite.wellFounded_of_trans_of_irrefl _

/-- Where no party waits for itself, base priorities decide. -/
theorem Settled.isLeast_base [Finite T] (h : Settled S f base blocks)
    (hS : ∀ u t, blocks u t → S t) (hS' : ∀ u t, blocks u t → S u) (ht : S t)
    (hacyclic : ∀ u, ReflTransGen blocks u t → ¬TransGen blocks u u) :
    IsLeast (base '' {u | ReflTransGen blocks u t}) (f t) := by
  refine ⟨?_, ?_⟩
  · -- The priority comes from someone further down the chain, until it is a base priority.
    have hreach : ∀ v, ReflTransGen blocks v t → S v →
        ∃ u, ReflTransGen blocks u v ∧ base u = f v := by
      intro v
      induction v using (wellFounded_of_acyclic hacyclic).induction with
      | _ v ih =>
          intro hv hSv
          rcases (h v hSv).reached with hb | ⟨u, hu, hfu⟩
          · exact ⟨v, .refl, hb.symm⟩
          · rcases ih u ⟨.single hu, hv⟩ (.head hu hv) (hS' u v hu) with ⟨x, hx, hbase⟩
            exact ⟨x, hx.tail hu, hbase.trans hfu⟩
    rcases hreach t .refl ht with ⟨u, hu, hbase⟩
    exact ⟨u, hu, hbase⟩
  · intro x hx
    rcases hx with ⟨u, hu, rfl⟩
    rcases reflTransGen_iff_eq_or_transGen.mp hu with rfl | hu
    · exact (h t ht).le_base
    · have hSu : S u := by
        rcases TransGen.head'_iff.mp hu with ⟨w, hw, -⟩
        exact hS' u w hw
      exact (h.le_of_transGen hS hu).trans (h u hSu).le_base

end Transitive

/-! ## A change and what it leads to -/

section Propagate

variable [DecidableEq T]

/-- The priority of `t` becomes `p`, for as many turns. The party `t` waits for becomes
    as urgent, or where `t` had decided its priority is looked up again. -/
def propagate (next : T → Option T) (look : (T → Nat) → T → Nat) :
    Nat → (T → Nat) → T → Nat → Option (T → Nat)
  | 0, _, _, _ => none
  | n + 1, f, t, p =>
      if f t = p then some f
      else
        let f' := Function.update f t p
        match next t with
        | none => some f'
        | some w =>
            if f' w > p then propagate next look n f' w p
            else if f' w = f t then
              if look f' w ≠ f' w then propagate next look n f' w (look f' w) else some f'
            else some f'

variable {S : T → Prop} {next : T → Option T} {look : (T → Nat) → T → Nat} {f base : T → Nat}
  {blocks : T → T → Prop} {t : T} {n p : Nat}

/-- The change itself settles all but the one that `t` waits for. -/
theorem Settled.update (hself : ¬blocks t t)
    (hrest : ∀ u, S u → u ≠ t → Best f base blocks u (f u)) (ht : Best f base blocks t p) {u : T}
    (hu : S u) (hw : ¬blocks t u) :
    Best (Function.update f t p) base blocks u (Function.update f t p u) := by
  by_cases he : u = t
  · subst he
    rw [Function.update_self]
    exact ht.update_of_not_blocks hself p
  · rw [Function.update_of_ne he]
    exact (hrest u hu he).update_of_not_blocks hw p

variable [Fintype T]

theorem sum_update_lt (g : T → Nat) {x : Nat} (h : x < g t) :
    ∑ u, Function.update g t x u < ∑ u, g u := by
  refine Finset.sum_lt_sum ?_ ⟨t, Finset.mem_univ t, ?_⟩
  · intro u _
    by_cases hu : u = t
    · rw [hu, Function.update_self]
      exact h.le
    · rw [Function.update_of_ne hu]
  · rw [Function.update_self]
    exact h

/-- A change to a more urgent priority ends, with all priorities settled. Who waits for
    whom need only be known of those that are less urgent. -/
theorem propagate_raise (hS : ∀ u w, blocks u w → S w) (hself : ∀ u, ¬blocks u u)
    (hn : ∑ u, f u < n) (hnext : ∀ u, p < f u → ∀ w, blocks u w ↔ next u = some w)
    (hrest : ∀ u, S u → u ≠ t → Best f base blocks u (f u)) (ht : Best f base blocks t p)
    (hp : p ≤ f t) :
    ∃ f', propagate next look n f t p = some f' ∧ Settled S f' base blocks ∧
      ∀ u, f u ≤ p → f' u = f u := by
  -- By induction on the fuel: each turn makes the sum of the priorities smaller.
  induction n generalizing f t with
  | zero => exact absurd hn (Nat.not_lt_zero _)
  | succ n ih =>
      unfold propagate
      by_cases heq : f t = p
      · rw [if_pos heq]
        refine ⟨f, rfl, ?_, fun _ _ => rfl⟩
        intro u hu
        by_cases hut : u = t
        · subst hut
          rw [heq]
          exact ht
        · exact hrest u hu hut
      · rw [if_neg heq]
        have hlt : p < f t := by omega
        have hsame : ∀ u, f u ≤ p → Function.update f t p u = f u := by
          intro u hu
          refine Function.update_of_ne ?_ _ _
          intro he
          rw [he] at hu
          omega
        dsimp only
        cases hw : next t with
        | none =>
            refine ⟨_, rfl, ?_, hsame⟩
            intro u hu
            refine Settled.update (hself t) hrest ht hu ?_
            rw [hnext t hlt, hw]
            simp
        | some w =>
            have hblocks : blocks t w := (hnext t hlt w).mpr hw
            -- The task blocks nobody else, so only the next one can be unsettled.
            have honly : ∀ u, u ≠ w → ¬blocks t u := by
              intro u hu hb
              have hsome := (hnext t hlt u).mp hb
              rw [hw, Option.some.injEq] at hsome
              exact hu hsome.symm
            have hwt : w ≠ t := fun he => hself t (he ▸ hblocks)
            have hbest := hrest w (hS t w hblocks) hwt
            have hfw : Function.update f t p w = f w := Function.update_of_ne hwt _ _
            dsimp only
            rw [hfw]
            by_cases hgt : f w > p
            -- The next one is less urgent and is raised in its turn.
            · rw [if_pos hgt]
              have hless : ∑ u, Function.update f t p u < n := by
                have := sum_update_lt f hlt
                omega
              have hnext' : ∀ u, p < Function.update f t p u →
                  ∀ w, blocks u w ↔ next u = some w := by
                intro u hu
                refine hnext u ?_
                by_cases he : u = t
                · rw [he]
                  exact hlt
                · rw [Function.update_of_ne he] at hu
                  exact hu
              rcases ih hless hnext'
                (fun u hu hne => Settled.update (hself t) hrest ht hu (honly u hne))
                (hbest.raise hblocks hgt) (by rw [hfw]; exact hgt.le) with ⟨f', hf', hset, hkeep⟩
              refine ⟨f', hf', hset, ?_⟩
              intro u hu
              have hu' := hsame u hu
              rw [hkeep u (hu'.trans_le hu), hu']
            -- The next one is urgent enough: the change ends here.
            · rw [if_neg hgt, if_neg (by omega)]
              refine ⟨_, rfl, ?_, hsame⟩
              intro u hu
              by_cases huw : u = w
              · rw [huw, hfw]
                exact hbest.keep (by omega) (by omega)
              · exact Settled.update (hself t) hrest ht hu (honly u huw)

/-- A change to a less urgent priority ends, with all priorities settled. -/
theorem propagate_lower {M : Nat} (hS : ∀ u w, blocks u w → S w) (hself : ∀ u, ¬blocks u u)
    (hbase : ∀ u, base u ≤ M) (hn : ∑ u, (M - f u) < n)
    (hnext : ∀ u w, blocks u w ↔ next u = some w)
    (hlook : ∀ f w, Best f base blocks w (look f w))
    (hrest : ∀ u, S u → u ≠ t → Best f base blocks u (f u)) (ht : Best f base blocks t p)
    (hp : f t ≤ p) :
    ∃ f', propagate next look n f t p = some f' ∧ Settled S f' base blocks := by
  -- By induction on the fuel, as for a raise, with what is left up to `M`.
  induction n generalizing f t p with
  | zero => exact absurd hn (Nat.not_lt_zero _)
  | succ n ih =>
      unfold propagate
      by_cases heq : f t = p
      · rw [if_pos heq]
        refine ⟨f, rfl, ?_⟩
        intro u hu
        by_cases hut : u = t
        · subst hut
          rw [heq]
          exact ht
        · exact hrest u hu hut
      · rw [if_neg heq]
        have hlt : f t < p := by omega
        dsimp only
        cases hw : next t with
        | none =>
            refine ⟨_, rfl, ?_⟩
            intro u hu
            refine Settled.update (hself t) hrest ht hu ?_
            rw [hnext, hw]
            simp
        | some w =>
            have hblocks : blocks t w := (hnext t w).mpr hw
            have honly : ∀ u, u ≠ w → ¬blocks t u := by
              intro u hu hb
              have hsome := (hnext t u).mp hb
              rw [hw, Option.some.injEq] at hsome
              exact hu hsome.symm
            have hwt : w ≠ t := fun he => hself t (he ▸ hblocks)
            have hbest := hrest w (hS t w hblocks) hwt
            have hle : f w ≤ f t := hbest.le_of_blocks hblocks
            have hfw : Function.update f t p w = f w := Function.update_of_ne hwt _ _
            have hspec := hlook (Function.update f t p) w
            have hrest' : ∀ u, S u → u ≠ w →
                Best (Function.update f t p) base blocks u (Function.update f t p u) :=
              fun u hu hne => Settled.update (hself t) hrest ht hu (honly u hne)
            dsimp only
            rw [hfw, if_neg (by omega)]
            -- Only a task whose priority came from this one can fall with it.
            by_cases hdecided : f w = f t
            · rw [if_pos hdecided]
              by_cases hnew : look (Function.update f t p) w ≠ f w
              · rw [if_pos hnew]
                refine ih ?_ hrest' hspec ?_
                · -- All priorities go the same way, so there are fewer left.
                  have hM : p ≤ M := ht.le_base.trans (hbase t)
                  have hfun : (fun u => M - Function.update f t p u)
                      = Function.update (fun u => M - f u) t (M - p) := by
                    funext u
                    by_cases hu : u = t
                    · rw [hu, Function.update_self, Function.update_self]
                    · rw [Function.update_of_ne hu, Function.update_of_ne hu]
                  have hsum := sum_update_lt (fun u => M - f u) (t := t) (x := M - p) (by omega)
                  rw [← hfun] at hsum
                  dsimp only at hsum
                  omega
                · rw [hfw]
                  exact hbest.le_of_lower hspec hlt.le
              · rw [if_neg hnew]
                refine ⟨_, rfl, ?_⟩
                intro u hu
                by_cases huw : u = w
                · rw [huw, hfw]
                  rw [not_not] at hnew
                  rw [hnew] at hspec
                  exact hspec
                · exact hrest' u hu huw
            · rw [if_neg hdecided]
              refine ⟨_, rfl, ?_⟩
              intro u hu
              by_cases huw : u = w
              · rw [huw, hfw]
                exact hbest.keep (Ne.symm hdecided) (by omega)
              · exact hrest' u hu huw

end Propagate

end Inherit

end Wujian100
