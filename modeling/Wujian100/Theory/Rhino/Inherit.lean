import Mathlib.Algebra.Group.Action.Defs
import Wujian100.Library.Inheritance
import Wujian100.Theory.Rhino.Aside

/-!
# Priorities Follow Those That Wait

What a task's priority should be is said by its base priority and the tasks that wait
for the mutexes it owns. `task_pri_change` carries a change from owner to owner as
`Inherit.propagate` does, on the priorities alone, and reads the least priority of
those that wait off the front of each list.

Between the steps of a call a mutex may be owned on paper only, and a task may be
about to go. What is said of owners is said of a relation `own` and of the tasks of
`S`.

## Main definitions

* `Kernel.boosts`: A task waits for a mutex that another owns.
* `Chained`: The mutexes of a task are on its chain.
* `Inherits`: And priorities are inherited.

## Theorems

* `lookPri_best`: The front of each list is enough to look at.
* `priChangeLoop_propagate`: The loop refines `Inherit.propagate`.
* `taskPriChange_inherits`: A change of priority settles.
-/

namespace Wujian100

namespace Rhino

open Inherit

/-- A task waits for a mutex that another owns. -/
def Kernel.boosts {T O : Type} (own : O → T → Prop) (k : Kernel T O) (u t : T) : Prop :=
  ∃ m, (k.task u).waits = some m ∧ own m t

/-- The priorities. -/
def Kernel.prios {T O : Type} (k : Kernel T O) (t : T) : Nat :=
  (k.task t).prio

/-- The base priorities. -/
def Kernel.bPrios {T O : Type} (k : Kernel T O) (t : T) : Nat :=
  (k.task t).bPrio

/-- A task that was created and not deleted. -/
def Kernel.live {T O : Type} (k : Kernel T O) (t : T) : Prop :=
  (k.task t).live

/-- A mutex that a task waits for is owned. -/
def Awaited {T O : Type} (k : Kernel T O) : Prop :=
  ∀ t o, (k.task t).waits = some o → (k.obj o).objType = .mutex → (k.obj o).mutexTask ≠ none

/-- The mutexes of a task are on its chain, and it waits for none of them. -/
structure Chained {T O : Type} (own : O → T → Prop) (S : T → Prop) (k : Kernel T O) : Prop where
  lost : ∀ t, ¬(k.task t).lost
  seed : ∀ t, (k.task t).state = .seed → (k.task t).mutexList = none
  owner : ∀ m t, own m t → S t
  unique : ∀ m t t', own m t → own m t' → t' = t
  self : ∀ t m, (k.task t).waits = some m → ¬own m t
  chain : ∀ t, S t → ∃ l, Linked k.nextMutex (k.task t).mutexList l ∧ ∀ m, m ∈ l ↔ own m t

/-- The mutexes of a task are on its chain, and priorities are inherited. -/
structure Inherits {T O : Type} (own : O → T → Prop) (S : T → Prop) (k : Kernel T O) : Prop
    extends Chained own S k where
  sorted : Sorted k
  settled : Settled S k.prios k.bPrios (k.boosts own)

section Transfer

variable {T O : Type} {k k' : Kernel T O} {own own' : O → T → Prop} {S S' : T → Prop} {t : T}

theorem Patient.awaited (h : Patient k) : Awaited k := by
  intro t o hw hm
  exact (starved_mutex hm).mp (h.starved t o hw)

theorem Chained.not_boosts (h : Chained own S k) (u : T) : ¬k.boosts own u u := by
  rintro ⟨m, hw, ho⟩
  exact h.self u m hw ho

/-- A task that waits for nothing, or for what is not owned, counts for none. -/
theorem not_boosts_of_waits {u : T} (h : ∀ m, (k.task u).waits = some m → ∀ w, ¬own m w) (t : T) :
    ¬k.boosts own u t := by
  rintro ⟨m, hw, ho⟩
  exact h m hw t ho

theorem Chained.congr (h : Chained own S k) (hown : ∀ m t, own' m t ↔ own m t)
    (hS : ∀ t, S' t ↔ S t) : Chained own' S' k := by
  have heq : own' = own := by
    funext m t
    exact propext (hown m t)
  have hSeq : S' = S := by
    funext t
    exact propext (hS t)
  rw [heq, hSeq]
  exact h

theorem Inherits.congr (h : Inherits own S k) (hown : ∀ m t, own' m t ↔ own m t)
    (hS : ∀ t, S' t ↔ S t) : Inherits own' S' k := by
  have heq : own' = own := by
    funext m t
    exact propext (hown m t)
  have hSeq : S' = S := by
    funext t
    exact propext (hS t)
  rw [heq, hSeq]
  exact h

/-- Chains that are as they were. -/
theorem Chained.transfer (h : Chained own S k)
    (hseed : ∀ t, (k'.task t).state = .seed → (k.task t).state = .seed)
    (hlist : ∀ t, (k'.task t).mutexList = (k.task t).mutexList)
    (hnext : ∀ m t, own m t → k'.nextMutex m = k.nextMutex m)
    (hwaits : ∀ u m t, own m t → (k'.task u).waits = some m → (k.task u).waits = some m)
    (hlost : ∀ t, (k'.task t).lost → (k.task t).lost) : Chained own S k' := by
  refine ⟨fun t ht => h.lost t (hlost t ht), fun t ht => (hlist t).trans (h.seed t (hseed t ht)),
    h.owner, h.unique, ?_, ?_⟩
  · intro t m hw ho
    exact h.self t m (hwaits t m t ho hw) ho
  · intro t ht
    rcases h.chain t ht with ⟨l, hl, hmem⟩
    refine ⟨l, ?_, hmem⟩
    rw [hlist t]
    exact hl.congr fun m hm => hnext m t ((hmem m).mp hm)

/-- Nothing changed that priorities depend on. -/
theorem Inherits.transfer (h : Inherits own S k)
    (hseed : ∀ t, (k'.task t).state = .seed → (k.task t).state = .seed)
    (hlist : ∀ t, (k'.task t).mutexList = (k.task t).mutexList)
    (hnext : ∀ m t, own m t → k'.nextMutex m = k.nextMutex m)
    (hwaits : ∀ u m t, own m t → ((k'.task u).waits = some m ↔ (k.task u).waits = some m))
    (hlost : ∀ t, (k'.task t).lost → (k.task t).lost)
    (hprio : ∀ t, (k'.task t).prio = (k.task t).prio)
    (hbPrio : ∀ t, (k'.task t).bPrio = (k.task t).bPrio) (hsorted : Sorted k') :
    Inherits own S k' := by
  refine ⟨h.toChained.transfer hseed hlist hnext (fun u m t ho => (hwaits u m t ho).mp) hlost,
    hsorted, ?_⟩
  intro t ht
  have hval : k'.prios t = k.prios t := hprio t
  rw [hval]
  refine (h.settled t ht).congr (hbPrio t) ?_ fun u _ => hprio u
  intro u
  constructor
  · rintro ⟨m, hw, ho⟩
    exact ⟨m, (hwaits u m t ho).mp hw, ho⟩
  · rintro ⟨m, hw, ho⟩
    exact ⟨m, (hwaits u m t ho).mpr hw, ho⟩

theorem Inherits.aside (h : Inherits k.owns k.live k) (ha : Aside k k') :
    Inherits k'.owns k'.live k' := by
  have hold : Inherits k.owns k.live k' :=
    h.transfer (fun t => (ha.seed t).mp) ha.mutexList ha.next (fun u m t => ha.blocked u m t) ha.lost
      ha.prio ha.bPrio (ha.sorted h.sorted)
  exact hold.congr ha.owns ha.live

/-- One task is exempt from now on. -/
theorem Inherits.without (h : Inherits own S k) (t : T) :
    Inherits (fun m u => own m u ∧ u ≠ t) (fun u => S u ∧ u ≠ t) k := by
  refine ⟨⟨h.lost, h.seed, ?_, ?_, ?_, ?_⟩, h.sorted, ?_⟩
  · intro m u ho
    exact ⟨h.owner m u ho.1, ho.2⟩
  · intro m u u' ho ho'
    exact h.unique m u u' ho.1 ho'.1
  · intro u m hw ho
    exact h.self u m hw ho.1
  · intro u hu
    rcases h.chain u hu.1 with ⟨l, hl, hmem⟩
    refine ⟨l, hl, ?_⟩
    intro m
    rw [hmem m]
    exact ⟨fun ho => ⟨ho, hu.2⟩, fun ho => ho.1⟩
  · intro u hu
    refine (h.settled u hu.1).congr rfl ?_ fun _ _ => rfl
    intro v
    constructor
    · rintro ⟨m, hw, ho⟩
      exact ⟨m, hw, ho.1⟩
    · rintro ⟨m, hw, ho⟩
      exact ⟨m, hw, ho, hu.2⟩

end Transfer

/-! ## The least priority of those that wait -/

section Look

variable {T O : Type} {k : Kernel T O}

/-- One mutex: the best so far, where it is not worse than what was read last. -/
theorem lookAt_eq {s : Nat × Nat} (hs : s.1 ≤ s.2) (m : O) :
    (k.lookAt s m).1 ≤ (k.lookAt s m).2 ∧
      (((k.obj m).blkList = [] ∧ (k.lookAt s m).1 = s.1) ∨
        ∃ u rest, (k.obj m).blkList = u :: rest ∧
          (k.lookAt s m).1 = min (k.task u).prio s.1) := by
  unfold Kernel.lookAt
  cases hl : (k.obj m).blkList with
  | nil =>
      dsimp only
      split_ifs
      · omega
      · exact ⟨hs, .inl ⟨rfl, rfl⟩⟩
  | cons u rest =>
      dsimp only
      refine ⟨?_, .inr ⟨u, rest, rfl, ?_⟩⟩
      · split_ifs
        · exact le_refl _
        · omega
      · split_ifs
        · omega
        · omega

/-- Over a list of mutexes: nothing that waits is better, and the best is reached. -/
theorem foldl_lookAt (hs : Sorted k) (l : List O) {s : Nat × Nat} (hle : s.1 ≤ s.2) :
    (l.foldl k.lookAt s).1 ≤ s.1 ∧
      (∀ m ∈ l, ∀ u ∈ (k.obj m).blkList, (l.foldl k.lookAt s).1 ≤ (k.task u).prio) ∧
      ((l.foldl k.lookAt s).1 = s.1 ∨
        ∃ m ∈ l, ∃ u ∈ (k.obj m).blkList, (k.task u).prio = (l.foldl k.lookAt s).1) := by
  induction l generalizing s with
  | nil => exact ⟨le_refl _, by simp, .inl rfl⟩
  | cons m l ih =>
      rw [List.foldl_cons]
      rcases lookAt_eq hle m with ⟨hle', hcase⟩
      rcases ih hle' with ⟨hless, hall, hreached⟩
      have hfirst : (k.lookAt s m).1 ≤ s.1 := lookAt_le k s m
      refine ⟨hless.trans hfirst, ?_, ?_⟩
      · intro m' hm' u hu
        rcases List.mem_cons.mp hm' with rfl | hm'
        · rcases hcase with ⟨hnil, -⟩ | ⟨v, rest, hcons, hmin⟩
          · rw [hnil] at hu
            cases hu
          · -- The front of the list is at least as urgent as `u`.
            have hfront : (k.task v).prio ≤ (k.task u).prio := by
              have hsorted := hs m'
              rw [hcons] at hsorted hu
              rcases List.mem_cons.mp hu with rfl | hu
              · exact le_refl _
              · exact List.rel_of_pairwise_cons hsorted hu
            omega
        · exact hall m' hm' u hu
      · rcases hreached with hreached | ⟨m', hm', u, hu, hprio⟩
        · rcases hcase with ⟨-, hsame⟩ | ⟨v, rest, hcons, hmin⟩
          · exact .inl (hreached.trans hsame)
          · by_cases hv : (k.task v).prio ≤ s.1
            · refine .inr ⟨m, List.mem_cons_self, v, ?_, ?_⟩
              · rw [hcons]
                exact List.mem_cons_self
              · omega
            · exact .inl (by omega)
        · exact .inr ⟨m', List.mem_cons_of_mem _ hm', u, hu, hprio⟩

/-- The front of each list is enough to look at. -/
theorem lookPri_best (h : Lists k) (hs : Sorted k) {own : O → T → Prop} {base : T → Nat} {l : List O}
    {t : T} (hl : ∀ m, m ∈ l ↔ own m t) :
    Best k.prios base (k.boosts own) t (k.lookPri l (base t)) := by
  rcases foldl_lookAt hs l (s := (base t, base t)) (le_refl _) with ⟨hle, hall, hreached⟩
  refine .of ?_ hle ?_
  · rcases hreached with hb | ⟨m, hm, u, hu, hprio⟩
    · exact .inl hb
    · exact .inr ⟨u, ⟨m, (h.wait u m).mp hu, (hl m).mp hm⟩, hprio⟩
  · rintro u ⟨m, hw, ho⟩
    exact hall m ((hl m).mpr ho) u ((h.wait u m).mpr hw)

variable [Fintype O]

/-- The walk along a chain finds the mutexes a task owns. -/
theorem Chained.mutexes {own : O → T → Prop} {S : T → Prop} {t : T} (h : Chained own S k)
    (ht : S t) :
    ∃ l, k.mutexes t = some l ∧ Linked k.nextMutex (k.task t).mutexList l ∧ ∀ m, m ∈ l ↔ own m t := by
  rcases h.chain t ht with ⟨l, hl, hmem⟩
  exact ⟨l, hl.walk_eq hl.length_le, hl, hmem⟩

theorem mutexPriLook_best [DecidableEq T] [DecidableEq O] (h : Lists k) (hs : Sorted k)
    {own : O → T → Prop} {S : T → Prop} {t : T} (hc : Chained own S k) (ht : S t) :
    (k.mutexPriLook t none).2 = k ∧
      Best k.prios k.bPrios (k.boosts own) t (k.mutexPriLook t none).1 := by
  rcases hc.mutexes ht with ⟨l, hl, -, hmem⟩
  unfold Kernel.mutexPriLook
  rw [hl]
  exact ⟨rfl, lookPri_best h hs hmem⟩

end Look

/-! ## A change of priority -/

section Changed

variable {T O : Type} {k k' : Kernel T O} {own : O → T → Prop} {S : T → Prop} {t : T}

/-- Chains do not depend on priorities. -/
theorem Chained.repri (h : Chained own S k) (hr : Repri k k') : Chained own S k' := by
  rcases hr.1 with ⟨r, f, g, b, rfl⟩
  exact ⟨h.lost, h.seed, h.owner, h.unique, h.self, h.chain⟩

theorem Awaited.repri (h : Awaited k) (hr : Repri k k') : Awaited k' := by
  rcases hr.1 with ⟨r, f, g, b, rfl⟩
  exact h

/-- What a change of priority leaves alone. -/
theorem Repri.same (h : Repri k k') :
    k'.owns = k.owns ∧ k'.live = k.live ∧ k'.bPrios = k.bPrios ∧
      ∀ own, k'.boosts own = k.boosts own := by
  rcases h.1 with ⟨r, f, g, b, rfl⟩
  exact ⟨rfl, rfl, rfl, fun _ => rfl⟩

/-- The owner of the mutex a task waits for. -/
def Kernel.blocker (k : Kernel T O) (t : T) : Option T :=
  match (k.task t).waits with
  | none => none
  | some o => if (k.obj o).objType = .mutex then (k.obj o).mutexTask else none

theorem boosts_iff_blocker {u : T} : k.boosts k.owns u t ↔ k.blocker u = some t := by
  unfold Kernel.blocker Kernel.boosts Kernel.owns
  cases (k.task u).waits with
  | none => simp
  | some o =>
      by_cases hm : (k.obj o).objType = .mutex
      · simp [hm]
      · simp [hm]

/-- The priority a task should have, with those of the others as they are. -/
noncomputable def Kernel.look (k : Kernel T O) (f : T → Nat) (w : T) : Nat :=
  best f k.bPrios (k.boosts k.owns) w

/-- The outcome of a change of priority: the priorities are `f`. -/
structure Changed (k : Kernel T O) (f : T → Nat) (r : Kstat × Kernel T O) : Prop where
  status : r.1 = .success
  stuck : r.2.stuck = k.stuck
  repri : Repri k r.2
  sorted : Sorted r.2
  prios : r.2.prios = f

theorem Changed.after {f : T → Nat} {r : Kstat × Kernel T O} (h : Changed k' f r) (hr : Repri k k')
    (hs : k'.stuck = k.stuck) : Changed k f r :=
  ⟨h.status, h.stuck.trans hs, hr.trans h.repri, h.sorted, h.prios⟩

variable [DecidableEq T]

/-- The list of those that wait, while a task that is not on it changes its
    priority. -/
theorem pairwise_update_prio {l : List T} {f : T → Nat} {p : Nat}
    (h : l.Pairwise fun a b => f a ≤ f b) (ht : t ∉ l) :
    l.Pairwise fun a b => Function.update f t p a ≤ Function.update f t p b := by
  refine h.imp_of_mem ?_
  intro a b ha hb hab
  have hne : ∀ u ∈ l, u ≠ t := fun u hu he => ht (he ▸ hu)
  rw [Function.update_of_ne (hne a ha), Function.update_of_ne (hne b hb)]
  exact hab

/-- A task that waits for nothing changes its priority. -/
theorem Sorted.setPrio (h : Sorted k) (hl : Lists k) (ht : (k.task t).waits = none)
    (r : Runqueue T) (p : Nat) (b : Bool) :
    Sorted (k.repri r (Function.update k.prios t p) (fun o => (k.obj o).blkList) b) := by
  intro o
  refine pairwise_update_prio (f := k.prios) (h o) ?_
  intro hmem
  rw [(hl.wait t o).mp hmem] at ht
  cases ht

variable [DecidableEq O]

/-- A task that waits changes its priority and its place. -/
theorem Sorted.reordered (h : Sorted k) (hl : Lists k) (p : Nat) (o : O) (b : Bool) :
    Sorted (k.repri k.rq (Function.update k.prios t p)
      (reordered (k.modTask t fun x => { x with prio := p }) t o) b) := by
  have hprios : (fun u => ((k.modTask t fun x => { x with prio := p }).task u).prio)
      = Function.update k.prios t p := by
    funext u
    unfold Kernel.modTask Kernel.prios
    dsimp only
    by_cases hu : u = t
    · rw [hu, Function.update_self, Function.update_self]
    · rw [Function.update_of_ne hu, Function.update_of_ne hu]
  intro o'
  have herase : ((k.obj o').blkList.erase t).Pairwise fun a b =>
      Function.update k.prios t p a ≤ Function.update k.prios t p b :=
    pairwise_update_prio (f := k.prios) ((h o').sublist List.erase_sublist)
      (hl.waitNodup o').not_mem_erase
  have hlist : (Rhino.reordered (k.modTask t fun x => { x with prio := p }) t o o').Pairwise
      fun a b => Function.update k.prios t p a ≤ Function.update k.prios t p b := by
    unfold Rhino.reordered
    rw [hprios]
    split_ifs
    · exact pairwise_pendListAdd herase
    · exact herase
  exact hlist

variable [Fintype O]

/-- The owner of what a task waits for follows, or is not concerned. -/
theorem follow_propagate {n p old : Nat} {f : T → Nat}
    (ih : ∀ (k : Kernel T O) (t : T) (p : Nat), Lists k → Chained k.owns k.live k → Sorted k →
      Awaited k → k.live t → t ≠ k.idle → p < priMax →
      propagate k.blocker k.look n k.prios t p = some f → Changed k f (Kernel.priChangeLoop n k t p))
    (h : Lists k) (hc : Chained k.owns k.live k) (hs : Sorted k) (ha : Awaited k) (hp : p < priMax)
    {o : O} (hw : (k.task t).waits = some o)
    (hf : (match k.blocker t with
      | none => some k.prios
      | some w =>
          if k.prios w > p then propagate k.blocker k.look n k.prios w p
          else if k.prios w = old then
            if k.look k.prios w ≠ k.prios w then
              propagate k.blocker k.look n k.prios w (k.look k.prios w)
            else some k.prios
          else some k.prios) = some f) : Changed k f (k.follow n o old p) := by
  unfold Kernel.blocker at hf
  rw [hw] at hf
  dsimp only at hf
  unfold Kernel.follow
  by_cases hm : (k.obj o).objType = .mutex
  · rw [if_pos hm] at hf ⊢
    cases howner : (k.obj o).mutexTask with
    | none => exact absurd howner (ha t o hw hm)
    | some w =>
        rw [howner] at hf
        have hlive : k.live w := hc.owner o w ⟨hm, howner⟩
        have hidle : w ≠ k.idle := by
          intro he
          rw [he] at howner
          exact h.owner o howner
        -- `mutex_pri_look` computes the best, and changes nothing.
        rcases mutexPriLook_best h hs hc hlive with ⟨hsame, hbest⟩
        have hlook : (k.mutexPriLook w none).1 = k.look k.prios w := hbest.eq_best
        have hlt := (mutexPriLook_lists h w none).2
        dsimp only at hf ⊢
        rw [hsame, hlook]
        rw [hlook] at hlt
        -- The three tests of the loop are the three of `propagate`.
        by_cases hgt : (k.task w).prio > p
        · have hgt' : k.prios w > p := hgt
          rw [if_pos hgt'] at hf
          rw [if_pos hgt]
          exact ih k w p h hc hs ha hlive hidle hp hf
        · have hgt' : ¬k.prios w > p := hgt
          rw [if_neg hgt'] at hf
          rw [if_neg hgt]
          by_cases hold : (k.task w).prio = old
          · have hold' : k.prios w = old := hold
            rw [if_pos hold'] at hf
            rw [if_pos hold]
            by_cases hne : k.look k.prios w ≠ (k.task w).prio
            · have hne' : k.look k.prios w ≠ k.prios w := hne
              rw [if_pos hne'] at hf
              rw [if_pos hne]
              exact ih k w _ h hc hs ha hlive hidle hlt hf
            · have hne' : ¬k.look k.prios w ≠ k.prios w := hne
              rw [if_neg hne', Option.some.injEq] at hf
              rw [if_neg hne]
              exact ⟨rfl, rfl, .refl h, hs, hf⟩
          · have hold' : ¬k.prios w = old := hold
            rw [if_neg hold', Option.some.injEq] at hf
            rw [if_neg hold]
            exact ⟨rfl, rfl, .refl h, hs, hf⟩
  · rw [if_neg hm] at hf ⊢
    exact ⟨rfl, rfl, .refl h, hs, Option.some.inj hf⟩

/-- The loop of `task_pri_change` changes priorities as `Inherit.propagate` does. -/
theorem priChangeLoop_propagate {f : T → Nat} (n : Nat) (k : Kernel T O) (t : T) (p : Nat)
    (h : Lists k) (hc : Chained k.owns k.live k) (hs : Sorted k) (ha : Awaited k) (ht : k.live t)
    (hidle : t ≠ k.idle) (hp : p < priMax)
    (hf : propagate k.blocker k.look n k.prios t p = some f) :
    Changed k f (Kernel.priChangeLoop n k t p) := by
  induction n generalizing k t p with
  | zero => cases hf
  | succ n ih =>
      unfold propagate at hf
      have hval : k.prios t = (k.task t).prio := rfl
      rw [hval] at hf
      by_cases heq : (k.task t).prio = p
      · rw [if_pos heq, Option.some.injEq] at hf
        unfold Kernel.priChangeLoop
        rw [if_pos heq]
        exact ⟨rfl, rfl, .refl h, hs, hf⟩
      · rw [if_neg heq] at hf
        dsimp only at hf
        have hrepri := priChangeLoop_repri (n + 1) k t p h hidle hp
        -- A task that waits for nothing changes its own priority, and that is all.
        have halone : (k.task t).waits = none → f = Function.update k.prios t p := by
          intro hw
          have hnext : k.blocker t = none := by
            unfold Kernel.blocker
            rw [hw]
          rw [hnext] at hf
          exact (Option.some.inj hf).symm
        cases hstate : (k.task t).state with
        | rdy =>
            have hw : (k.task t).waits = none :=
              Ktask.waits_eq_none (by simp [hstate]) (by simp [hstate])
            rw [priChangeLoop_ready heq hstate] at hrepri ⊢
            rcases movePrio_eq h hidle hp hstate with ⟨r, hr, -⟩
            rw [hr] at hrepri ⊢
            exact ⟨rfl, rfl, hrepri, hs.setPrio h hw r p k.stuck, (halone hw).symm⟩
        | sleep | suspended | sleepSuspended =>
            have hw : (k.task t).waits = none :=
              Ktask.waits_eq_none (by simp [hstate]) (by simp [hstate])
            rw [priChangeLoop_idles heq (by simp [TaskState.idles, hstate])] at hrepri ⊢
            rw [(setPrio_eq h hidle hp (by simp [hstate])).1] at hrepri ⊢
            exact ⟨rfl, rfl, hrepri, hs.setPrio h hw k.rq p k.stuck, (halone hw).symm⟩
        | pend | pendSuspended =>
            have hpend : (k.task t).state = .pend ∨ (k.task t).state = .pendSuspended := by
              simp [hstate]
            cases hblk : (k.task t).blkObj with
            | none => exact absurd ⟨hpend, hblk⟩ (hc.lost t)
            | some o =>
                have hw : (k.task t).waits = some o := (if_pos hpend).trans hblk
                rw [priChangeLoop_waits heq hw]
                rcases waitPrio_eq h hidle hp hw with ⟨hform, hlists⟩
                have hturn : Repri k ((k.modTask t fun x => { x with prio := p }).pendListReorder t) :=
                  ⟨⟨_, _, _, _, hform⟩, hlists⟩
                have hsorted := hs.reordered h (t := t) p o k.stuck
                rw [hform] at hlists hturn ⊢
                exact (follow_propagate ih hlists (hc.repri hturn) hsorted (ha.repri hturn) hp
                  (t := t) hw hf).after hturn rfl
        | seed => exact absurd hstate ht.1
        | deleted => exact absurd hstate ht.2

end Changed

section Resettle

variable {T O : Type} [DecidableEq T] [DecidableEq O] [Fintype T] [Fintype O] {k : Kernel T O}
  {t : T}

/-- Priorities changed, and they are inherited. -/
structure Resettled (k k' : Kernel T O) : Prop where
  repri : Repri k k'
  stuck : k'.stuck = k.stuck
  inherits : Inherits k'.owns k'.live k'

omit [DecidableEq T] [DecidableEq O] [Fintype O] in
/-- No priority is beyond the last. -/
theorem Lists.sum_prios_lt (h : Lists k) : ∑ u, k.prios u < Fintype.card T * priMax + 1 := by
  have hsum : ∑ u, k.prios u ≤ ∑ _u : T, priMax := Finset.sum_le_sum fun u _ => (h.prio u).le
  rw [Finset.sum_const, Finset.card_univ, smul_eq_mul] at hsum
  omega

omit [DecidableEq T] [DecidableEq O] [Fintype O] in
theorem sum_prios_left (k : Kernel T O) :
    ∑ u, (priMax - k.prios u) < Fintype.card T * priMax + 1 := by
  have hsum : ∑ u, (priMax - k.prios u) ≤ ∑ _u : T, priMax :=
    Finset.sum_le_sum fun u _ => Nat.sub_le _ _
  rw [Finset.sum_const, Finset.card_univ, smul_eq_mul] at hsum
  omega

/-- The priority of `t` becomes what it should be, and so do all others. -/
theorem taskPriChange_inherits {p : Nat} (h : Lists k) (hc : Chained k.owns k.live k)
    (hs : Sorted k) (ha : Awaited k) (ht : k.live t) (hidle : t ≠ k.idle)
    (hrest : ∀ u, k.live u → u ≠ t → Best k.prios k.bPrios (k.boosts k.owns) u (k.prios u))
    (hbest : Best k.prios k.bPrios (k.boosts k.owns) t p) :
    (k.taskPriChange t p).1 = .success ∧ Resettled k (k.taskPriChange t p).2 := by
  have hS : ∀ u w, k.boosts k.owns u w → k.live w := by
    rintro u w ⟨m, -, ho⟩
    exact hc.owner m w ho
  have hp : p < priMax := hbest.le_base.trans_lt (h.bPrio t)
  have hprop : ∃ f, propagate k.blocker k.look (Fintype.card T * priMax + 1) k.prios t p = some f ∧
      Settled k.live f k.bPrios (k.boosts k.owns) := by
    rcases le_total p (k.prios t) with hle | hle
    · rcases propagate_raise hS hc.not_boosts h.sum_prios_lt
        (fun u _ w => boosts_iff_blocker) hrest hbest hle with ⟨f, hf, hset, -⟩
      exact ⟨f, hf, hset⟩
    · exact propagate_lower (M := priMax) hS hc.not_boosts (fun u => (h.bPrio u).le)
        (sum_prios_left k) (fun u w => boosts_iff_blocker)
        (fun f w => best_spec f k.bPrios (k.boosts k.owns) w) hrest hbest hle
  rcases hprop with ⟨f, hf, hset⟩
  have hchanged := priChangeLoop_propagate _ k t p h hc hs ha ht hidle hp hf
  refine ⟨hchanged.status, hchanged.repri, hchanged.stuck, ?_⟩
  rcases hchanged.repri.same with ⟨howns, hlive, hbPrios, hboosts⟩
  have hc' := hc.repri hchanged.repri
  unfold Kernel.taskPriChange
  rw [howns, hlive]
  refine ⟨hc', hchanged.sorted, ?_⟩
  rw [hchanged.prios, hbPrios, hboosts]
  exact hset

/-- The priority of an owner is looked up again. -/
theorem mutexRelease_inherits (h : Lists k) (hc : Chained k.owns k.live k) (hs : Sorted k)
    (ha : Awaited k) (ht : k.live t) (hidle : t ≠ k.idle)
    (hrest : ∀ u, k.live u → u ≠ t → Best k.prios k.bPrios (k.boosts k.owns) u (k.prios u)) :
    Resettled k (k.mutexRelease t none) := by
  rcases mutexPriLook_best h hs hc ht with ⟨hsame, hbest⟩
  unfold Kernel.mutexRelease
  dsimp only
  rw [hsame]
  by_cases hne : (k.mutexPriLook t none).1 ≠ (k.task t).prio
  · rw [if_pos hne]
    exact (taskPriChange_inherits h hc hs ha ht hidle hrest hbest).2
  · rw [if_neg hne]
    rw [not_not] at hne
    refine ⟨.refl h, rfl, hc, hs, ?_⟩
    intro u hu
    by_cases hut : u = t
    · rw [hne] at hbest
      rw [hut]
      exact hbest
    · exact hrest u hu hut

/-- A task that waited for `o` waits no longer, and the owner follows if the task had
    decided its priority. -/
theorem mutexTaskPriReset_inherits {o : O} (h : Lists k) (hc : Chained k.owns k.live k)
    (hs : Sorted k) (ha : Awaited k) (hblk : (k.task t).blkObj = some o)
    (howned : (k.obj o).objType = .mutex → (k.obj o).mutexTask ≠ none)
    (hrest : ∀ u, k.live u → ¬k.owns o u → Best k.prios k.bPrios (k.boosts k.owns) u (k.prios u))
    (howner : ∀ w, k.owns o w → Best k.prios k.bPrios
      (fun u v => k.boosts k.owns u v ∨ u = t ∧ v = w) w (k.prios w)) :
    Resettled k (k.mutexTaskPriReset t) := by
  unfold Kernel.mutexTaskPriReset
  rw [hblk]
  dsimp only
  by_cases hm : (k.obj o).objType = .mutex
  · rw [if_pos hm]
    cases hw : (k.obj o).mutexTask with
    | none => exact absurd hw (howned hm)
    | some w =>
        have hown : k.owns o w := ⟨hm, hw⟩
        have hother : ∀ u, k.live u → u ≠ w →
            Best k.prios k.bPrios (k.boosts k.owns) u (k.prios u) := by
          intro u hu hne
          refine hrest u hu ?_
          intro ho
          exact hne (hc.unique o w u hown ho)
        dsimp only
        by_cases heq : (k.task w).prio = (k.task t).prio
        · rw [if_pos heq]
          refine mutexRelease_inherits h hc hs ha (hc.owner o w hown) ?_ hother
          intro he
          rw [he] at hw
          exact h.owner o hw
        · rw [if_neg heq]
          refine ⟨.refl h, rfl, hc, hs, ?_⟩
          intro u hu
          by_cases huw : u = w
          · subst huw
            refine (howner u hown).narrow (fun v hv => .inl hv) ?_
            rintro v (hv | ⟨hv, -⟩)
            · exact .inl hv
            · refine .inr ?_
              rw [hv]
              exact fun he => heq he.symm
          · exact hother u hu huw
  · rw [if_neg hm]
    refine ⟨.refl h, rfl, hc, hs, ?_⟩
    intro u hu
    exact hrest u hu fun ho => hm ho.1

end Resettle

end Rhino

end Wujian100
