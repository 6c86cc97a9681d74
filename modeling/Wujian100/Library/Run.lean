import Mathlib.Data.List.Basic

/-!
# Runs of a Labelled Machine

A machine that takes a label and either steps or refuses. The label says which
party moves and what it chooses, so a list of labels is a schedule, and `run`
is what the machine does under it. `Along` asks something of every step of a
schedule that is taken.

## Main definitions

* `run`: A schedule, from a state.
* `Along`: Every step of a schedule meets a condition.

## Theorems

* `run_append`: A schedule in two parts.
* `run_inv`: A condition that makes each step keep an invariant keeps it along
  the schedule.
* `along_iff`: Two conditions that are met by the same schedules.
* `run_near`: A party that gets nearer with every step of its own gets there.
-/

namespace Wujian100

namespace Run

variable {S A : Type} (step : S → A → Option S)

/-- The state a schedule leads to, if every step of it can be taken. -/
def run : S → List A → Option S
  | s, [] => some s
  | s, a :: rest =>
      match step s a with
      | none => none
      | some t => run t rest

/-- Every step of the schedule that is taken meets `P` in the state it starts
    from. -/
def Along (P : S → A → Prop) : S → List A → Prop
  | _, [] => True
  | s, a :: rest => P s a ∧ ∀ t, step s a = some t → Along P t rest

variable {step}

theorem run_cons {s t : S} {a : A} (h : step s a = some t) (rest : List A) :
    run step s (a :: rest) = run step t rest := by
  simp only [run, h]

/-- A schedule in two parts. -/
theorem run_append {s t : S} {as : List A} (h : run step s as = some t) (bs : List A) :
    run step s (as ++ bs) = run step t bs := by
  induction as generalizing s with
  | nil =>
      simp only [run, Option.some.injEq] at h
      rw [List.nil_append, h]
  | cons a rest ih =>
      rw [List.cons_append]
      simp only [run] at h ⊢
      cases hstep : step s a with
      | none =>
          rw [hstep] at h
          cases h
      | some u =>
          rw [hstep] at h
          exact ih h

/-- An invariant that every step meeting `P` keeps holds wherever a schedule
    that meets `P` leads. -/
theorem run_inv {Inv : S → Prop} {P : S → A → Prop}
    (hstep : ∀ s a t, Inv s → P s a → step s a = some t → Inv t) :
    ∀ (as : List A) (s t : S), Inv s → Along step P s as → run step s as = some t → Inv t := by
  intro as
  induction as with
  | nil =>
      intro s t hinv _ hrun
      simp only [run, Option.some.injEq] at hrun
      rw [← hrun]
      exact hinv
  | cons a rest ih =>
      intro s t hinv halong hrun
      simp only [run] at hrun
      cases hs : step s a with
      | none =>
          rw [hs] at hrun
          cases hrun
      | some u =>
          rw [hs] at hrun
          exact ih u t (hstep s a u hinv halong.1 hs) (halong.2 u hs) hrun

/-- What an invariant and `P` imply of a step holds of every step of a schedule that
    meets `P`. -/
theorem along_of_inv {Inv : S → Prop} {P Q : S → A → Prop}
    (hstep : ∀ s a t, Inv s → P s a → step s a = some t → Inv t)
    (hQ : ∀ s a, Inv s → P s a → Q s a) :
    ∀ (as : List A) (s : S), Inv s → Along step P s as → Along step Q s as := by
  intro as
  induction as with
  | nil => exact fun _ _ _ => trivial
  | cons a rest ih =>
      intro s hinv halong
      refine ⟨hQ s a hinv halong.1, fun t ht => ?_⟩
      exact ih t (hstep s a t hinv halong.1 ht) (halong.2 t ht)

/-- Two conditions that are the same wherever the invariant holds, which one of them keeps,
    are met by the same schedules. -/
theorem along_iff {Inv : S → Prop} {P Q : S → A → Prop}
    (hstep : ∀ s a t, Inv s → P s a → step s a = some t → Inv t)
    (hiff : ∀ s a, Inv s → (Q s a ↔ P s a)) :
    ∀ (as : List A) (s : S), Inv s → (Along step Q s as ↔ Along step P s as) := by
  intro as
  induction as with
  | nil => exact fun _ _ => Iff.rfl
  | cons a rest ih =>
      intro s hinv
      constructor
      · rintro ⟨hQ, hrest⟩
        have hP := (hiff s a hinv).mp hQ
        exact ⟨hP, fun t ht => (ih t (hstep s a t hinv hP ht)).mp (hrest t ht)⟩
      · rintro ⟨hP, hrest⟩
        exact ⟨(hiff s a hinv).mpr hP, fun t ht => (ih t (hstep s a t hinv hP ht)).mpr (hrest t ht)⟩

/-- Whether a schedule meets a condition can be found out by running it. -/
instance decidableAlong {P : S → A → Prop} [hP : ∀ s a, Decidable (P s a)] :
    ∀ (as : List A) (s : S), Decidable (Along step P s as)
  | [], _ => isTrue trivial
  | a :: rest, s =>
      match hs : step s a with
      | none =>
          decidable_of_iff (P s a) ⟨fun h => ⟨h, fun t ht => by rw [hs] at ht; cases ht⟩, And.left⟩
      | some t =>
          have : Decidable (Along step P t rest) := decidableAlong rest t
          decidable_of_iff (P s a ∧ Along step P t rest)
            ⟨fun h => ⟨h.1, fun u hu => by rw [hs] at hu; exact Option.some.inj hu ▸ h.2⟩,
              fun h => ⟨h.1, h.2 t hs⟩⟩

/-- One step of a schedule, and the rest. -/
theorem along_cons {P : S → A → Prop} {s t : S} {a : A} {rest : List A} (hP : P s a)
    (hs : step s a = some t) (h : Along step P t rest) : Along step P s (a :: rest) := by
  refine ⟨hP, fun u hu => ?_⟩
  rw [hs] at hu
  rw [← Option.some.inj hu]
  exact h

/-- A condition that a stronger one implies. -/
theorem Along.mono {P Q : S → A → Prop} (h : ∀ s a, P s a → Q s a) {as : List A} {s : S}
    (hP : Along step P s as) : Along step Q s as := by
  induction as generalizing s with
  | nil => trivial
  | cons a rest ih => exact ⟨h s a hP.1, fun t ht => ih (hP.2 t ht)⟩

/-- Two conditions at once. -/
theorem Along.and {P Q : S → A → Prop} {as : List A} {s : S} (hP : Along step P s as)
    (hQ : Along step Q s as) : Along step (fun s a => P s a ∧ Q s a) s as := by
  induction as generalizing s with
  | nil => trivial
  | cons a rest ih => exact ⟨⟨hP.1, hQ.1⟩, fun t ht => ih (hP.2 t ht) (hQ.2 t ht)⟩

/-- A condition that always holds. -/
theorem along_of_forall {P : S → A → Prop} (h : ∀ s a, P s a) (as : List A) :
    ∀ s, Along step P s as := by
  induction as with
  | nil => exact fun _ => trivial
  | cons a rest ih => exact fun s => ⟨h s a, fun t _ => ih t⟩

/-- A condition on the labels alone. -/
theorem along_of_mem {P : A → Prop} {as : List A} (h : ∀ a ∈ as, P a) (s : S) :
    Along step (fun _ a => P a) s as := by
  induction as generalizing s with
  | nil => trivial
  | cons a rest ih =>
      exact ⟨h a List.mem_cons_self, fun t _ => ih (fun b hb => h b (List.mem_cons_of_mem _ hb)) t⟩

/-- Where one party's steps bring a run nearer to a goal, and the others' do not take it
    away from it, the run has got there or has so many of these steps less to go. -/
theorem run_near {P : S → A → Prop} (Goal Near : S → Prop) (own : A → Bool) (rank : S → Nat)
    (hgoal : ∀ s a t, Goal s → P s a → step s a = some t → Goal t)
    (hnear : ∀ s a t, Near s → P s a → step s a = some t →
      Goal t ∨ Near t ∧ rank t + (own a).toNat ≤ rank s) :
    ∀ (as : List A) (s t : S), Near s → Along step P s as → run step s as = some t →
      Goal t ∨ Near t ∧ rank t + as.countP own ≤ rank s := by
  intro as
  induction as with
  | nil =>
      intro s t h _ hrun
      simp only [run, Option.some.injEq] at hrun
      rw [← hrun]
      exact .inr ⟨h, Nat.le_refl _⟩
  | cons a rest ih =>
      intro s t h halong hrun
      simp only [run] at hrun
      cases hs : step s a with
      | none =>
          rw [hs] at hrun
          cases hrun
      | some u =>
          rw [hs] at hrun
          rcases hnear s a u h halong.1 hs with hthere | ⟨hu, hless⟩
          · -- Once there, the run stays there.
            exact .inl (run_inv hgoal rest u t hthere (halong.2 u hs) hrun)
          · rcases ih u t hu (halong.2 u hs) hrun with hthere | ⟨ht, hrest⟩
            · exact .inl hthere
            · refine .inr ⟨ht, ?_⟩
              have hcount : (a :: rest).countP own = rest.countP own + (own a).toNat := by
                rw [List.countP_cons]
                cases own a <;> rfl
              omega

end Run

end Wujian100
