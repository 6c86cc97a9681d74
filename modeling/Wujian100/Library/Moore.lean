import Mathlib.Data.List.Basic
import Mathlib.Logic.Function.Iterate

/-!
# What a Clocked Machine Shows

A machine that is clocked and shows something in each clock that depends on its
state only. `Emits` says what it shows over a number of clocks, and where it is
afterwards; stretches of it are put together end to end.

A machine with inputs has a `trace` for each list of them. In a stretch in which
no input makes a difference it is a machine without.

## Main definitions

* `Emits`: What a machine shows, clock by clock.
* `trace`: What a machine shows on a list of inputs.
* `Traces`: The same, with the state it is in afterwards.

## Theorems

* `Emits.append`, `emits_split`: One stretch after another.
* `Emits.iterate`, `Emits.shows`: The states along a stretch.
* `Emits.map`: Less is shown.
* `emits_count`: A stretch that counts.
* `emits_silent`: A stretch that counts and shows the same all the time.
* `trace_append`, `Traces.append`: One list of inputs after another.
* `Emits.replicate_unique`: A stretch has one end only.
* `trace_of_emits`, `traces_of_emits`, `emits_of_traces`: A stretch in which the
  inputs make no difference.
* `trace_count`: A stretch that counts.
-/

namespace Wujian100

variable {S O : Type} (step : S → S) (out : S → O)

/-- From `s` the machine shows `os`, one a clock, and is then in `t`. -/
def Emits : S → List O → S → Prop
  | s, [], t => s = t
  | s, o :: os, t => out s = o ∧ Emits (step s) os t

variable {step out}

variable (step out) in
theorem Emits.one (s : S) : Emits step out s [out s] (step s) :=
  ⟨rfl, rfl⟩

/-- One stretch after another. -/
theorem Emits.append {s t u : S} {os os' : List O} (h : Emits step out s os t)
    (h' : Emits step out t os' u) : Emits step out s (os ++ os') u := by
  induction os generalizing s with
  | nil =>
      have heq : s = t := h
      rw [List.nil_append, heq]
      exact h'
  | cons o rest ih => exact ⟨h.1, ih h.2⟩

/-- Two stretches that show the same all the time. -/
theorem Emits.replicate_add {s t u : S} {o : O} {n k : Nat}
    (h : Emits step out s (List.replicate n o) t) (h' : Emits step out t (List.replicate k o) u) :
    Emits step out s (List.replicate (n + k) o) u := by
  rw [List.replicate_add]
  exact h.append h'

/-- One more clock of such a stretch. -/
theorem Emits.replicate_succ {s t : S} {o : O} {n : Nat}
    (h : Emits step out s (List.replicate n o) t) (ho : out t = o) :
    Emits step out s (List.replicate (n + 1) o) (step t) :=
  h.replicate_add ⟨ho, rfl⟩

/-- Such a stretch has one end only, where something else is shown. -/
theorem Emits.replicate_unique {s t t' : S} {o : O} {n k : Nat}
    (h : Emits step out s (List.replicate n o) t) (ht : out t ≠ o)
    (h' : Emits step out s (List.replicate k o) t') (ht' : out t' ≠ o) : t = t' := by
  induction n generalizing s k with
  | zero =>
      have hs : s = t := h
      cases k with
      | zero => exact hs.symm.trans h'
      | succ k => exact absurd h'.1 (hs ▸ ht)
  | succ n ih =>
      cases k with
      | zero => exact absurd h.1 ((show s = t' from h') ▸ ht')
      | succ k => exact ih h.2 h'.2

/-- Where a machine is after a stretch is told by its length. -/
theorem Emits.iterate {s t : S} {os : List O} (h : Emits step out s os t) :
    t = step^[os.length] s := by
  induction os generalizing s with
  | nil => exact (show s = t from h).symm
  | cons o rest ih => exact ih h.2

/-- What is shown at each clock of a stretch. -/
theorem Emits.shows {s t : S} {os : List O} (h : Emits step out s os t) :
    ∀ k, k < os.length → os[k]? = some (out (step^[k] s)) := by
  induction os generalizing s with
  | nil => exact fun k hk => absurd hk (Nat.not_lt_zero k)
  | cons o rest ih =>
      intro k hk
      cases k with
      | zero => exact congrArg some h.1.symm
      | succ k => exact ih h.2 k (Nat.lt_of_succ_lt_succ hk)

/-- Less is shown. -/
theorem Emits.map {O' : Type} (g : O → O') {s t : S} {os : List O} (h : Emits step out s os t) :
    Emits step (fun s => g (out s)) s (os.map g) t := by
  induction os generalizing s with
  | nil => exact h
  | cons o rest ih => exact ⟨congrArg g h.1, ih h.2⟩

/-- A stretch cut in two. -/
theorem emits_split {s u : S} {os os' : List O} (h : Emits step out s (os ++ os') u) :
    ∃ t, Emits step out s os t ∧ Emits step out t os' u := by
  induction os generalizing s with
  | nil => exact ⟨s, rfl, h⟩
  | cons o rest ih =>
      rcases ih h.2 with ⟨t, ht, hu⟩
      exact ⟨t, ⟨h.1, ht⟩, hu⟩

variable (step out) in
/-- A counted stretch: each clock goes from one count to the next. -/
theorem emits_count {P : Nat → S → Prop} {o : Nat → O} {n : Nat}
    (hout : ∀ k s, k < n → P k s → out s = o k)
    (hstep : ∀ k s, k < n → P k s → P (k + 1) (step s)) :
    ∀ k s, k ≤ n → P k s →
      ∃ t, Emits step out s ((List.range (n - k)).map fun l => o (k + l)) t ∧ P n t := by
  intro k
  induction h : n - k generalizing k with
  | zero =>
      intro s hk hP
      have heq : k = n := by omega
      exact ⟨s, rfl, heq ▸ hP⟩
  | succ d ih =>
      intro s hk hP
      have hlt : k < n := by omega
      rcases ih (k + 1) (by omega) (step s) hlt (hstep k s hlt hP) with ⟨t, ht, hPt⟩
      refine ⟨t, ?_, hPt⟩
      rw [List.range_succ_eq_map, List.map_cons, List.map_map]
      refine ⟨hout k s hlt hP, ?_⟩
      have hcomp : (fun l => o (k + l)) ∘ Nat.succ = fun l => o (k + 1 + l) := by
        funext l
        simp only [Function.comp_apply, Nat.succ_eq_add_one]
        rw [Nat.add_comm l 1, Nat.add_assoc]
      rw [hcomp]
      exact ht

variable (step out) in
/-- A counted stretch that shows the same all the time. -/
theorem emits_silent {P : Nat → S → Prop} {o : O} {n : Nat}
    (hout : ∀ k s, k < n → P k s → out s = o)
    (hstep : ∀ k s, k < n → P k s → P (k + 1) (step s)) {k : Nat} {s : S} (hk : k ≤ n)
    (hP : P k s) : ∃ t, Emits step out s (List.replicate (n - k) o) t ∧ P n t := by
  have h := emits_count step out (o := fun _ => o) hout hstep k s hk hP
  rw [List.map_const', List.length_range] at h
  exact h

/-! ## With inputs -/

section Inputs

variable {I : Type} (next : S → I → S) (out : S → O)

/-- What is shown in each clock. -/
def trace : S → List I → List O
  | _, [] => []
  | s, i :: is => out s :: trace (next s i) is

variable {next out}

theorem trace_append (s : S) (is js : List I) :
    trace next out s (is ++ js)
      = trace next out s is ++ trace next out (is.foldl next s) js := by
  induction is generalizing s with
  | nil => rfl
  | cons i is ih => simp only [List.cons_append, trace, List.foldl_cons, ih]

theorem length_trace (s : S) (is : List I) : (trace next out s is).length = is.length := by
  induction is generalizing s with
  | nil => rfl
  | cons i is ih => rw [trace, List.length_cons, List.length_cons, ih]

variable (next out) in
/-- On the inputs `is` the machine shows `os`, one a clock, and is then in `t`. -/
def Traces (s : S) (is : List I) (os : List O) (t : S) : Prop :=
  trace next out s is = os ∧ is.foldl next s = t

variable (next out) in
theorem Traces.one (s : S) (i : I) : Traces next out s [i] [out s] (next s i) :=
  ⟨rfl, rfl⟩

/-- One list of inputs after another. -/
theorem Traces.append {s t u : S} {is js : List I} {os os' : List O}
    (h : Traces next out s is os t) (h' : Traces next out t js os' u) :
    Traces next out s (is ++ js) (os ++ os') u := by
  refine ⟨?_, ?_⟩
  · rw [trace_append, h.1, h.2, h'.1]
  · rw [List.foldl_append, h.2, h'.2]

/-- Inputs that make no difference. -/
theorem trace_of_emits {t : S} {os : List O} {is : List I}
    (hstep : ∀ s, ∀ i ∈ is, next s i = step s) (hlen : is.length = os.length) {s : S}
    (h : Emits step out s os t) : Traces next out s is os t := by
  induction os generalizing s is with
  | nil =>
      rw [List.eq_nil_of_length_eq_zero hlen]
      exact ⟨rfl, h⟩
  | cons o os ih =>
      cases is with
      | nil => exact absurd hlen (by simp)
      | cons i is =>
          have htail : ∀ s, ∀ i ∈ is, next s i = step s :=
            fun s i hi => hstep s i (List.mem_cons_of_mem _ hi)
          rcases ih htail (Nat.succ.inj hlen) h.2 with ⟨htrace, hfold⟩
          have hhead := hstep s i List.mem_cons_self
          refine ⟨?_, ?_⟩
          · rw [trace, hhead, htrace, h.1]
          · rw [List.foldl_cons, hhead, hfold]

/-- Inputs that make no difference as long as the same is shown. -/
theorem traces_of_emits {o : O} (hstep : ∀ s i, out s = o → next s i = step s) {t : S}
    {is : List I} {s : S} (h : Emits step out s (List.replicate is.length o) t) :
    Traces next out s is (List.replicate is.length o) t := by
  induction is generalizing s with
  | nil => exact ⟨rfl, h⟩
  | cons i is ih =>
      have hhead : next s i = step s := hstep s i h.1
      have hrest := h.2
      rw [← hhead] at hrest
      rcases ih hrest with ⟨htrace, hfold⟩
      refine ⟨?_, hfold⟩
      rw [trace, htrace, List.length_cons, List.replicate_succ]
      exact congrArg (· :: _) h.1

/-- Such a stretch, without its inputs. -/
theorem emits_of_traces {o : O} (hstep : ∀ s i, out s = o → next s i = step s) {t : S}
    {is : List I} {s : S} (h : Traces next out s is (List.replicate is.length o) t) :
    Emits step out s (List.replicate is.length o) t := by
  induction is generalizing s with
  | nil => exact h.2
  | cons i is ih =>
      have htrace := h.1
      rw [trace, List.length_cons, List.replicate_succ] at htrace
      injection htrace with hhead htail
      refine ⟨hhead, ?_⟩
      rw [← hstep s i hhead]
      exact ih ⟨htail, h.2⟩

variable (next out) in
/-- A counted stretch: each clock with such an input goes from one count to the
    next. -/
theorem trace_count {P : Nat → S → Prop} {Q : I → Prop} {o : Nat → O} {n : Nat}
    (hout : ∀ k s, k < n → P k s → out s = o k)
    (hstep : ∀ k s i, k < n → P k s → Q i → P (k + 1) (next s i)) :
    ∀ (is : List I) (k : Nat) (s : S), k + is.length ≤ n → P k s → (∀ i ∈ is, Q i) →
      ∃ t, Traces next out s is ((List.range is.length).map fun l => o (k + l)) t ∧
        P (k + is.length) t := by
  intro is
  induction is with
  | nil =>
      intro k s _ hP _
      exact ⟨s, ⟨rfl, rfl⟩, hP⟩
  | cons i is ih =>
      intro k s hlen hP hQ
      rw [List.length_cons] at hlen
      have hnext := hstep k s i (by omega) hP (hQ i List.mem_cons_self)
      rcases ih (k + 1) _ (by omega) hnext (fun j hj => hQ j (List.mem_cons_of_mem _ hj)) with
        ⟨t, ht, hP'⟩
      refine ⟨t, ?_, ?_⟩
      · have hall := (Traces.one next out s i).append ht
        have hlist : (List.range (is.length + 1)).map (fun l => o (k + l))
            = [o k] ++ (List.range is.length).map fun l => o (k + 1 + l) := by
          rw [List.range_succ_eq_map, List.map_cons, List.map_map, List.singleton_append]
          congr 1
          refine List.map_congr_left ?_
          intro l _
          simp only [Function.comp_apply, Nat.succ_eq_add_one]
          rw [Nat.add_assoc, Nat.add_comm 1]
        rw [hout k s (by omega) hP] at hall
        rw [List.length_cons, hlist]
        exact hall
      · rw [List.length_cons, Nat.add_comm is.length, ← Nat.add_assoc]
        exact hP'

/-- A list cut at a given length. -/
theorem exists_cut {is : List I} {n : Nat} (h : n ≤ is.length) :
    ∃ js ks, is = js ++ ks ∧ js.length = n :=
  ⟨_, _, (List.take_append_drop n is).symm, List.length_take_of_le h⟩

end Inputs

end Wujian100
