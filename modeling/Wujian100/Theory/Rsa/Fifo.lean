import Mathlib.Data.Nat.ModEq
import Wujian100.Core.Rsa.Fifo

/-!
# The FIFO Is a Queue

`Holds` relates the registers of the FIFO to the list of words in it, oldest
first: the count is its length, the pointers are that far apart, and the memory
between them carries the words. A clock takes the oldest word off if the reader
is ready, and adds the new one if there is room.

## Main definitions

* `Fifo.Holds`: The words in the FIFO.
* `Fifo.next`: The words after a clock.
* `Fifo.queued`: The words after several, with any inputs.
* `Fifo.Shows`: The outputs are those of a queue.
* `Fifo.pop`, `Fifo.push`: The two halves of a clock.

## Theorems

* `Fifo.holds_reset`: A FIFO that was reset is empty.
* `Fifo.full_of_holds`, `Fifo.empty_of_holds`, `Fifo.rdDout_of_holds`: The
  outputs.
* `Fifo.step_eq`: A clock is a pop and a push.
* `Fifo.holds_step`: What a clock does.
* `Fifo.fifo_refines_queue`: Whatever the inputs are, the outputs are those of a queue
  of `2 ^ FAW` words.
-/

namespace Wujian100

namespace Rsa

namespace Fifo

variable {α : Type} {faw : Nat} {s : Fifo α} {q : List α}

/-- The FIFO holds the words `q`, oldest first. -/
structure Holds (faw : Nat) (s : Fifo α) (q : List α) : Prop where
  cnt : s.rdCnt = q.length
  room : q.length ≤ 2 ^ faw
  head : s.fifoHead < 2 ^ (faw + 1)
  tail : s.fifoTail = (s.fifoHead + q.length) % 2 ^ (faw + 1)
  nextHead : s.nextHead = (s.fifoHead + 1) % 2 ^ (faw + 1)
  nextTail : s.nextTail = (s.fifoTail + 1) % 2 ^ (faw + 1)
  mem : ∀ i (hi : i < q.length), s.mem ((s.fifoHead + i) % 2 ^ faw) = q[i]

/-- The words after a clock. -/
def next (faw : Nat) (q : List α) (wrVld : Bool) (wrDin : α) (rdRdy : Bool) : List α :=
  (if rdRdy then q.tail else q) ++ (if wrVld ∧ q.length < 2 ^ faw then [wrDin] else [])

theorem holds_reset (mem : Nat → α) : Holds faw (reset mem) [] := by
  have hpos : 1 < 2 ^ (faw + 1) := Nat.one_lt_two_pow (by omega)
  refine ⟨rfl, Nat.zero_le _, Nat.two_pow_pos _, ?_, ?_, ?_, nofun⟩
  · simp [reset]
  · simp only [reset]
    rw [Nat.mod_eq_of_lt hpos]
  · simp only [reset]
    rw [Nat.mod_eq_of_lt hpos]

theorem full_of_holds (h : Holds faw s q) : s.full faw = decide (q.length ≥ 2 ^ faw) := by
  rw [full, h.cnt]

/-- The pointers meet only when nothing is between them: they are never more
    than half of their range apart. -/
theorem empty_of_holds (h : Holds faw s q) : s.empty = decide (q.length = 0) := by
  have hpow : 2 ^ (faw + 1) = 2 * 2 ^ faw := by rw [Nat.pow_succ]; omega
  have hpos : 0 < 2 ^ faw := Nat.two_pow_pos _
  have hroom := h.room
  have hhead := h.head
  have hsum : s.fifoHead + q.length < 2 * 2 ^ (faw + 1) := by omega
  rw [empty, h.tail]
  refine decide_eq_decide.mpr ?_
  constructor
  · intro heq
    by_cases hwrap : s.fifoHead + q.length < 2 ^ (faw + 1)
    · rw [Nat.mod_eq_of_lt hwrap] at heq
      omega
    · rw [Nat.mod_eq_sub_mod (Nat.not_lt.mp hwrap), Nat.mod_eq_of_lt (by omega)] at heq
      omega
  · intro hlen
    rw [hlen, Nat.add_zero, Nat.mod_eq_of_lt hhead]

theorem rdDout_of_holds {w : α} {rest : List α} (h : Holds faw s (w :: rest)) :
    s.rdDout faw = w := by
  have hmem := h.mem 0 (Nat.succ_pos _)
  rw [Nat.add_zero] at hmem
  exact hmem

/-- An address is a pointer without its top bit. -/
theorem pointer_mod (a : Nat) : a % 2 ^ (faw + 1) % 2 ^ faw = a % 2 ^ faw :=
  Nat.mod_mod_of_dvd a (Nat.pow_dvd_pow 2 (Nat.le_succ faw))

/-- Two words less than a memory apart lie at different addresses. -/
theorem address_ne {a d p : Nat} (hpos : 0 < d) (hlt : d < p) : (a + d) % p ≠ a % p := by
  intro heq
  have hmod : Nat.ModEq p (a + d) (a + 0) := heq
  have hzero := Nat.ModEq.add_left_cancel' a hmod
  rw [Nat.ModEq, Nat.mod_eq_of_lt hlt, Nat.zero_mod] at hzero
  omega

/-- The reader takes the oldest word. -/
def pop (faw : Nat) (s : Fifo α) : Fifo α :=
  { s with
    fifoHead := s.nextHead
    nextHead := (s.nextHead + 1) % 2 ^ (faw + 1)
    rdCnt := s.rdCnt - 1 }

/-- The writer adds a word. -/
def push (faw : Nat) (s : Fifo α) (w : α) : Fifo α :=
  { s with
    fifoTail := s.nextTail
    nextTail := (s.nextTail + 1) % 2 ^ (faw + 1)
    rdCnt := s.rdCnt + 1
    mem := fun a => if a = s.fifoTail % 2 ^ faw then w else s.mem a }

theorem holds_pop {w : α} {rest : List α} (h : Holds faw s (w :: rest)) :
    Holds faw (s.pop faw) rest := by
  have hroom := h.room
  rw [List.length_cons] at hroom
  refine ⟨?_, by omega, ?_, ?_, ?_, h.nextTail, ?_⟩
  · rw [pop, h.cnt, List.length_cons]
    rfl
  · rw [pop, h.nextHead]
    exact Nat.mod_lt _ (Nat.two_pow_pos _)
  · simp only [pop]
    rw [h.tail, h.nextHead, Nat.mod_add_mod, List.length_cons, Nat.add_assoc, Nat.add_comm 1]
  · rfl
  · intro i hi
    have hmem := h.mem (i + 1) (by rw [List.length_cons]; omega)
    rw [List.getElem_cons_succ] at hmem
    simp only [pop]
    rw [h.nextHead, ← hmem, ← pointer_mod, Nat.mod_add_mod, pointer_mod, Nat.add_assoc,
      Nat.add_comm 1]

theorem holds_push (h : Holds faw s q) (w : α) (hroom : q.length < 2 ^ faw) :
    Holds faw (s.push faw w) (q ++ [w]) := by
  have hlen : (q ++ [w]).length = q.length + 1 := by rw [List.length_append, List.length_singleton]
  refine ⟨?_, by omega, h.head, ?_, h.nextHead, rfl, ?_⟩
  · rw [push, h.cnt, hlen]
  · simp only [push]
    rw [h.nextTail, h.tail, hlen, Nat.mod_add_mod, Nat.add_assoc]
  · intro i hi
    simp only [push]
    rw [h.tail, pointer_mod]
    by_cases hi' : i < q.length
    · -- The words that were there lie below the tail.
      have hne : (s.fifoHead + i) % 2 ^ faw ≠ (s.fifoHead + q.length) % 2 ^ faw := by
        have hne := address_ne (a := s.fifoHead + i) (d := q.length - i) (p := 2 ^ faw)
          (by omega) (by omega)
        rw [show s.fifoHead + i + (q.length - i) = s.fifoHead + q.length by omega] at hne
        exact hne.symm
      rw [if_neg hne, h.mem i hi', List.getElem_append_left hi']
    · have heq : i = q.length := by omega
      subst heq
      rw [if_pos rfl, List.getElem_append_right (Nat.le_refl _)]
      simp

/-- A clock takes a word off and puts one in. -/
theorem step_eq (h : Holds faw s q) (wrVld : Bool) (wrDin : α) (rdRdy : Bool) :
    s.step faw wrVld wrDin rdRdy
      = if rdRdy ∧ q ≠ [] then
          (if wrVld ∧ q.length < 2 ^ faw then (s.pop faw).push faw wrDin else s.pop faw)
        else (if wrVld ∧ q.length < 2 ^ faw then s.push faw wrDin else s) := by
  have hpow : 2 ^ (faw + 1) = 2 * 2 ^ faw := by rw [Nat.pow_succ]; omega
  have hpos : 0 < 2 ^ faw := Nat.two_pow_pos _
  have hroom := h.room
  have hup : q.length < 2 ^ faw → (s.rdCnt + 1) % 2 ^ (faw + 1) = s.rdCnt + 1 := by
    intro hlt
    rw [h.cnt]
    exact Nat.mod_eq_of_lt (by omega)
  have hdown : q.length ≠ 0 → (s.rdCnt + 2 ^ (faw + 1) - 1) % 2 ^ (faw + 1) = s.rdCnt - 1 := by
    intro hne
    rw [h.cnt, show q.length + 2 ^ (faw + 1) - 1 = q.length - 1 + 2 ^ (faw + 1) by omega,
      Nat.add_mod_right]
    exact Nat.mod_eq_of_lt (by omega)
  have hnil : q ≠ [] ↔ q.length ≠ 0 := by rw [ne_eq, ne_eq, List.length_eq_zero_iff]
  have hcnt := h.cnt
  simp only [step, full_of_holds h, empty_of_holds h, hnil]
  by_cases he : q.length = 0
  · have hlt : q.length < 2 ^ faw := by omega
    cases wrVld <;> cases rdRdy <;> simp [he, push, hup hlt, Nat.not_le.mpr hpos]
  · by_cases hf : q.length < 2 ^ faw
    · have hcnt1 : s.rdCnt - 1 + 1 = s.rdCnt := by omega
      cases wrVld <;> cases rdRdy <;>
        simp [he, hf, pop, push, hup hf, hdown he, hcnt1, Nat.not_le.mpr hf]
      rfl
    · cases wrVld <;> cases rdRdy <;>
        simp [he, hf, pop, hdown he, Nat.not_lt.mp hf]

/-- What a clock does. -/
theorem holds_step (h : Holds faw s q) (wrVld : Bool) (wrDin : α) (rdRdy : Bool) :
    Holds faw (s.step faw wrVld wrDin rdRdy) (next faw q wrVld wrDin rdRdy) := by
  rw [step_eq h, next]
  by_cases hr : rdRdy = true ∧ q ≠ []
  · rcases List.exists_cons_of_ne_nil hr.2 with ⟨w, rest, rfl⟩
    have hpop := holds_pop h
    rw [if_pos hr, if_pos hr.1, List.tail_cons]
    by_cases hw : wrVld = true ∧ (w :: rest).length < 2 ^ faw
    · have hlt := hw.2
      rw [List.length_cons] at hlt
      rw [if_pos hw, if_pos hw]
      exact holds_push hpop wrDin (by omega)
    · rw [if_neg hw, if_neg hw, List.append_nil]
      exact hpop
  · have htail : (if rdRdy = true then q.tail else q) = q := by
      by_cases hd : rdRdy = true
      · have hnil : q = [] := by
          by_contra hne
          exact hr ⟨hd, hne⟩
        rw [if_pos hd, hnil, List.tail_nil]
      · rw [if_neg hd]
    rw [if_neg hr, htail]
    by_cases hw : wrVld = true ∧ q.length < 2 ^ faw
    · rw [if_pos hw, if_pos hw]
      exact holds_push h wrDin hw.2
    · rw [if_neg hw, if_neg hw, List.append_nil]
      exact h

/-- The words in a queue of `2 ^ faw` words after several clocks: in each the oldest one
    goes if the reader is ready and there is one, the new one comes if the writer has one
    and there is room, and `clr` takes all. -/
def queued (faw : Nat) (q : List α) (is : List (In α)) : List α :=
  is.foldl (fun q i => if i.clr then [] else next faw q i.wrVld i.wrDin i.rdRdy) q

/-- The outputs of the FIFO, where the queue is `q`. -/
structure Shows (faw : Nat) (s : Fifo α) (q : List α) : Prop where
  room : q.length ≤ 2 ^ faw
  rdCnt : s.rdCnt = q.length
  wrCnt : s.wrCnt faw = 2 ^ faw - s.rdCnt
  counts : s.rdCnt + s.wrCnt faw = 2 ^ faw
  full : s.full faw = true ↔ q.length = 2 ^ faw
  empty : s.empty = true ↔ s.rdCnt = 0
  wrRdy : s.wrRdy faw = true ↔ q.length < 2 ^ faw
  rdVld : s.rdVld = true ↔ q ≠ []
  rdDout : s.rdVld = true → q.head? = some (s.rdDout faw)

theorem Holds.shows (h : Holds faw s q) : Shows faw s q := by
  have hroom := h.room
  have hnil : q = [] ↔ q.length = 0 := List.length_eq_zero_iff.symm
  refine ⟨hroom, h.cnt, rfl, ?_, ?_, ?_, ?_, ?_, ?_⟩
  · rw [wrCnt, h.cnt]
    omega
  · rw [full_of_holds h, decide_eq_true_iff]
    omega
  · rw [empty_of_holds h, decide_eq_true_iff, h.cnt]
  · rw [wrRdy, full_of_holds h, Bool.not_eq_true', decide_eq_false_iff_not]
    omega
  · rw [rdVld, empty_of_holds h, Bool.not_eq_true', decide_eq_false_iff_not, ne_eq, hnil]
  · intro hvld
    cases q with
    | nil =>
        rw [rdVld, empty_of_holds h] at hvld
        cases hvld
    | cons w rest => rw [List.head?_cons, rdDout_of_holds h]

theorem holds_tick (h : Holds faw s q) (i : In α) :
    Holds faw (s.tick faw i) (if i.clr then [] else next faw q i.wrVld i.wrDin i.rdRdy) := by
  unfold tick
  dsimp only
  cases hclr : i.clr with
  | true => exact holds_reset _
  | false => exact holds_step h i.wrVld i.wrDin i.rdRdy

theorem holds_ticks (is : List (In α)) : ∀ {s : Fifo α} {q : List α}, Holds faw s q →
    Holds faw (is.foldl (tick faw) s) (queued faw q is) := by
  induction is with
  | nil =>
      intro s q h
      exact h
  | cons i is ih =>
      intro s q h
      exact ih (holds_tick h i)

/-- From reset on, and whatever the inputs are, the FIFO shows what a queue of
    `2 ^ FAW` words would. -/
theorem fifo_refines_queue (faw : Nat) (mem : Nat → α) (is : List (In α)) :
    Shows faw (is.foldl (tick faw) (reset mem)) (queued faw [] is) :=
  (holds_ticks is (holds_reset mem)).shows

/-- While the oldest word of a full FIFO is taken, a new one is still refused. -/
example : queued 0 [] [⟨false, true, 7, false⟩, ⟨false, true, 8, true⟩] = [] := by
  decide

end Fifo

end Rsa

end Wujian100
