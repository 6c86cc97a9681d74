import Wujian100.Core.Driver.Pwm
import Mathlib.Data.List.Nodup
import Mathlib.Order.Fin.Basic

/-!
# The PWM's Interrupt

In one run the handler deals with at most one event of each pair, the first of the three
kinds that is pending. What it leaves stays pending and brings it back, so three runs are
enough for everything. The value of a capture is shifted by `16 & (i & 1)`, which is zero for
every pair, so a pair of odd number reports the value of the one before it.

## Main definitions

* `PwmInts.pend`: The pending events of the pairs.
* `PwmInts.next`: The event of a pair that a run deals with.
* `PwmInts.IrqRight`: Every event is acknowledged and reported once, with its value.

## Theorems

* `pairHandler_spec`: What a turn of the loop does to the pending events and the reports.
* `irqhandler_spec`: What a run does.
* `three_runs`: What three runs leave.
* `irq_right_iff`: When all reports have their values.
-/

namespace Wujian100

namespace Driver

namespace PwmInts

variable {s t : PwmInts} {i j : Fin 6} {e : PwmEvent}

/-! ## Pending events -/

section Pending

/-- The bit of an event in its status register. -/
def bitOf (i : Fin 6) : PwmEvent → Nat
  | .timerTimeout => i.val
  | .captureCount => i.val
  | .captureTime => i.val + 6

/-- Whether an event of a pair is pending. -/
def pend (s : PwmInts) (i : Fin 6) (e : PwmEvent) : Bool :=
  match e with
  | .timerTimeout => s.reg.timis.getLsbD (bitOf i e)
  | _ => s.reg.capis.getLsbD (bitOf i e)

/-- The first of the events that are pending. -/
def first (p : PwmEvent → Bool) : Option PwmEvent :=
  if p .timerTimeout then some .timerTimeout
  else if p .captureCount then some .captureCount
  else if p .captureTime then some .captureTime
  else none

/-- The event of a pair a run deals with. -/
def next (s : PwmInts) (i : Fin 6) : Option PwmEvent := first (s.pend i)

theorem pairReg_lt (i : Fin 6) : i.val / 2 < 3 := by omega

theorem pairCb_lt (i : Fin 6) : i.val <<< 1 < 12 := by omega

/-- The value the handler reports with an event. -/
def valOf (s : PwmInts) (i : Fin 6) : PwmEvent → BitVec 32
  | .captureTime => (half false (s.reg.capt ⟨i.val / 2, pairReg_lt i⟩)).setWidth 32
  | _ => 0

/-- The report of a pair in a run, if there is one. -/
def reportOf (s : PwmInts) (i : Fin 6) : Option PwmReport :=
  (s.next i).bind fun e =>
    if s.cb ⟨i.val <<< 1, pairCb_lt i⟩ then some ⟨i, e, s.valOf i e⟩ else none

theorem and_bit_ne_zero (x : BitVec 32) {k : Nat} (hk : k < 32) :
    x &&& BitVec.twoPow 32 k ≠ 0 ↔ x.getLsbD k = true := by
  have hbit : (BitVec.twoPow 32 k).getLsbD k = true := by
    rw [BitVec.getLsbD_twoPow, decide_eq_true hk, decide_eq_true rfl, Bool.and_self]
  have hne : BitVec.twoPow 32 k ≠ 0#32 := by
    intro h
    rw [h, BitVec.getLsbD_zero] at hbit
    cases hbit
  rw [BitVec.and_twoPow]
  cases x.getLsbD k with
  | false => simp
  | true => simpa using hne

theorem clear_bit (x : BitVec 32) {k m : Nat} (hk : k < 32) (hm : m < 32) :
    (x &&& ~~~BitVec.twoPow 32 k).getLsbD m = (x.getLsbD m && !decide (k = m)) := by
  rw [BitVec.getLsbD_and, BitVec.getLsbD_not, BitVec.getLsbD_twoPow, decide_eq_true hk,
    decide_eq_true hm, Bool.true_and, Bool.true_and]

theorem bitOf_lt : ∀ (i : Fin 6) (e : PwmEvent), bitOf i e < 32 := by
  intro i e
  cases e <;> rw [bitOf] <;> omega

/-- An event, acknowledged. -/
def ack (s : PwmInts) (i : Fin 6) (e : PwmEvent) : PwmInts :=
  match e with
  | .timerTimeout => s.writeTimic (BitVec.twoPow 32 (bitOf i e))
  | _ => s.writeCapic (BitVec.twoPow 32 (bitOf i e))

section Capture

variable {e' : PwmEvent} (he : e ≠ .timerTimeout) (he' : e' ≠ .timerTimeout)

include he

theorem pend_capture : s.pend i e = s.reg.capis.getLsbD (bitOf i e) := by
  cases e with
  | timerTimeout => exact absurd rfl he
  | captureCount => rfl
  | captureTime => rfl

theorem ack_capture : s.ack i e = s.writeCapic (BitVec.twoPow 32 (bitOf i e)) := by
  cases e with
  | timerTimeout => exact absurd rfl he
  | captureCount => rfl
  | captureTime => rfl

include he'

/-- The events of the register have different bits. -/
theorem bitOf_eq_iff : bitOf i e = bitOf j e' ↔ j = i ∧ e' = e := by
  cases e <;> cases e' <;> simp_all [bitOf] <;> omega

end Capture

/-- Acknowledging an event leaves all others pending. -/
theorem pend_ack (s : PwmInts) (i j : Fin 6) (e e' : PwmEvent) :
    (s.ack i e).pend j e' = (s.pend j e' && !decide (j = i ∧ e' = e)) := by
  by_cases he : e = .timerTimeout
  · subst he
    by_cases he' : e' = .timerTimeout
    · subst he'
      have hbit : bitOf i .timerTimeout = bitOf j .timerTimeout ↔ j = i ∧ PwmEvent.timerTimeout
          = .timerTimeout := by
        rw [bitOf, bitOf, and_iff_left rfl, Fin.ext_iff]
        exact eq_comm
      exact (clear_bit _ (bitOf_lt _ _) (bitOf_lt _ _)).trans
        (congrArg (fun b => _ && !b) (decide_eq_decide.mpr hbit))
    · -- The other register is not written.
      rw [pend_capture he', pend_capture he', decide_eq_false fun h => he' h.2, Bool.not_false,
        Bool.and_true]
      rfl
  · by_cases he' : e' = .timerTimeout
    · subst he'
      rw [ack_capture he, decide_eq_false fun h => he h.2.symm, Bool.not_false, Bool.and_true]
      rfl
    · rw [ack_capture he, pend_capture he', pend_capture he']
      exact (clear_bit _ (bitOf_lt _ _) (bitOf_lt _ _)).trans
        (congrArg (fun b => _ && !b) (decide_eq_decide.mpr (bitOf_eq_iff he he')))

end Pending

/-! ## A turn of the loop -/

section Turn

/-- The bit is gone with the first write. -/
theorem ackCapis_eq {k n : Nat} (hk : k < 32) (h : s.reg.capis.getLsbD k = true) :
    s.ackCapis (BitVec.twoPow 32 k) (n + 1 + 1) = s.writeCapic (BitVec.twoPow 32 k) := by
  have hfirst := (and_bit_ne_zero s.reg.capis hk).mpr h
  have hgone : ¬ (s.writeCapic (BitVec.twoPow 32 k)).reg.capis &&& BitVec.twoPow 32 k ≠ 0 := by
    rw [and_bit_ne_zero _ hk]
    show ¬ (s.reg.capis &&& ~~~BitVec.twoPow 32 k).getLsbD k = true
    rw [clear_bit _ hk hk, decide_eq_true rfl, Bool.not_true, Bool.and_false]
    exact Bool.false_ne_true
  have hor : readClear ||| BitVec.twoPow 32 k = BitVec.twoPow 32 k := BitVec.zero_or
  rw [ackCapis, if_pos hfirst, hor, ackCapis, if_neg hgone]

/-- What the loop began with agrees with what is still there for a pair. -/
def Agrees (capis timis : BitVec 32) (s : PwmInts) (i : Fin 6) : Prop :=
  timis.getLsbD i = s.pend i .timerTimeout ∧ capis.getLsbD i = s.pend i .captureCount ∧
    capis.getLsbD (i + 6) = s.pend i .captureTime

/-- A turn deals with the next event of its pair. -/
theorem pairHandler_spec {capis timis : BitVec 32} (h : Agrees capis timis s i) :
    pairHandler capis timis s i = match s.next i with
      | none => s
      | some e => (s.ack i e).report i e (s.valOf i e) := by
  obtain ⟨htim, hcnt, htime⟩ := h
  have hlow : 0x1#32 <<< i.val = BitVec.twoPow 32 i := (BitVec.twoPow_eq 32 i).symm
  have hhigh : ∀ k : Fin 6, 0x40#32 <<< k.val = BitVec.twoPow 32 (k + 6) := by decide
  have hshift : ∀ k : Fin 6, 16 &&& (k.val &&& 0x1) = 0 := by decide
  have hhalf : ∀ k : Fin 6, k.val >>> 1 = k.val / 2 := by decide
  have hturns : ackTurns = 10000000 + 1 + 1 := rfl
  have hor : readClear ||| BitVec.twoPow 32 i = BitVec.twoPow 32 i := BitVec.zero_or
  have htim' : timis &&& BitVec.twoPow 32 i ≠ 0 ↔ s.pend i .timerTimeout = true := by
    rw [and_bit_ne_zero _ (by omega), htim]
  have hcnt' : capis &&& BitVec.twoPow 32 i ≠ 0 ↔ s.pend i .captureCount = true := by
    rw [and_bit_ne_zero _ (by omega), hcnt]
  have htime' : capis &&& BitVec.twoPow 32 (i + 6) ≠ 0 ↔ s.pend i .captureTime = true := by
    rw [and_bit_ne_zero _ (by omega), htime]
  rw [pairHandler, hlow, hhigh i, next, first]
  by_cases h1 : s.pend i .timerTimeout = true
  · rw [if_pos (htim'.mpr h1), if_pos h1, hor]
    rfl
  · rw [if_neg (mt htim'.mp h1), if_neg h1]
    by_cases h2 : s.pend i .captureCount = true
    · rw [if_pos (hcnt'.mpr h2), if_pos h2, hturns, ackCapis_eq (k := i) (by omega) h2]
      rfl
    · rw [if_neg (mt hcnt'.mp h2), if_neg h2]
      by_cases h3 : s.pend i .captureTime = true
      · rw [if_pos (htime'.mpr h3), if_pos h3, hturns, ackCapis_eq (k := i + 6) (by omega) h3]
        -- The shift is by zero, so it is the low half of the word that is reported.
        have hval : ((s.reg.capt ⟨i.val >>> 1, by omega⟩ >>> (16 &&& (i.val &&& 0x1))).setWidth
            16).setWidth 32 = s.valOf i .captureTime := by
          rw [hshift i, BitVec.ushiftRight_zero, valOf, 
            BitVec.setWidth_eq_extractLsb' (w := 16) (by omega)]
          simp only [hhalf i]
          rfl
        exact congrArg (report _ i .captureTime) hval
      · rw [if_neg (mt htime'.mp h3), if_neg h3]

theorem report_pend (v : BitVec 32) : (s.report i e v).pend = s.pend := by
  rw [report]
  split <;> rfl

theorem report_cb (v : BitVec 32) : (s.report i e v).cb = s.cb := by
  rw [report]
  split <;> rfl

theorem report_capt (v : BitVec 32) : (s.report i e v).reg.capt = s.reg.capt := by
  rw [report]
  split <;> rfl

theorem ack_fields : (s.ack i e).cb = s.cb ∧ (s.ack i e).reg.capt = s.reg.capt ∧
    (s.ack i e).reports = s.reports := by
  cases e <;> exact ⟨rfl, rfl, rfl⟩

/-- What a turn changes: its event is gone, and its report is there. -/
theorem turn_fields {capis timis : BitVec 32} (h : Agrees capis timis s i) :
    (∀ j e, (pairHandler capis timis s i).pend j e
        = (s.pend j e && !decide (j = i ∧ s.next i = some e))) ∧
      (pairHandler capis timis s i).cb = s.cb ∧
      (pairHandler capis timis s i).reg.capt = s.reg.capt ∧
      (pairHandler capis timis s i).reports = s.reports ++ (s.reportOf i).toList := by
  rw [pairHandler_spec h, reportOf]
  cases hnext : s.next i with
  | none =>
      refine ⟨fun j e => ?_, rfl, rfl, (List.append_nil _).symm⟩
      have hfalse : decide (j = i ∧ (none : Option PwmEvent) = some e) = false :=
        decide_eq_false (by simp)
      rw [hfalse, Bool.not_false, Bool.and_true]
  | some e =>
      have hfields := ack_fields (s := s) (i := i) (e := e)
      dsimp only
      refine ⟨fun j e' => ?_, report_cb _ |>.trans hfields.1, report_capt _ |>.trans hfields.2.1, ?_⟩
      · rw [report_pend, pend_ack]
        refine congrArg (fun b => s.pend j e' && !b) (decide_eq_decide.mpr (and_congr Iff.rfl ?_))
        rw [Option.some.injEq]
        exact eq_comm
      · rw [report, hfields.1, Option.bind_some]
        split
        · rw [hfields.2.2]
          rfl
        · rw [hfields.2.2]
          exact (List.append_nil _).symm

/-- What is reported for a pair depends on the pair alone. -/
theorem reportOf_congr (hpend : ∀ e, t.pend i e = s.pend i e) (hcb : t.cb = s.cb)
    (hcapt : t.reg.capt = s.reg.capt) : t.next i = s.next i ∧ t.reportOf i = s.reportOf i := by
  have hnext : t.next i = s.next i := congrArg first (funext hpend)
  have hval : ∀ e, t.valOf i e = s.valOf i e := by
    intro e
    cases e with
    | captureTime => rw [valOf, valOf, hcapt]
    | captureCount => rfl
    | timerTimeout => rfl
  refine ⟨hnext, ?_⟩
  rw [reportOf, reportOf, hnext, hcb]
  simp only [hval]

end Turn

/-! ## A run of the handler -/

section Handler

/-- The loop over some pairs deals with the next event of each of them. -/
theorem fold_spec {capis timis : BitVec 32} (l : List (Fin 6)) (hl : l.Nodup) (s : PwmInts)
    (hagrees : ∀ i ∈ l, Agrees capis timis s i) :
    (∀ j e, (l.foldl (pairHandler capis timis) s).pend j e
        = (s.pend j e && !decide (j ∈ l ∧ s.next j = some e))) ∧
      (l.foldl (pairHandler capis timis) s).cb = s.cb ∧
      (l.foldl (pairHandler capis timis) s).reg.capt = s.reg.capt ∧
      (l.foldl (pairHandler capis timis) s).reports = s.reports ++ l.filterMap s.reportOf := by
  induction l generalizing s with
  | nil =>
      refine ⟨fun j e => ?_, rfl, rfl, (List.append_nil _).symm⟩
      have hfalse : decide (j ∈ ([] : List (Fin 6)) ∧ s.next j = some e) = false :=
        decide_eq_false fun hc => List.not_mem_nil hc.1
      rw [hfalse, Bool.not_false, Bool.and_true]
      rfl
  | cons i l ih =>
      have hnot := (List.nodup_cons.mp hl).1
      obtain ⟨hpend, hcb, hcapt, hreports⟩ := turn_fields (hagrees i List.mem_cons_self)
      -- The turn leaves the other pairs as they were.
      have hother : ∀ j ∈ l, ∀ e, (pairHandler capis timis s i).pend j e = s.pend j e := by
        intro j hj e
        have hfalse : decide (j = i ∧ s.next i = some e) = false :=
          decide_eq_false fun hc => hnot (hc.1 ▸ hj)
        rw [hpend, hfalse, Bool.not_false, Bool.and_true]
      have hrest := ih (List.nodup_cons.mp hl).2 (pairHandler capis timis s i) fun j hj => by
        have hj' := hagrees j (List.mem_cons_of_mem i hj)
        rw [Agrees, hother j hj, hother j hj, hother j hj]
        exact hj'
      have hcongr (j : Fin 6) (hj : j ∈ l) := reportOf_congr (hother j hj) hcb hcapt
      obtain ⟨hpend', hcb', hcapt', hreports'⟩ := hrest
      refine ⟨fun j e => ?_, hcb'.trans hcb, hcapt'.trans hcapt, ?_⟩
      · rw [List.foldl_cons, hpend', hpend]
        by_cases hji : j = i
        · subst hji
          simp [hnot]
        · by_cases hj : j ∈ l
          · rw [(hcongr j hj).1]
            simp [hji, hj]
          · simp [hji, hj]
      · rw [List.foldl_cons, hreports', hreports, List.append_assoc,
          List.filterMap_congr fun j hj => (hcongr j hj).2, List.filterMap_cons]
        cases s.reportOf i <;> rfl

/-- A run of the handler deals with the next event of every pair. -/
theorem irqhandler_spec (s : PwmInts) :
    (∀ j e, s.irqhandler.pend j e = (s.pend j e && !decide (s.next j = some e))) ∧
      s.irqhandler.cb = s.cb ∧ s.irqhandler.reg.capt = s.reg.capt ∧
      s.irqhandler.reports = s.reports ++ (List.finRange 6).filterMap s.reportOf := by
  obtain ⟨hpend, hrest⟩ := fold_spec (List.finRange 6) (List.nodup_finRange 6) s
    fun i _ => (⟨rfl, rfl, rfl⟩ : Agrees s.reg.capis s.reg.timis s i)
  refine ⟨fun j e => (hpend j e).trans ?_, hrest⟩
  simp only [List.mem_finRange, true_and]

/-- The reports of one event of a pair. -/
def reportsOf (i : Fin 6) (e : PwmEvent) (l : List PwmReport) : List PwmReport :=
  l.filter fun r => decide (r.pair = i ∧ r.event = e)

theorem reportsOf_append (i : Fin 6) (e : PwmEvent) (l m : List PwmReport) :
    reportsOf i e (l ++ m) = reportsOf i e l ++ reportsOf i e m := List.filter_append ..

/-- What a run reports for a pair is its next event, if the pair has a callback. -/
theorem reportsOf_toList (s : PwmInts) (i j : Fin 6) (e : PwmEvent) :
    reportsOf i e (s.reportOf j).toList
      = if j = i ∧ s.next j = some e ∧ s.cb ⟨j.val <<< 1, pairCb_lt j⟩ = true
        then [⟨i, e, s.valOf i e⟩] else [] := by
  rw [reportOf]
  cases hnext : s.next j with
  | none => simp [reportsOf]
  | some e' =>
      rw [Option.bind_some]
      by_cases hcb : s.cb ⟨j.val <<< 1, pairCb_lt j⟩ = true
      · rw [if_pos hcb]
        by_cases hsame : j = i ∧ e' = e
        · obtain ⟨rfl, rfl⟩ := hsame
          simp [reportsOf, hcb]
        · simp [reportsOf, hsame, hcb]
      · rw [if_neg hcb]
        simp [reportsOf, hcb]

/-- What a run reports of one event. -/
theorem reportsOf_run (l : List (Fin 6)) (hl : l.Nodup) (s : PwmInts) (i : Fin 6) (e : PwmEvent) :
    reportsOf i e (l.filterMap s.reportOf)
      = if i ∈ l ∧ s.next i = some e ∧ s.cb ⟨i.val <<< 1, pairCb_lt i⟩ = true
        then [⟨i, e, s.valOf i e⟩] else [] := by
  induction l with
  | nil => simp [reportsOf]
  | cons j l ih =>
      have hnot := (List.nodup_cons.mp hl).1
      have hcons : (j :: l).filterMap s.reportOf = (s.reportOf j).toList ++ l.filterMap s.reportOf := by
        rw [List.filterMap_cons]
        cases s.reportOf j <;> rfl
      rw [hcons, reportsOf_append, reportsOf_toList, ih (List.nodup_cons.mp hl).2]
      by_cases hji : j = i
      · -- No later turn is this pair's.
        subst hji
        simp [hnot]
      · simp [hji, Ne.symm hji]

end Handler

/-! ## Runs while events are pending -/

section Runs

/-- What is left of the pending events of a pair by a run. -/
def rest (p : PwmEvent → Bool) (e : PwmEvent) : Bool := p e && !decide (first p = some e)

/-- Three runs deal with each event of a pair, and with each of them once. -/
theorem three_turns {α : Type} (p : PwmEvent → Bool) (e : PwmEvent) (x : α) :
    rest (rest (rest p)) e = false ∧
      (if first p = some e then [x] else []) ++ (if first (rest p) = some e then [x] else [])
        ++ (if first (rest (rest p)) = some e then [x] else []) = if p e then [x] else [] := by
  cases ht : p .timerTimeout <;> cases hc : p .captureCount <;> cases hx : p .captureTime <;>
    cases e <;> simp [rest, first, ht, hc, hx]

/-- Some runs of the handler. -/
def runs (n : Nat) (s : PwmInts) : PwmInts := irqhandler^[n] s

/-- The value a report of an event should have: with a capture, the pair's own half of the
    capture register. -/
def ownVal (s : PwmInts) (i : Fin 6) : PwmEvent → BitVec 32
  | .captureTime => (bank s.reg.capt i).setWidth 32
  | _ => 0

/-- After enough runs nothing is pending, and each event that was is reported once to its
    pair's callback, with its value. -/
def IrqRight (s : PwmInts) : Prop :=
  ∀ n ≥ 3, (∀ i e, (runs n s).pend i e = false) ∧
    ∀ i e, reportsOf i e (runs n s).reports
      = if s.pend i e = true ∧ s.cb ⟨i.val <<< 1, pairCb_lt i⟩ = true then [⟨i, e, s.ownVal i e⟩] else []

/-- What a run leaves for the next one. -/
theorem pend_irqhandler (s : PwmInts) (i : Fin 6) : s.irqhandler.pend i = rest (s.pend i) :=
  funext fun e => (irqhandler_spec s).1 i e

/-- What a run adds to the reports of an event. -/
theorem reportsOf_irqhandler (s : PwmInts) (i : Fin 6) (e : PwmEvent) :
    reportsOf i e s.irqhandler.reports = reportsOf i e s.reports ++
      if s.cb ⟨i.val <<< 1, pairCb_lt i⟩ = true then
        if first (s.pend i) = some e then [⟨i, e, s.valOf i e⟩] else [] else [] := by
  rw [(irqhandler_spec s).2.2.2, reportsOf_append,
    reportsOf_run (List.finRange 6) (List.nodup_finRange 6)]
  congr 1
  by_cases hcb : s.cb ⟨i.val <<< 1, pairCb_lt i⟩ = true
  · simp [hcb, next]
  · simp [hcb]

theorem valOf_irqhandler (s : PwmInts) (i : Fin 6) (e : PwmEvent) :
    s.irqhandler.valOf i e = s.valOf i e := by
  cases e with
  | captureTime => rw [valOf, valOf, (irqhandler_spec s).2.2.1]
  | captureCount => rfl
  | timerTimeout => rfl

/-- Three runs deal with everything, and every event is reported once, with the value of the
    handler. -/
theorem three_runs (s : PwmInts) (hnil : s.reports = []) (i : Fin 6) (e : PwmEvent) :
    (runs 3 s).pend i e = false ∧ reportsOf i e (runs 3 s).reports
      = if s.pend i e = true ∧ s.cb ⟨i.val <<< 1, pairCb_lt i⟩ = true then [⟨i, e, s.valOf i e⟩]
        else [] := by
  have hruns : runs 3 s = s.irqhandler.irqhandler.irqhandler := rfl
  have hcb (u : PwmInts) : u.irqhandler.cb = u.cb := (irqhandler_spec u).2.1
  have ⟨hpend, hreports⟩ := three_turns (s.pend i) e (⟨i, e, s.valOf i e⟩ : PwmReport)
  rw [hruns]
  constructor
  · rw [pend_irqhandler, pend_irqhandler, pend_irqhandler]
    exact hpend
  · simp only [reportsOf_irqhandler, pend_irqhandler, valOf_irqhandler, hcb, hnil]
    by_cases hset : s.cb ⟨i.val <<< 1, pairCb_lt i⟩ = true
    · simp only [hset, if_true, and_true]
      exact hreports
    · simp only [hset, Bool.false_eq_true, if_false, and_false]
      rfl

/-- A run with nothing pending does nothing. -/
theorem idle_run {n : Nat} (h : ∀ i e, (runs n s).pend i e = false) (i : Fin 6) (e : PwmEvent) :
    (runs (n + 1) s).pend i e = false ∧
      reportsOf i e (runs (n + 1) s).reports = reportsOf i e (runs n s).reports := by
  have hnone : first ((runs n s).pend i) = none := by
    rw [first, h, h, h]
    rfl
  have hsucc : runs (n + 1) s = (runs n s).irqhandler := Function.iterate_succ_apply' ..
  rw [hsucc, pend_irqhandler, reportsOf_irqhandler, hnone, rest, h]
  simp

/-- More than three runs leave what three leave. -/
theorem runs_spec (s : PwmInts) (hnil : s.reports = []) {n : Nat} (hn : 3 ≤ n) :
    (∀ i e, (runs n s).pend i e = false) ∧ ∀ i e, reportsOf i e (runs n s).reports
      = if s.pend i e = true ∧ s.cb ⟨i.val <<< 1, pairCb_lt i⟩ = true then [⟨i, e, s.valOf i e⟩]
        else [] := by
  induction n, hn using Nat.le_induction with
  | base => exact ⟨fun i e => (three_runs s hnil i e).1, fun i e => (three_runs s hnil i e).2⟩
  | succ n _ ih =>
      exact ⟨fun i e => (idle_run ih.1 i e).1, fun i e => (idle_run ih.1 i e).2.trans (ih.2 i e)⟩

/-- The handler's value is the pair's own unless it is a capture of a pair of odd number with
    another value in the high half. -/
theorem valOf_eq_iff (s : PwmInts) (i : Fin 6) (e : PwmEvent) :
    s.valOf i e = s.ownVal i e ↔ (e = .captureTime → i.val % 2 = 1 →
      half true (s.reg.capt ⟨i.val / 2, pairReg_lt i⟩)
        = half false (s.reg.capt ⟨i.val / 2, pairReg_lt i⟩)) := by
  cases e with
  | timerTimeout => exact ⟨fun _ h => PwmEvent.noConfusion h, fun _ => rfl⟩
  | captureCount => exact ⟨fun _ h => PwmEvent.noConfusion h, fun _ => rfl⟩
  | captureTime =>
      have hinj (a b : BitVec 16) : a.setWidth 32 = b.setWidth 32 ↔ b = a := by
        rw [← BitVec.toNat_inj, ← BitVec.toNat_inj, BitVec.toNat_setWidth, BitVec.toNat_setWidth]
        omega
      rw [valOf, ownVal, hinj, bank]
      rcases Nat.mod_two_eq_zero_or_one i.val with heven | hodd
      · rw [heven]
        exact ⟨fun _ _ h => absurd h (by decide), fun _ => rfl⟩
      · rw [hodd]
        exact ⟨fun h _ _ => h, fun h => h rfl rfl⟩

/-- The events are all acknowledged and each is reported once with its value, exactly if every
    capture of a pair of odd number that is reported has the same value in both halves. -/
theorem irq_right_iff (s : PwmInts) (hnil : s.reports = []) :
    s.IrqRight ↔ ∀ i : Fin 6, i.val % 2 = 1 → s.pend i .captureTime = true →
      s.cb ⟨i.val <<< 1, pairCb_lt i⟩ = true →
        half true (s.reg.capt ⟨i.val / 2, pairReg_lt i⟩)
          = half false (s.reg.capt ⟨i.val / 2, pairReg_lt i⟩) := by
  constructor
  · intro h i hodd hpend hcb
    have hreport := (h 3 (Nat.le_refl 3)).2 i .captureTime
    rw [(three_runs s hnil i .captureTime).2, if_pos ⟨hpend, hcb⟩, if_pos ⟨hpend, hcb⟩] at hreport
    have hval : s.valOf i .captureTime = s.ownVal i .captureTime :=
      congrArg PwmReport.val (List.cons.inj hreport).1
    exact (valOf_eq_iff s i .captureTime).mp hval rfl hodd
  · intro h n hn
    refine ⟨(runs_spec s hnil hn).1, fun i e => ((runs_spec s hnil hn).2 i e).trans ?_⟩
    by_cases hset : s.pend i e = true ∧ s.cb ⟨i.val <<< 1, pairCb_lt i⟩ = true
    · have hval : s.valOf i e = s.ownVal i e :=
        (valOf_eq_iff s i e).mpr fun he hodd => h i hodd (he ▸ hset.1) hset.2
      rw [if_pos hset, if_pos hset, hval]
    · rw [if_neg hset, if_neg hset]

/-- A capture of the first pair and a timeout of the second, with all callbacks set. -/
def captureFirst : PwmInts where
  reg := ⟨0, 0, fun _ => 0, fun _ => 0, 0x40#32, fun _ => 0x12345678#32, 0x2#32, fun _ => 0⟩
  cb := fun _ => true
  reports := []

theorem irq_right_first : captureFirst.IrqRight :=
  (irq_right_iff captureFirst rfl).mpr (by decide)

/-- A capture of the second pair is reported with the first one's value. -/
theorem irq_wrong_half :
    (runs 3 { captureFirst with reg := { captureFirst.reg with capis := 0x80#32 } }).reports
      = [⟨1, .timerTimeout, 0⟩, ⟨1, .captureTime, 0x5678#32⟩] ∧
      ¬ IrqRight { captureFirst with reg := { captureFirst.reg with capis := 0x80#32 } } := by
  have hreports :
      (runs 3 { captureFirst with reg := { captureFirst.reg with capis := 0x80#32 } }).reports
        = [⟨1, .timerTimeout, 0⟩, ⟨1, .captureTime, 0x5678#32⟩] := by
    decide
  refine ⟨hreports, fun h => ?_⟩
  have hreport := (h 3 (Nat.le_refl 3)).2 1 .captureTime
  rw [hreports] at hreport
  exact absurd hreport (by decide)

end Runs

end PwmInts

end Driver

end Wujian100
