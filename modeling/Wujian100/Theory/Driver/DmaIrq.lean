import Mathlib.Logic.Function.Iterate
import Wujian100.Core.Driver.Dmac
import Wujian100.Library.Run

/-!
# What a Callback Is Told

One run of `wj_dma_irqhandler` looks at the channels in their order, acknowledges every bit of
each it looks at and stops at the first one that is done. So it tells about completions, one
for each run, and whatever else was pending on the way is gone. The branch that tells about an
error cannot be reached: it comes after the loop, which ends only at a channel that is done.

## Main definitions

* `Scanned`: The handler looks at a channel.
* `DmacCause`, `Watched.next`: Bits become pending and the handler runs; with an account of
  all bits that ever were.
* `Watched.Accounted`: Everything was told once or is pending.
* `Watched.Quiet`: The handler finds nothing but completions.

## Theorems

* `irqhandler_chints`, `count_done`, `count_error`: One run of the handler.
* `irqs_drain`: As many runs as there are channels leave no completion.
* `Watched.reports_iff`: All steps of a run account for everything exactly if the handler
  never finds anything but completions.
-/

namespace Wujian100

namespace Driver

namespace DmacInts

/-! ## One run of the handler -/

section Handler

variable {cb : Nat → Bool} {s : DmacInts}

/-- A channel is done and this was not acknowledged. -/
abbrev IsDone (s : DmacInts) (i : Nat) : Prop :=
  (s.chints i).getLsbD 1 = true

/-- The handler looks at a channel: none before it is done. -/
def Scanned (s : DmacInts) (i : Nat) : Prop :=
  i < dmaChannelNum ∧ ∀ j < i, ¬s.IsDone j

theorem tfr_ne_zero_iff (x : BitVec 32) : x &&& wjDmaTfr ≠ 0 ↔ x.getLsbD 1 = true := by
  have htwo : wjDmaTfr = BitVec.twoPow 32 1 := by
    rfl
  rw [htwo, BitVec.and_twoPow]
  by_cases h : x.getLsbD 1 = true
  · rw [if_pos h]
    exact ⟨fun _ => h, fun _ => by decide⟩
  · rw [if_neg h]
    exact ⟨fun hne => absurd rfl hne, fun hbit => absurd hbit h⟩

theorem acknowledge_self (s : DmacInts) (i : Nat) (bits : BitVec 32) :
    (s.acknowledge i bits).chints i = s.chints i &&& ~~~bits :=
  Function.update_self _ _ _

theorem acknowledge_of_ne (s : DmacInts) {i j : Nat} (bits : BitVec 32) (h : j ≠ i) :
    (s.acknowledge i bits).chints j = s.chints j :=
  Function.update_of_ne h _ _

/-- The loop from a channel on: it ends at the first that is done, or behind the last, and
    what it passes is acknowledged. -/
theorem scan_spec (n : Nat) (s : DmacInts) (i : Nat) (temp : BitVec 32) :
    ∃ e, i ≤ e ∧ e ≤ i + n ∧ (scan n s i temp).2.1 = e ∧
      (∀ j, i ≤ j → j < e → ¬s.IsDone j) ∧
      (e < i + n → s.IsDone e ∧ (scan n s i temp).2.2 = s.chints e) ∧
      (scan n s i temp).1.events = s.events ∧
      ∀ j, (scan n s i temp).1.chints j
        = if i ≤ j ∧ j ≤ e ∧ j < i + n then s.chints j &&& ~~~wjDmaIntc
          else s.chints j := by
  induction n generalizing s i temp with
  | zero =>
      refine ⟨i, Nat.le_refl i, Nat.le_refl i, rfl, ?_, ?_, rfl, ?_⟩
      · intro j hlow hhigh
        omega
      · intro hlt
        omega
      · intro j
        rw [if_neg (by omega)]
        rfl
  | succ n ih =>
      rw [scan]
      by_cases hdone : s.IsDone i
      · rw [if_pos ((tfr_ne_zero_iff _).mpr hdone)]
        refine ⟨i, Nat.le_refl i, by omega, rfl, ?_, fun _ => ⟨hdone, rfl⟩, rfl, ?_⟩
        · intro j hlow hhigh
          omega
        · intro j
          by_cases hj : j = i
          · subst hj
            rw [if_pos (by omega)]
            exact acknowledge_self s j wjDmaIntc
          · rw [if_neg (by omega)]
            exact acknowledge_of_ne s wjDmaIntc hj
      · rw [if_neg (mt (tfr_ne_zero_iff _).mp hdone)]
        rcases ih (s.acknowledge i wjDmaIntc) (i + 1) (s.chints i) with
          ⟨e, hlow, hhigh, hend, hnone, htemp, hevents, hchints⟩
        -- Behind the first channel the acknowledged bits are as they were.
        have hbehind : ∀ j, i + 1 ≤ j →
            (s.acknowledge i wjDmaIntc).chints j = s.chints j := fun j hj =>
          acknowledge_of_ne s wjDmaIntc (by omega)
        refine ⟨e, by omega, by omega, hend, ?_, ?_, hevents, ?_⟩
        · intro j hj hlt
          by_cases hji : j = i
          · rw [hji]
            exact hdone
          · have hjnone := hnone j (by omega) hlt
            unfold IsDone at hjnone
            rw [hbehind j (by omega)] at hjnone
            exact hjnone
        · intro hlt
          have hdone := htemp (by omega)
          unfold IsDone at hdone
          rw [hbehind e hlow] at hdone
          exact hdone
        · intro j
          rw [hchints j]
          by_cases hji : j = i
          · subst hji
            rw [if_neg (by omega), if_pos (by omega), acknowledge_self]
          · rw [acknowledge_of_ne s wjDmaIntc hji]
            by_cases hin : i + 1 ≤ j ∧ j ≤ e ∧ j < i + 1 + n
            · rw [if_pos hin, if_pos (by omega)]
            · rw [if_neg hin, if_neg (by omega)]

theorem chints_tell (s : DmacInts) (i : Nat) (e : DmaEvent) :
    (tell cb s i e).chints = s.chints := by
  unfold tell
  split
  · rfl
  · rfl

/-- One run: it ends at the first channel that is done, and tells about that one. -/
theorem irqhandler_cases (cb : Nat → Bool) (s : DmacInts) :
    (∃ e, s.Scanned e ∧ s.IsDone e ∧ (irqhandler cb s).events
        = if cb e = true then s.events ++ [(e, .transferDone)] else s.events) ∨
      ((∀ j < dmaChannelNum, ¬s.IsDone j) ∧ (irqhandler cb s).events = s.events) := by
  rcases scan_spec dmaChannelNum s 0 0#32 with ⟨e, -, hle, hend, hnone, htemp, hevents, -⟩
  unfold irqhandler
  dsimp only
  rw [hend]
  by_cases hlt : e < dmaChannelNum
  · left
    rcases htemp (by omega) with ⟨hdone, hbits⟩
    have hbit := (tfr_ne_zero_iff _).mpr hdone
    refine ⟨e, ⟨hlt, fun j hj => hnone j (Nat.zero_le j) hj⟩, hdone, ?_⟩
    rw [if_neg (Nat.not_le.mpr hlt), hbits, if_pos (.inl hbit), if_pos hbit]
    unfold tell
    rw [← hevents]
    split
    · rfl
    · rfl
  · right
    refine ⟨fun j hj => hnone j (Nat.zero_le j) (by omega), ?_⟩
    rw [if_pos (Nat.not_lt.mp hlt)]
    exact hevents

instance (s : DmacInts) (i : Nat) : Decidable (s.Scanned i) :=
  inferInstanceAs (Decidable (_ ∧ _))

/-- What is looked at is acknowledged. -/
theorem irqhandler_chints (cb : Nat → Bool) (s : DmacInts) (j : Nat) : (irqhandler cb s).chints j
    = if s.Scanned j then s.chints j &&& ~~~wjDmaIntc else s.chints j := by
  rcases scan_spec dmaChannelNum s 0 0#32 with ⟨e, -, hle, hend, hnone, htemp, -, hchints⟩
  have hscanned : s.Scanned j ↔ 0 ≤ j ∧ j ≤ e ∧ j < 0 + dmaChannelNum := by
    unfold Scanned
    constructor
    · rintro ⟨hj, hbefore⟩
      refine ⟨Nat.zero_le j, Nat.not_lt.mp fun hlt => ?_, by omega⟩
      exact hbefore e hlt (htemp (by omega)).1
    · rintro ⟨-, hje, hj⟩
      exact ⟨by omega, fun k hk => hnone k (Nat.zero_le k) (by omega)⟩
  have hscan : (irqhandler cb s).chints j = (scan dmaChannelNum s 0 0#32).1.chints j := by
    unfold irqhandler
    dsimp only
    rw [hend]
    by_cases hlt : e < dmaChannelNum
    · have hbit := (tfr_ne_zero_iff _).mpr (htemp (by omega)).1
      rw [if_neg (Nat.not_le.mpr hlt), (htemp (by omega)).2, if_pos (.inl hbit), if_pos hbit,
        chints_tell]
    · rw [if_pos (Nat.not_lt.mp hlt)]
  rw [hscan, hchints j]
  exact if_congr hscanned.symm rfl rfl

/-- A completion that is looked at is told about, and no other. -/
theorem count_done (cb : Nat → Bool) (s : DmacInts) {i : Nat} (hi : i < dmaChannelNum)
    (hcb : cb i = true) : (irqhandler cb s).events.count (i, .transferDone)
      = s.events.count (i, .transferDone) + if s.Scanned i ∧ s.IsDone i then 1 else 0 := by
  rcases irqhandler_cases cb s with ⟨e, hscanned, hdone, hevents⟩ | ⟨hnone, hevents⟩
  · rw [hevents]
    -- Two channels that are done are not both looked at.
    have honly : s.Scanned i ∧ s.IsDone i ↔ e = i := by
      constructor
      · rintro ⟨hscan, hd⟩
        by_contra hne
        rcases Nat.lt_or_gt_of_ne hne with hlt | hgt
        · exact hscan.2 e hlt hdone
        · exact hscanned.2 i hgt hd
      · rintro rfl
        exact ⟨hscanned, hdone⟩
    by_cases hei : e = i
    · rw [if_pos (honly.mpr hei), hei, if_pos hcb, List.count_append, List.count_singleton_self]
    · rw [if_neg (mt honly.mp hei)]
      split
      · have hpair : ((e, DmaEvent.transferDone) == (i, DmaEvent.transferDone)) = false := by
          simp [hei]
        rw [List.count_append, List.count_singleton, hpair]
        rfl
      · rfl
  · rw [hevents, if_neg fun h => hnone i hi h.2]
    rfl

/-- An error is never told about. -/
theorem count_error (cb : Nat → Bool) (s : DmacInts) (i : Nat) :
    (irqhandler cb s).events.count (i, .transferError)
      = s.events.count (i, .transferError) := by
  rcases irqhandler_cases cb s with ⟨e, -, -, hevents⟩ | ⟨-, hevents⟩
  · rw [hevents]
    split
    · have hpair : ((e, DmaEvent.transferDone) == (i, DmaEvent.transferError)) = false := by
        simp
      rw [List.count_append, List.count_singleton, hpair]
      rfl
    · rfl
  · rw [hevents]

/-! ## Runs of the handler alone -/

theorem isDone_irqhandler (cb : Nat → Bool) (s : DmacInts) (i : Nat) :
    (irqhandler cb s).IsDone i ↔ s.IsDone i ∧ ¬s.Scanned i := by
  have hmask : (~~~wjDmaIntc).getLsbD 1 = false := by
    decide
  unfold IsDone
  rw [irqhandler_chints]
  by_cases hscanned : s.Scanned i
  · rw [if_pos hscanned, BitVec.getLsbD_and, hmask, Bool.and_false]
    exact ⟨fun h => absurd h Bool.false_ne_true, fun h => absurd hscanned h.2⟩
  · rw [if_neg hscanned]
    exact ⟨fun h => ⟨h, hscanned⟩, And.left⟩

/-- Each run of the handler gets at least one channel further. -/
theorem irqs_clear (cb : Nat → Bool) (s : DmacInts) (n : Nat) :
    ∀ i < n, i < dmaChannelNum → ¬((irqhandler cb)^[n] s).IsDone i := by
  induction n with
  | zero =>
      intro i hi
      omega
  | succ n ih =>
      intro i hi hch
      rw [Function.iterate_succ_apply', isDone_irqhandler]
      rintro ⟨hdone, hscanned⟩
      rcases Nat.lt_succ_iff_lt_or_eq.mp hi with hlt | rfl
      · exact ih i hlt hch hdone
      · exact hscanned ⟨hch, fun j hj => ih j hj (by omega)⟩

/-- As many runs as there are channels leave no completion. -/
theorem irqs_drain (cb : Nat → Bool) (s : DmacInts) :
    ∀ i < dmaChannelNum, ¬((irqhandler cb)^[dmaChannelNum] s).IsDone i :=
  fun i hi => irqs_clear cb s dmaChannelNum i hi hi

end Handler

end DmacInts

/-! ## Runs with an account -/

/-- What happens: bits of a channel become pending, or the handler runs. -/
inductive DmacCause where
  | raise (ch : Nat) (bits : BitVec 32)
  | irq

/-- The interrupts, with how often each channel was done and failed and the bits that were
    ever pending. A bit that is pending does not become so again. -/
structure Watched where
  ints : DmacInts
  completions : Nat → Nat
  failures : Nat → Nat
  seen : Nat → BitVec 32

namespace Watched

/-- A bit is among the new ones, and was not pending. -/
def newly (old bits : BitVec 32) (b : Nat) : Bool :=
  bits.getLsbD b && !old.getLsbD b

def next (cb : Nat → Bool) (s : Watched) : DmacCause → Watched
  | .raise ch bits =>
      let old := s.ints.chints ch
      { ints := { s.ints with chints := Function.update s.ints.chints ch (old ||| bits) }
        completions := Function.update s.completions ch
          (s.completions ch + (newly old bits 1).toNat)
        failures := Function.update s.failures ch (s.failures ch + (newly old bits 0).toNat)
        seen := Function.update s.seen ch (s.seen ch ||| bits) }
  | .irq => { s with ints := s.ints.irqhandler cb }

/-- Any of these can happen at any time. -/
def step (cb : Nat → Bool) (s : Watched) (a : DmacCause) : Option Watched :=
  some (s.next cb a)

/-- Any bits are pending, and nothing was told about. -/
def init (chints : Nat → BitVec 32) : Watched where
  ints := { chints := chints, events := [] }
  completions := fun i => ((chints i).getLsbD 1).toNat
  failures := fun i => ((chints i).getLsbD 0).toNat
  seen := chints

/-- For a channel with a callback, every completion and every error was told once or is
    pending, and every other bit that ever was is. -/
def Accounted (cb : Nat → Bool) (s : Watched) : Prop :=
  ∀ i < dmaChannelNum, cb i = true →
    s.ints.events.count (i, .transferDone) + ((s.ints.chints i).getLsbD 1).toNat
        = s.completions i ∧
      s.ints.events.count (i, .transferError) + ((s.ints.chints i).getLsbD 0).toNat
        = s.failures i ∧
      ∀ b, 2 ≤ b → (s.ints.chints i).getLsbD b = (s.seen i).getLsbD b

/-- What happens leaves that. -/
def Sound (cb : Nat → Bool) (s : Watched) (a : DmacCause) : Prop :=
  (s.next cb a).Accounted cb

/-- Where the handler looks it finds, of the bits it acknowledges, nothing but completions. -/
def Quiet (cb : Nat → Bool) (s : Watched) : DmacCause → Prop
  | .raise _ _ => True
  | .irq => ∀ i, s.ints.Scanned i → cb i = true →
      ∀ b < 5, b ≠ 1 → (s.ints.chints i).getLsbD b = false

section Account

variable {cb : Nat → Bool} {s : Watched}

theorem acknowledged_getLsbD (x : BitVec 32) (b : Nat) :
    (x &&& ~~~wjDmaIntc).getLsbD b = (x.getLsbD b && decide (5 ≤ b)) := by
  have hmask : ∀ b < 32, (~~~wjDmaIntc).getLsbD b = decide (5 ≤ b) := by
    decide
  rw [BitVec.getLsbD_and]
  by_cases hb : b < 32
  · rw [hmask b hb]
  · rw [BitVec.getLsbD_of_ge x b (Nat.not_lt.mp hb), Bool.false_and, Bool.false_and]

/-- A bit that becomes pending was counted. -/
theorem count_newly (old bits : BitVec 32) (b : Nat) {told total : Nat}
    (h : told + (old.getLsbD b).toNat = total) :
    told + ((old ||| bits).getLsbD b).toNat = total + (newly old bits b).toNat := by
  unfold newly
  rw [BitVec.getLsbD_or, ← h]
  cases old.getLsbD b with
  | false =>
      cases bits.getLsbD b with
      | false => rfl
      | true => rfl
  | true =>
      cases bits.getLsbD b with
      | false => rfl
      | true => rfl

theorem raise_accounted (h : s.Accounted cb) (ch : Nat) (bits : BitVec 32) :
    (s.next cb (.raise ch bits)).Accounted cb := by
  intro i hi hcb
  rcases h i hi hcb with ⟨hdone, herror, hother⟩
  unfold next
  dsimp only
  by_cases hch : i = ch
  · subst hch
    rw [Function.update_self, Function.update_self, Function.update_self, Function.update_self]
    refine ⟨count_newly _ bits 1 hdone, count_newly _ bits 0 herror, fun b hb => ?_⟩
    rw [BitVec.getLsbD_or, BitVec.getLsbD_or, hother b hb]
  · rw [Function.update_of_ne hch, Function.update_of_ne hch, Function.update_of_ne hch,
      Function.update_of_ne hch]
    exact ⟨hdone, herror, hother⟩

/-- The handler accounts for everything exactly if it finds nothing but completions. -/
theorem irq_accounted_iff (h : s.Accounted cb) :
    (s.next cb .irq).Accounted cb ↔ s.Quiet cb .irq := by
  constructor
  · intro hafter i hscanned hcb b hb hne
    rcases h i hscanned.1 hcb with ⟨-, herror, hother⟩
    rcases hafter i hscanned.1 hcb with ⟨-, herror', hother'⟩
    have hcleared : ∀ k < 5, ((s.next cb .irq).ints.chints i).getLsbD k = false := by
      intro k hk
      change ((s.ints.irqhandler cb).chints i).getLsbD k = false
      rw [DmacInts.irqhandler_chints, if_pos hscanned, acknowledged_getLsbD,
        decide_eq_false (Nat.not_le.mpr hk), Bool.and_false]
    by_cases hzero : b = 0
    · -- The error that was pending is not, and nobody was told.
      subst hzero
      rw [hcleared 0 (by decide)] at herror'
      change (s.ints.irqhandler cb).events.count _ + 0 = s.failures i at herror'
      rw [DmacInts.count_error] at herror'
      cases hbit : (s.ints.chints i).getLsbD 0 with
      | false => rfl
      | true =>
          rw [hbit] at herror
          change _ + 1 = s.failures i at herror
          omega
    · rw [hother b (by omega)]
      exact (hother' b (by omega)).symm.trans (hcleared b hb)
  · intro hquiet i hi hcb
    rcases h i hi hcb with ⟨hdone, herror, hother⟩
    have hchints := DmacInts.irqhandler_chints cb s.ints i
    -- Bits other than the completion are as they were.
    have hkept : ∀ b, b ≠ 1 →
        ((s.ints.irqhandler cb).chints i).getLsbD b = (s.ints.chints i).getLsbD b := by
      intro b hb
      rw [hchints]
      by_cases hscanned : s.ints.Scanned i
      · rw [if_pos hscanned, acknowledged_getLsbD]
        by_cases hfive : 5 ≤ b
        · rw [decide_eq_true hfive, Bool.and_true]
        · rw [decide_eq_false hfive, Bool.and_false]
          exact (hquiet i hscanned hcb b (by omega) hb).symm
      · rw [if_neg hscanned]
    refine ⟨?_, ?_, ?_⟩
    · change (s.ints.irqhandler cb).events.count _ + _ = s.completions i
      rw [DmacInts.count_done cb s.ints hi hcb, ← hdone]
      change _ + _ + (((s.ints.irqhandler cb).chints i).getLsbD 1).toNat = _
      have hafter := DmacInts.isDone_irqhandler cb s.ints i
      by_cases hdone : s.ints.IsDone i
      · have hbit : (s.ints.chints i).getLsbD 1 = true := hdone
        by_cases hscanned : s.ints.Scanned i
        · have hgone : ((s.ints.irqhandler cb).chints i).getLsbD 1 = false :=
            Bool.eq_false_iff.mpr fun ht => (hafter.mp ht).2 hscanned
          rw [if_pos ⟨hscanned, hdone⟩, hgone, hbit]
          rfl
        · have hstill : ((s.ints.irqhandler cb).chints i).getLsbD 1 = true :=
            hafter.mpr ⟨hdone, hscanned⟩
          rw [if_neg fun hs => hscanned hs.1, hstill, hbit]
          rfl
      · have hbit : (s.ints.chints i).getLsbD 1 = false := Bool.eq_false_iff.mpr hdone
        have hnone : ((s.ints.irqhandler cb).chints i).getLsbD 1 = false :=
          Bool.eq_false_iff.mpr fun ht => hdone (hafter.mp ht).1
        rw [if_neg fun hs => hdone hs.2, hnone, hbit]
        rfl
    · change (s.ints.irqhandler cb).events.count _ + _ = s.failures i
      rw [DmacInts.count_error]
      change _ + (((s.ints.irqhandler cb).chints i).getLsbD 0).toNat = _
      rw [hkept 0 (by decide)]
      exact herror
    · intro b hb
      exact (hkept b (by omega)).trans (hother b hb)

theorem sound_iff (h : s.Accounted cb) (a : DmacCause) : s.Sound cb a ↔ s.Quiet cb a := by
  cases a with
  | raise ch bits => exact ⟨fun _ => trivial, fun _ => raise_accounted h ch bits⟩
  | irq => exact irq_accounted_iff h

theorem init_accounted (cb : Nat → Bool) (chints : Nat → BitVec 32) :
    (init chints).Accounted cb :=
  fun _ _ _ => ⟨Nat.zero_add _, Nat.zero_add _, fun _ _ => rfl⟩

/-- Whatever is pending at first, all steps of a run account for everything exactly if the
    handler never finds anything but completions; and completions are all told about if it
    runs often enough. -/
theorem reports_iff (cb : Nat → Bool) (chints : Nat → BitVec 32) (as : List DmacCause) :
    (Run.Along (step cb) (Sound cb) (init chints) as ↔
        Run.Along (step cb) (Quiet cb) (init chints) as) ∧
      ∀ s : DmacInts, ∀ i < dmaChannelNum,
        ¬((DmacInts.irqhandler cb)^[dmaChannelNum] s).IsDone i := by
  refine ⟨?_, DmacInts.irqs_drain cb⟩
  refine Run.along_iff ?_ (fun s a h => sound_iff h a) as (init chints) (init_accounted cb chints)
  intro s a t hinv hquiet hstep
  cases hstep
  exact (sound_iff hinv a).mpr hquiet

/-- An error that is pending on the only channel is acknowledged and nobody is told. -/
theorem error_lost :
    ¬∀ as : List DmacCause, Run.Along (step fun _ => true) (Sound fun _ => true)
      (init fun i => if i = 0 then 1#32 else 0#32) as := by
  intro hall
  have herror := ((hall [.irq]).1 0 (by decide) rfl).2.1
  revert herror
  decide

end Account

end Watched

end Driver

end Wujian100
