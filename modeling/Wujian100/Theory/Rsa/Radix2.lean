import Wujian100.Core.Rsa.Radix2
import Wujian100.Library.Moore
import Wujian100.Theory.Rsa.R2mm

/-!
# Runs of the Radix-2 Exponentiation

`me_top` counts the bits of the exponent with `loop_counter`, and stops when it
has counted `K` of them. Nothing sets the counter back: after the first run it
stays at `K`, and in every later run it has to go all the way round before the
loop ends. By then the exponent has long been used up, and the power has been
squared `2 ** K - K` times more.

`skip_flag` stays up after a run whose last bit was clear. In the next run it is
taken for the answer to the first multiplication, so the highest bit of the
exponent is lost.

## Main definitions

* `R2Params.Valid`: The constants belong to one odd modulus.
* `Asked`, `Given`: A product is asked for, and there.
* `AtSquare`, `AtLast`: The stages of a run.
* `Resting`: Between runs.
* `Served`: The states between runs, with the requests so far.

## Theorems

* `emits_product`: A product.
* `emits_radix2_bit`, `emits_first_bit`: A bit of the exponent.
* `emits_run`: A run.
* `power_answered_iff`: When a run ends with the power.
-/

namespace Wujian100

namespace Rsa

/-- The constants belong to one odd modulus, and the width is one the unit has
    counters for. -/
structure R2Params.Valid (p : R2Params) : Prop where
  two_le : 2 ≤ p.K
  even : p.K % 2 = 0
  lt : p.K < 8191
  odd : p.meM % 2 = 1
  one_lt : 1 < p.meM
  m_lt : p.meM < 2 ^ p.K
  rou : p.rou = 2 ^ (2 * p.K) % p.meM
  mmRou1 : p.mmRou1 = 2 ^ p.K % p.meM

theorem R2Params.Valid.m_pos {p : R2Params} (h : p.Valid) : 0 < p.meM :=
  Nat.lt_trans Nat.zero_lt_one h.one_lt

/-- The shipped constants do. -/
theorem valid_shippedR2 : shippedR2.Valid := by
  refine ⟨by decide, by decide, by decide, by decide +kernel, by decide +kernel,
    by decide +kernel, by decide +kernel, by decide +kernel⟩

/-! ## The unit -/

/-- The unit is not busy and has not just seen a request. -/
structure R2mm2n.Quiet (u : R2mm2n) : Prop where
  sel : u.sel = 0
  buf0 : u.buf0 % 2 = 0

section Unit

variable {K : Nat} {u : R2mm2n} {i : R2mmIn}

theorem buf0_step : (u.step K i).buf0 = 2 * (u.buf0 % 2) + i.req.toNat := by
  unfold R2mm2n.step
  dsimp only
  split
  · rfl
  · split
    · split <;> rfl
    · rfl

/-- A clock without a request. -/
theorem R2mm2n.Quiet.step (h : u.Quiet) (hreq : i.req = false) :
    (u.step K i).Quiet ∧ (u.step K i).val = false ∧ (u.step K i).res = u.res := by
  have hbuf := buf0_step (K := K) (u := u) (i := i)
  have hpp : u.reqPp = false := by
    have := h.buf0
    unfold R2mm2n.reqPp
    rw [beq_eq_false_iff_ne]
    omega
  refine ⟨⟨?_, ?_⟩, ?_, ?_⟩
  · simp [R2mm2n.step, hpp, h.sel]
  · rw [hbuf, hreq, Bool.toNat_false]
    omega
  · simp [R2mm2n.step, hpp, h.sel]
  · simp [R2mm2n.step, hpp, h.sel]

/-- The clock of the result leaves the unit quiet. -/
theorem quiet_last (hsel : u.sel = K - 2) (hK : 4 ≤ K) (hreq : i.req = false) :
    (u.step K i).Quiet := by
  have hbuf := buf0_step (K := K) (u := u) (i := i)
  refine ⟨?_, ?_⟩
  · unfold R2mm2n.step
    dsimp only
    rw [if_neg (by omega), if_pos (by omega), if_pos hsel]
  · rw [hbuf, hreq, Bool.toNat_false]
    omega

end Unit

/-! ## Clocks -/

namespace Radix2

/-- A clock whose inputs are not looked at. -/
def tick (p : R2Params) (s : Radix2) : Radix2 := s.step p ⟨false, 0, 0⟩

/-- `me_valid`, and whether a run is going on. -/
def view (s : Radix2) : Bool × Bool := (s.resultValid, decide (s.currentStage ≠ .idle))

/-- In the course of a run. -/
def working : Bool × Bool := (false, true)

theorem step_working (p : R2Params) {s : Radix2} (h : s.view = working) (i : In) :
    s.step p i = s.tick p := by
  have hst : s.currentStage ≠ .idle := of_decide_eq_true (congrArg Prod.snd h)
  cases hq : s.currentStage with
  | idle => exact absurd hq hst
  | _ => simp only [tick, step, hq]

theorem view_eq {s : Radix2} (hvalid : s.resultValid = false) (hst : s.currentStage ≠ .idle) :
    s.view = working := by
  rw [view, hvalid, decide_eq_true hst]
  rfl

/-- A clock of waiting for the unit. -/
theorem tick_wait (p : R2Params) {s : Radix2} (hst : s.currentStage ≠ .idle)
    (hval : s.unit.val = false) (hskip : s.currentStage = .stage10 → s.skipFlag = false) :
    s.tick p = { s with mmReq := false, unit := s.unit.step p.K (s.unitIn p) } := by
  cases hq : s.currentStage with
  | idle => exact absurd hq hst
  | stage10 => simp [tick, step, hq, hval, hskip hq]
  | _ => simp [tick, step, hq, hval]

end Radix2

/-! ## A product -/

/-- A product is asked for, or the unit has just started on it. -/
structure Asked (p : R2Params) (a b : Nat) (s : Radix2) : Prop where
  mmX : s.mmX = a
  mmY : s.mmY = b
  unit : (s.mmReq = true ∧ s.unit.Quiet ∧ s.unit.val = false) ∨
    (Accumulating a b p.meM 0 s.unit ∧ s.unit.buf0 = 1)

/-- A product is there. -/
structure Given (z : Nat) (u : R2mm2n) : Prop where
  val : u.val = true
  res : u.res = z
  quiet : u.Quiet

section Product

variable {p : R2Params} {a b : Nat} {s : Radix2}

/-- The unit is on its way. -/
structure OnWay (p : R2Params) (a b : Nat) (base : Radix2) (k : Nat) (s : Radix2) : Prop where
  rest : ∃ r u, s = { base with mmReq := r, unit := u }
  unit : Accumulating a b p.meM k s.unit
  edge : k = 0 → s.unit.buf0 = 1
  req : 0 < k → s.mmReq = false

variable (hv : p.Valid) (hK : 4 ≤ p.K) (ha : a < 2 ^ p.K) (hb : b < p.meM)

include hv hK ha hb in
/-- The clocks of the unit after the edge of the request. -/
theorem emits_started (hx : s.mmX = a) (hy : s.mmY = b) (hview : s.view = Radix2.working)
    (hskip : s.currentStage = .stage10 → s.skipFlag = false)
    (hunit : Accumulating a b p.meM 0 s.unit) (hedge : s.unit.buf0 = 1) :
    ∃ n u, Emits (Radix2.tick p) Radix2.view s (List.replicate n Radix2.working)
        { s with mmReq := false, unit := u } ∧ Given (montMul p.meM (2 ^ p.K) a b) u := by
  have hst : s.currentStage ≠ .idle := of_decide_eq_true (congrArg Prod.snd hview)
  have htick : ∀ k t, OnWay p a b s k t →
      t.tick p = { s with mmReq := false, unit := t.unit.step p.K ⟨a, b, p.meM, t.mmReq⟩ } := by
    intro k t ht
    rcases ht.rest with ⟨r, u, rfl⟩
    rw [Radix2.tick_wait p (s := { s with mmReq := r, unit := u }) hst ht.unit.val hskip]
    simp only [Radix2.unitIn, hx, hy]
  have hshow : ∀ k t, OnWay p a b s k t → t.view = Radix2.working := by
    intro k t ht
    rcases ht.rest with ⟨r, u, rfl⟩
    exact hview
  have hnext : ∀ k t, k < p.K / 2 - 1 → OnWay p a b s k t → OnWay p a b s (k + 1) (t.tick p) := by
    intro k t hk ht
    rw [htick k t ht]
    exact ⟨⟨_, _, rfl⟩,
      accumulating_step hv.lt hv.odd hv.m_lt hb ht.unit (by omega) ht.edge _,
      fun h0 => absurd h0 (Nat.succ_ne_zero k), fun _ => rfl⟩
  rcases emits_silent (Radix2.tick p) Radix2.view (P := OnWay p a b s) (n := p.K / 2 - 1)
    (fun k t _ ht => hshow k t ht) hnext (Nat.zero_le _)
    ⟨⟨s.mmReq, s.unit, rfl⟩, hunit, fun _ => hedge, fun h0 => absurd h0 (Nat.lt_irrefl 0)⟩ with
    ⟨t, ht, hlast⟩
  -- The last clock subtracts.
  have hreq : t.mmReq = false := hlast.req (by omega)
  rcases accumulating_last hK hv.even hv.odd hv.m_lt ha hb hlast.unit t.mmReq with ⟨hval, hres⟩
  have hall := ht.replicate_succ (hshow _ t hlast)
  rw [htick _ t hlast] at hall
  refine ⟨_, t.unit.step p.K ⟨a, b, p.meM, t.mmReq⟩, hall, hval, hres, ?_⟩
  · refine quiet_last ?_ hK hreq
    rw [hlast.unit.sel]
    have := hv.even
    omega

include hv hK ha hb in
/-- A product. -/
theorem emits_product (h : Asked p a b s) (hview : s.view = Radix2.working)
    (hskip : s.currentStage = .stage10 → s.skipFlag = false) :
    ∃ n u, Emits (Radix2.tick p) Radix2.view s (List.replicate n Radix2.working)
        { s with mmReq := false, unit := u } ∧ Given (montMul p.meM (2 ^ p.K) a b) u := by
  rcases h.unit with ⟨hreq, hquiet, hval⟩ | ⟨hunit, hedge⟩
  · -- The edge of the request is seen.
    have hst : s.currentStage ≠ .idle := of_decide_eq_true (congrArg Prod.snd hview)
    have htick := Radix2.tick_wait p hst hval hskip
    rcases accumulating_start (K := p.K) (x := a) (y := b) (m := p.meM) (i := s.unitIn p)
      hquiet.sel hquiet.buf0 hreq with ⟨hunit, hedge⟩
    have hone : Emits (Radix2.tick p) Radix2.view s (List.replicate 1 Radix2.working) _ :=
      ⟨hview, htick⟩
    rcases emits_started hv hK ha hb
      (s := { s with mmReq := false, unit := s.unit.step p.K (s.unitIn p) }) h.mmX h.mmY hview
      hskip hunit hedge with ⟨n, u, hn, hgiven⟩
    exact ⟨1 + n, u, hone.replicate_add hn, hgiven⟩
  · exact emits_started hv hK ha hb h.mmX h.mmY hview hskip hunit hedge

end Product

/-! ## A bit of the exponent -/

/-- One more bit of `y`, from the top of `K` bits down. -/
theorem div_succ_bit {K : Nat} (hK : 0 < K) (y i : Nat) :
    y * 2 ^ (i + 1) / 2 ^ K
      = y * 2 ^ i / 2 ^ K + y * 2 ^ i / 2 ^ K
        + (if (y * 2 ^ i % 2 ^ K).testBit (K - 1) then 1 else 0) := by
  obtain ⟨k, rfl⟩ : ∃ k, K = k + 1 := ⟨K - 1, by omega⟩
  rw [pow_succ 2 i, ← Nat.mul_assoc, Nat.add_sub_cancel, Nat.testBit_eq_decide_div_mod_eq]
  generalize y * 2 ^ i = v
  have hdiv := Nat.div_add_mod v (2 ^ (k + 1))
  have hhalf := Nat.div_add_mod (v % 2 ^ (k + 1)) (2 ^ k)
  have hlow : v % 2 ^ (k + 1) % 2 ^ k < 2 ^ k := Nat.mod_lt _ (Nat.two_pow_pos k)
  have hbit : v % 2 ^ (k + 1) / 2 ^ k < 2 := by
    refine Nat.div_lt_of_lt_mul ?_
    rw [← pow_succ]
    exact Nat.mod_lt _ (Nat.two_pow_pos _)
  generalize v % 2 ^ (k + 1) / 2 ^ k = b at hhalf hbit
  have hb : (if decide (b % 2 = 1) = true then 1 else 0) = b := by
    have hcases : b = 0 ∨ b = 1 := by omega
    rcases hcases with rfl | rfl <;> rfl
  rw [hb]
  generalize v / 2 ^ (k + 1) = q at hdiv
  generalize v % 2 ^ (k + 1) % 2 ^ k = l at hhalf hlow
  have hsum : v * 2 = 2 * l + 2 ^ (k + 1) * (q + q + b) := by
    rw [← hdiv, ← hhalf, pow_succ]
    ring
  rw [hsum, Nat.add_mul_div_left _ _ (Nat.two_pow_pos _), Nat.div_eq_of_lt (by rw [pow_succ]; omega),
    Nat.zero_add]

section Bits

variable {p : R2Params} {x y lc i : Nat} {s : Radix2}

/-- The squaring for bit `i` is asked for, from the top of the exponent down; the
    bits above have been used, and the counter was at `lc` to begin with. -/
structure AtSquare (p : R2Params) (x y lc : Nat) (flag : Bool) (i : Nat) (s : Radix2) :
    Prop where
  stage : s.currentStage = .stage11
  valid : s.resultValid = false
  power : ∃ a, MontPower p.meM (2 ^ p.K) x (y * 2 ^ i / 2 ^ p.K) a ∧ Asked p a a s
  result2 : MontPower p.meM (2 ^ p.K) x 1 s.result2
  yy : s.yy = y * 2 ^ i % 2 ^ p.K
  counter : s.loopCounter = (lc + i) % 2 ^ p.K
  skip : s.skipFlag = flag

/-- The loop is over and the last product is asked for. -/
structure AtLast (p : R2Params) (x e : Nat) (flag : Bool) (s : Radix2) : Prop where
  stage : s.currentStage = .stage2
  valid : s.resultValid = false
  power : ∃ a, MontPower p.meM (2 ^ p.K) x e a ∧ Asked p a 1 s
  counter : s.loopCounter = p.K
  skip : s.skipFlag = flag

/-- The bit of the exponent that is looked at after `i` others. -/
def topBit (p : R2Params) (y i : Nat) : Bool := (y * 2 ^ i % 2 ^ p.K).testBit (p.K - 1)

/-- After a bit, when its last product is there. -/
structure AtBitEnd (p : R2Params) (x e : Nat) (s : Radix2) : Prop where
  stage : s.currentStage = .stage10
  valid : s.resultValid = false
  go : (s.unit.val || s.skipFlag) = true
  quiet : s.unit.Quiet
  req : s.mmReq = false
  power : MontPower p.meM (2 ^ p.K) x e s.unit.res
  result2 : MontPower p.meM (2 ^ p.K) x 1 s.result2

/-- Asking a quiet unit. -/
theorem asked_of_quiet {a b : Nat} (hquiet : s.unit.Quiet) (hval : s.unit.val = false)
    (hreq : s.mmReq = true) (hx : s.mmX = a) (hy : s.mmY = b) : Asked p a b s :=
  ⟨hx, hy, Or.inl ⟨hreq, hquiet, hval⟩⟩

/-- From one bit to the next, or out of the loop. -/
theorem bitEnd_tick {yy : Nat} (h : AtBitEnd p x (y * 2 ^ i / 2 ^ p.K) s)
    (hyy : s.yy = yy) (hflag : yy = y * 2 ^ i % 2 ^ p.K)
    (hcounter : s.loopCounter = (lc + i) % 2 ^ p.K) :
    (s.loopCounter = p.K → AtLast p x (y * 2 ^ i / 2 ^ p.K) s.skipFlag (s.tick p)) ∧
      (s.loopCounter ≠ p.K → AtSquare p x y lc false i (s.tick p)) := by
  rcases h.quiet.step (K := p.K) (i := s.unitIn p) h.req with ⟨hquiet, hval, _⟩
  refine ⟨?_, ?_⟩
  · intro hc
    have htick : s.tick p = { s with
        mmReq := true, mmX := s.unit.res, mmY := 1, currentStage := .stage2
        unit := s.unit.step p.K (s.unitIn p) } := by
      simp [Radix2.tick, Radix2.step, h.stage, h.go, hc]
    rw [htick]
    exact ⟨rfl, h.valid, ⟨_, h.power, asked_of_quiet hquiet hval rfl rfl rfl⟩, hc, rfl⟩
  · intro hc
    have htick : s.tick p = { s with
        skipFlag := false, mmReq := true, mmX := s.unit.res, mmY := s.unit.res
        currentStage := .stage11, unit := s.unit.step p.K (s.unitIn p) } := by
      simp [Radix2.tick, Radix2.step, h.stage, h.go, hc]
    rw [htick]
    exact ⟨rfl, h.valid, ⟨_, h.power, asked_of_quiet hquiet hval rfl rfl rfl⟩, h.result2,
      hyy.trans hflag, hcounter, rfl⟩

variable (hv : p.Valid) (hK : 4 ≤ p.K)

theorem R2Params.Valid.coprime (hv : p.Valid) : Nat.Coprime (2 ^ p.K) p.meM :=
  coprime_odd hv.odd p.K

theorem shift_bit (K y i : Nat) : y * 2 ^ i % 2 ^ K * 2 % 2 ^ K = y * 2 ^ (i + 1) % 2 ^ K := by
  rw [pow_succ, ← Nat.mul_assoc, Nat.mul_mod, Nat.mod_mod, ← Nat.mul_mod]

/-- The squaring for bit `i` is done, and a multiplication is asked for if the bit
    is set. -/
structure AtSquared (p : R2Params) (x y lc : Nat) (flag : Bool) (i : Nat) (s : Radix2) :
    Prop where
  stage : s.currentStage = .stage10
  valid : s.resultValid = false
  quiet : s.unit.Quiet
  val : s.unit.val = false
  power : MontPower p.meM (2 ^ p.K) x (y * 2 ^ i / 2 ^ p.K + y * 2 ^ i / 2 ^ p.K) s.unit.res
  result2 : MontPower p.meM (2 ^ p.K) x 1 s.result2
  yy : s.yy = y * 2 ^ (i + 1) % 2 ^ p.K
  counter : s.loopCounter = (lc + (i + 1)) % 2 ^ p.K
  req : s.mmReq = topBit p y i
  mmX : topBit p y i = true → s.mmX = s.unit.res
  mmY : topBit p y i = true → s.mmY = s.result2
  skip : s.skipFlag = if topBit p y i then flag else true

include hv hK in
theorem emits_square_bit {flag : Bool} (h : AtSquare p x y lc flag i s) :
    ∃ n t, Emits (Radix2.tick p) Radix2.view s (List.replicate n Radix2.working) t ∧
      AtSquared p x y lc flag i t := by
  have hst : s.currentStage ≠ .idle := by rw [h.stage]; decide
  have hst10 : s.currentStage ≠ .stage10 := by rw [h.stage]; decide
  have hview := Radix2.view_eq h.valid hst
  rcases h.power with ⟨a, hpow, hask⟩
  rcases emits_product hv hK (Nat.lt_trans hpow.lt hv.m_lt) hpow.lt hask hview
    (fun h10 => absurd h10 hst10) with ⟨n, u, hn, hgiven⟩
  refine ⟨n + 1, _, hn.replicate_succ hview, ?_⟩
  rcases hgiven.quiet.step (K := p.K) (i := ⟨s.mmX, s.mmY, p.meM, false⟩) rfl with
    ⟨hquiet, hval, hres⟩
  rw [hgiven.res] at hres
  have hcounter : (s.loopCounter + 1) % 2 ^ p.K = (lc + (i + 1)) % 2 ^ p.K := by
    rw [h.counter, Nat.mod_add_mod, Nat.add_assoc]
  have hbit : s.yy.testBit (p.K - 1) = topBit p y i := by rw [h.yy, topBit]
  have hyy : s.yy * 2 % 2 ^ p.K = y * 2 ^ (i + 1) % 2 ^ p.K := by rw [h.yy, shift_bit]
  have hsq := hpow.mul hv.m_pos hv.coprime hpow
  rw [← hres] at hsq
  simp only [Radix2.tick, Radix2.step, h.stage, hgiven.val, hgiven.res, hcounter, hbit, hyy,
    Radix2.unitIn, if_true]
  cases hset : topBit p y i with
  | false =>
      simp only [Bool.false_eq_true, if_false]
      exact ⟨rfl, h.valid, hquiet, hval, hsq, h.result2, rfl, rfl, hset.symm,
        fun ht => absurd (hset.symm.trans ht) (by decide),
        fun ht => absurd (hset.symm.trans ht) (by decide), by rw [hset]; rfl⟩
  | true =>
      simp only [if_true]
      exact ⟨rfl, h.valid, hquiet, hval, hsq, h.result2, rfl, rfl, hset.symm, fun _ => hres.symm,
        fun _ => rfl, by rw [hset]; exact h.skip⟩

include hv hK in
/-- A bit of the exponent: a squaring, and a multiplication if the bit is set. -/
theorem emits_radix2_bit {flag : Bool} (h : AtSquare p x y lc flag i s)
    (hflag : flag = false ∨ topBit p y i = false) :
    ∃ n t, Emits (Radix2.tick p) Radix2.view s (List.replicate n Radix2.working) t ∧
      AtBitEnd p x (y * 2 ^ (i + 1) / 2 ^ p.K) t ∧ t.yy = y * 2 ^ (i + 1) % 2 ^ p.K ∧
      t.loopCounter = (lc + (i + 1)) % 2 ^ p.K ∧ t.skipFlag = !topBit p y i := by
  rcases emits_square_bit hv hK h with ⟨n, t, hn, ht⟩
  have hexp := div_succ_bit (by omega : 0 < p.K) y i
  have hskip := ht.skip
  rw [← topBit] at hexp
  cases hbit : topBit p y i with
  | false =>
      -- Nothing to wait for.
      rw [hbit] at hexp hskip
      refine ⟨n, t, hn, ⟨ht.stage, ht.valid, ?_, ht.quiet, ht.req.trans hbit, ?_, ht.result2⟩,
        ht.yy, ht.counter, hskip⟩
      · rw [hskip]
        simp
      · rw [hexp]
        exact ht.power
  | true =>
      have hf : flag = false := by
        rcases hflag with hf | hf
        · exact hf
        · exact absurd (hbit.symm.trans hf) (by decide)
      rw [hbit] at hexp hskip
      rw [hf] at hskip
      have hst : t.currentStage ≠ .idle := by rw [ht.stage]; decide
      have hask : Asked p t.unit.res t.result2 t :=
        asked_of_quiet ht.quiet ht.val (ht.req.trans hbit) (ht.mmX hbit) (ht.mmY hbit)
      rcases emits_product hv hK (Nat.lt_trans ht.power.lt hv.m_lt) ht.result2.lt hask
        (Radix2.view_eq ht.valid hst) (fun _ => hskip) with ⟨k, u, hk, hgiven⟩
      refine ⟨n + k, _, hn.replicate_add hk, ⟨ht.stage, ht.valid, ?_, hgiven.quiet, rfl, ?_,
        ht.result2⟩, ht.yy, ht.counter, hskip⟩
      · rw [show ({ t with mmReq := false, unit := u } : Radix2).unit.val = true from hgiven.val]
        rfl
      · change MontPower _ _ _ _ u.res
        rw [hexp, hgiven.res]
        exact ht.power.mul hv.m_pos hv.coprime ht.result2

include hv hK in
/-- The first bit with the flag up from the run before: the multiplication is
    asked for and not waited for, and the bit is lost. -/
theorem emits_first_bit (h : AtSquare p x y lc true 0 s) (hy : y < 2 ^ p.K)
    (hcounter : (lc + 1) % 2 ^ p.K ≠ p.K) :
    ∃ n t, Emits (Radix2.tick p) Radix2.view s (List.replicate n Radix2.working) t ∧
      AtSquare p x (y % 2 ^ (p.K - 1)) lc false 1 t := by
  rcases emits_square_bit hv hK h with ⟨n, t, hn, ht⟩
  have hst : t.currentStage ≠ .idle := by rw [ht.stage]; decide
  have hskip : t.skipFlag = true := by
    rw [ht.skip]
    exact ite_self true
  have hne : t.loopCounter ≠ p.K := by
    rw [ht.counter]
    exact hcounter
  -- Half of the exponent's range is left.
  have hpow : 2 ^ p.K = 2 ^ (p.K - 1) * 2 := by
    rw [← pow_succ]
    congr 1
    omega
  have hlow : y % 2 ^ (p.K - 1) < 2 ^ (p.K - 1) := Nat.mod_lt _ (Nat.two_pow_pos _)
  have hzero : y * 2 ^ 0 / 2 ^ p.K = 0 := by
    rw [pow_zero, Nat.mul_one]
    exact Nat.div_eq_of_lt hy
  have hexp : y % 2 ^ (p.K - 1) * 2 ^ 1 / 2 ^ p.K = 0 := Nat.div_eq_of_lt (by omega)
  have hyy : y * 2 ^ (0 + 1) % 2 ^ p.K = y % 2 ^ (p.K - 1) * 2 ^ 1 % 2 ^ p.K := by
    rw [hpow, Nat.zero_add, pow_one, Nat.mul_mod_mul_right, Nat.mul_mod_mul_right, Nat.mod_mod]
  have hpower := ht.power
  rw [hzero] at hpower
  have htick : t.tick p = { t with
      skipFlag := false, mmReq := true, mmX := t.unit.res, mmY := t.unit.res
      currentStage := .stage11, unit := t.unit.step p.K (t.unitIn p) } := by
    simp [Radix2.tick, Radix2.step, ht.stage, hskip, hne]
  have hall := hn.replicate_succ (Radix2.view_eq ht.valid hst)
  rw [htick] at hall
  refine ⟨_, _, hall, rfl, ht.valid, ⟨t.unit.res, ?_, rfl, rfl, ?_⟩, ht.result2,
    ht.yy.trans hyy, ht.counter, rfl⟩
  · rw [hexp]
    exact hpower
  · cases hbit : topBit p y 0 with
    | false =>
        rcases ht.quiet.step (K := p.K) (i := t.unitIn p) (ht.req.trans hbit) with ⟨hquiet, hval, _⟩
        exact Or.inl ⟨rfl, hquiet, hval⟩
    | true =>
        -- The unit has seen the edge, and takes the operands that are there now.
        exact Or.inr (accumulating_start ht.quiet.sel ht.quiet.buf0 (ht.req.trans hbit))

include hv hK in
/-- The loop, from bit `i` on. It ends when the counter is at `K`. -/
theorem emits_bits {n : Nat} (hend : (lc + n) % 2 ^ p.K = p.K)
    (hgo : ∀ j, 0 < j → j < n → (lc + j) % 2 ^ p.K ≠ p.K) :
    ∀ (d i : Nat) (s : Radix2), i + (d + 1) = n → AtSquare p x y lc false i s →
      ∃ k t, Emits (Radix2.tick p) Radix2.view s (List.replicate k Radix2.working) t ∧
        AtLast p x (y * 2 ^ n / 2 ^ p.K) (!topBit p y (n - 1)) t := by
  intro d
  induction d with
  | zero =>
      intro i s hi h
      have hn : i + 1 = n := by omega
      rcases emits_radix2_bit hv hK h (Or.inl rfl) with ⟨k, t, hk, hbit, hyy, hcounter, hskip⟩
      have hst : t.currentStage ≠ .idle := by rw [hbit.stage]; decide
      rw [hn] at hbit hyy hcounter
      have hlast := (bitEnd_tick hbit hyy rfl hcounter).1 (hcounter.trans hend)
      rw [hskip, show i = n - 1 by omega] at hlast
      exact ⟨k + 1, _, hk.replicate_succ (Radix2.view_eq hbit.valid hst), hlast⟩
  | succ d ih =>
      intro i s hi h
      rcases emits_radix2_bit hv hK h (Or.inl rfl) with ⟨k, t, hk, hbit, hyy, hcounter, _⟩
      have hst : t.currentStage ≠ .idle := by rw [hbit.stage]; decide
      have hne : t.loopCounter ≠ p.K := by
        rw [hcounter]
        exact hgo (i + 1) (Nat.succ_pos i) (by omega)
      have hnext := (bitEnd_tick hbit hyy rfl hcounter).2 hne
      rcases ih (i + 1) _ (by omega) hnext with ⟨k', t', hk', hlast⟩
      exact ⟨k + 1 + k', t', (hk.replicate_succ (Radix2.view_eq hbit.valid hst)).replicate_add hk',
        hlast⟩

end Bits


/-! ## A run -/

/-- Between runs. -/
structure Resting (p : R2Params) (lc : Nat) (flag : Bool) (s : Radix2) : Prop where
  stage : s.currentStage = .idle
  req : s.mmReq = false
  quiet : s.unit.Quiet
  val : s.unit.val = false
  counter : s.loopCounter = lc
  skip : s.skipFlag = flag

theorem resting_reset (p : R2Params) : Resting p 0 false Radix2.reset :=
  ⟨rfl, rfl, ⟨rfl, rfl⟩, rfl, rfl, rfl⟩

/-- A clock without a request. -/
theorem Resting.step_wait {p : R2Params} {lc : Nat} {flag : Bool} {s : Radix2}
    (h : Resting p lc flag s) {i : Radix2.In} (hi : i.meStart = false) :
    Resting p lc flag (s.step p i) := by
  rcases h.quiet.step (K := p.K) (i := s.unitIn p) h.req with ⟨hquiet, hval, _⟩
  have hstep : s.step p i = { s with
      resultValid := false, result := 0, unit := s.unit.step p.K (s.unitIn p) } := by
    simp [Radix2.step, h.stage, hi]
  rw [hstep]
  exact ⟨h.stage, h.req, hquiet, hval, h.counter, h.skip⟩

section Run

variable {p : R2Params} (hv : p.Valid) (hK : 4 ≤ p.K) {lc : Nat} {flag : Bool} {s : Radix2}
  {i : Radix2.In}

include hv hK in
/-- From the request to the first squaring. -/
theorem emits_begin (h : Resting p lc flag s) (hi : i.meStart = true) (hx : i.meX < 2 ^ p.K)
    (hy : i.meY < 2 ^ p.K) (hlc : lc < 2 ^ p.K) :
    ∃ n t, Emits (Radix2.tick p) Radix2.view (s.step p i) (List.replicate n Radix2.working) t ∧
      AtSquare p i.meX i.meY lc flag 0 t := by
  rcases h.quiet.step (K := p.K) (i := s.unitIn p) h.req with ⟨hquiet, hval, _⟩
  have hstep : s.step p i = { s with
      resultValid := false, result := 0, mmReq := true, yy := i.meY, mmX := i.meX, mmY := p.rou
      currentStage := .stage0, unit := s.unit.step p.K (s.unitIn p) } := by
    simp [Radix2.step, h.stage, hi]
  have hrou : p.rou < p.meM := by
    rw [hv.rou]
    exact Nat.mod_lt _ hv.m_pos
  -- The first product brings the base into the Montgomery form.
  have hask : Asked p i.meX p.rou (s.step p i) := by
    rw [hstep]
    exact asked_of_quiet hquiet hval rfl rfl rfl
  have hst : (s.step p i).currentStage = .stage0 := by rw [hstep]
  have hvalid : (s.step p i).resultValid = false := by rw [hstep]
  have hyy : (s.step p i).yy = i.meY := by rw [hstep]
  have hcounter : (s.step p i).loopCounter = lc := by rw [hstep]; exact h.counter
  have hskip : (s.step p i).skipFlag = flag := by rw [hstep]; exact h.skip
  clear hstep
  generalize s.step p i = s0 at hask hst hvalid hyy hcounter hskip
  have hview : s0.view = Radix2.working := Radix2.view_eq hvalid (by rw [hst]; decide)
  have hst10 : s0.currentStage ≠ .stage10 := by rw [hst]; decide
  rcases emits_product hv hK hx hrou hask hview (fun h10 => absurd h10 hst10) with
    ⟨n, u, hn, hgiven⟩
  rcases hgiven.quiet.step (K := p.K) (i := ⟨s0.mmX, s0.mmY, p.meM, false⟩) rfl with
    ⟨hquiet', hval', _⟩
  have htick : ({ s0 with mmReq := false, unit := u } : Radix2).tick p
      = { s0 with
          result2 := u.res, mmReq := true, mmX := p.mmRou1, mmY := p.mmRou1
          currentStage := .stage11, unit := u.step p.K ⟨s0.mmX, s0.mmY, p.meM, false⟩ } := by
    simp [Radix2.tick, Radix2.step, hst, hgiven.val, Radix2.unitIn]
  have hall := hn.replicate_succ (by exact hview)
  rw [htick] at hall
  have hone : MontPower p.meM (2 ^ p.K) i.meX 1 u.res := by
    rw [hgiven.res, hv.rou, Nat.two_mul, pow_add]
    exact .first hv.m_pos hv.coprime
  -- The result starts as the form of one: no bit of the exponent is done.
  have hzero : MontPower p.meM (2 ^ p.K) i.meX (i.meY * 2 ^ 0 / 2 ^ p.K) p.mmRou1 := by
    rw [pow_zero, Nat.mul_one, Nat.div_eq_of_lt hy, hv.mmRou1]
    exact .zero hv.m_pos
  refine ⟨_, _, hall, rfl, hvalid, ⟨_, hzero, asked_of_quiet hquiet' hval' rfl rfl rfl⟩, hone, ?_,
    ?_, hskip⟩
  · rw [pow_zero, Nat.mul_one, Nat.mod_eq_of_lt hy]
    exact hyy
  · rw [Nat.add_zero, Nat.mod_eq_of_lt hlc]
    exact hcounter

include hv hK in
/-- The last product. -/
theorem emits_end {x e : Nat} (h : AtLast p x e flag s) :
    ∃ n t, Emits (Radix2.tick p) Radix2.view s (List.replicate n Radix2.working) t ∧
      t.resultValid = true ∧ t.result = x ^ e % p.meM ∧ Resting p p.K flag t := by
  have hst : s.currentStage ≠ .idle := by rw [h.stage]; decide
  have hst10 : s.currentStage ≠ .stage10 := by rw [h.stage]; decide
  have hview := Radix2.view_eq h.valid hst
  rcases h.power with ⟨a, hpow, hask⟩
  rcases emits_product hv hK (Nat.lt_trans hpow.lt hv.m_lt) hv.one_lt hask hview
    (fun h10 => absurd h10 hst10) with ⟨n, u, hn, hgiven⟩
  rcases hgiven.quiet.step (K := p.K) (i := ⟨s.mmX, s.mmY, p.meM, false⟩) rfl with
    ⟨hquiet, hval, _⟩
  have htick : ({ s with mmReq := false, unit := u } : Radix2).tick p
      = { s with
          mmReq := false, result := u.res, resultValid := true, currentStage := .idle
          unit := u.step p.K ⟨s.mmX, s.mmY, p.meM, false⟩ } := by
    simp [Radix2.tick, Radix2.step, h.stage, hgiven.val, Radix2.unitIn]
  have hall := hn.replicate_succ (by exact hview)
  rw [htick] at hall
  refine ⟨_, _, hall, rfl, ?_, rfl, rfl, hquiet, hval, h.counter, h.skip⟩
  exact hgiven.res.trans (hpow.leave hv.m_pos hv.coprime)

include hv hK in
/-- A run. The loop takes as many bits as the counter needs to get to `K`; the
    first is lost if the flag was up. -/
theorem emits_run (h : Resting p lc flag s) (hi : i.meStart = true) (hx : i.meX < 2 ^ p.K)
    (hy : i.meY < 2 ^ p.K) (hlc : lc < 2 ^ p.K) {n : Nat} (hn : 2 ≤ n)
    (hend : (lc + n) % 2 ^ p.K = p.K) (hgo : ∀ j, 0 < j → j < n → (lc + j) % 2 ^ p.K ≠ p.K)
    {y : Nat} (hflag : y = if flag then i.meY % 2 ^ (p.K - 1) else i.meY) :
    ∃ k t, Emits (Radix2.tick p) Radix2.view (s.step p i) (List.replicate k Radix2.working) t ∧
      t.resultValid = true ∧ t.result = i.meX ^ (y * 2 ^ n / 2 ^ p.K) % p.meM ∧
      Resting p p.K (!topBit p y (n - 1)) t := by
  rcases emits_begin hv hK h hi hx hy hlc with ⟨k1, t1, h1, hfirst⟩
  have hloop : ∃ k t, Emits (Radix2.tick p) Radix2.view t1 (List.replicate k Radix2.working) t ∧
      AtLast p i.meX (y * 2 ^ n / 2 ^ p.K) (!topBit p y (n - 1)) t := by
    cases hf : flag with
    | false =>
        rw [hf] at hfirst hflag
        rw [show y = i.meY from hflag]
        exact emits_bits hv hK hend hgo (n - 1) 0 t1 (by omega) hfirst
    | true =>
        rw [hf] at hfirst hflag
        rcases emits_first_bit hv hK hfirst hy (hgo 1 Nat.one_pos (by omega)) with
          ⟨k2, t2, h2, hsecond⟩
        rw [show y = i.meY % 2 ^ (p.K - 1) from hflag]
        rcases emits_bits hv hK hend hgo (n - 2) 1 t2 (by omega) hsecond with ⟨k3, t3, h3, hlast⟩
        exact ⟨k2 + k3, t3, h2.replicate_add h3, hlast⟩
  rcases hloop with ⟨k2, t2, h2, hlast⟩
  rcases emits_end hv hK hlast with ⟨k3, t3, h3, hvalid, hresult, hrest⟩
  exact ⟨k1 + k2 + k3, t3, (h1.replicate_add h2).replicate_add h3, hvalid, hresult, hrest⟩

end Run

/-! ## Requests -/

/-- After a request, a number of clocks of work, whatever the inputs in them, and
    then `me_valid` with the result `z`. -/
def Answered (p : R2Params) (s : Radix2) (i : Radix2.In) (z : Nat) : Prop :=
  ∃ n, ∀ is : List Radix2.In, is.length = n →
    ∃ t, Traces (Radix2.step p) Radix2.view (s.step p i) is (List.replicate n Radix2.working) t ∧
      t.resultValid = true ∧ t.result = z

/-- The states between runs, with the requests that have been answered since
    reset, each made while there was no run. -/
inductive Served (p : R2Params) : List (Nat × Nat) → Radix2 → Prop where
  | reset : Served p [] Radix2.reset
  | wait {rs s i} (h : Served p rs s) (hi : i.meStart = false) : Served p rs (s.step p i)
  | run {rs s i is t} (h : Served p rs s) (hi : i.meStart = true) (hx : i.meX < 2 ^ p.K)
      (hy : i.meY < 2 ^ p.K)
      (work : Traces (Radix2.step p) Radix2.view (s.step p i) is
        (List.replicate is.length Radix2.working) t)
      (hvalid : t.resultValid = true) : Served p (rs ++ [(i.meX, i.meY)]) t

/-- `skip_flag` after some requests. -/
def flagAfter : List (Nat × Nat) → Bool
  | [] => false
  | [(_, y)] => decide (y % 2 = 0)
  | _ :: _ :: _ => true

/-- The exponent the loop gets to after some requests. -/
def reachedExponent (K : Nat) (rs : List (Nat × Nat)) (y : Nat) : Nat :=
  if rs = [] then y
  else (if flagAfter rs then y % 2 ^ (K - 1) else y) * 2 ^ (2 ^ K - K)

section Requests

variable {p : R2Params} {s : Radix2} {i : Radix2.In} {rs : List (Nat × Nat)}

/-- A run that ends with `z`, without its inputs. -/
def Ends (p : R2Params) (s : Radix2) (i : Radix2.In) (z : Nat) (t : Radix2) : Prop :=
  ∃ n, Emits (Radix2.tick p) Radix2.view (s.step p i) (List.replicate n Radix2.working) t ∧
    t.resultValid = true ∧ t.result = z

theorem view_ne_working {t : Radix2} (h : t.resultValid = true) : t.view ≠ Radix2.working := by
  intro heq
  have hfirst := congrArg Prod.fst heq
  rw [show t.view.1 = t.resultValid from rfl, h] at hfirst
  cases hfirst

theorem Ends.unique {z z' : Nat} {t t' : Radix2} (h : Ends p s i z t) (h' : Ends p s i z' t') :
    t = t' := by
  rcases h with ⟨n, hn, hvalid, _⟩
  rcases h' with ⟨k, hk, hvalid', _⟩
  exact hn.replicate_unique (view_ne_working hvalid) hk (view_ne_working hvalid')

theorem answered_iff {z : Nat} : Answered p s i z ↔ ∃ t, Ends p s i z t := by
  constructor
  · rintro ⟨n, hn⟩
    rcases hn (List.replicate n ⟨false, 0, 0⟩) List.length_replicate with ⟨t, ht, hvalid, hz⟩
    have hlen : (List.replicate n (⟨false, 0, 0⟩ : Radix2.In)).length = n := List.length_replicate
    nth_rewrite 2 [← hlen] at ht
    have hemits : Emits (Radix2.tick p) Radix2.view _ _ t :=
      emits_of_traces (fun s i h => Radix2.step_working p h i) ht
    exact ⟨t, _, hemits, hvalid, hz⟩
  · rintro ⟨t, n, hn, hvalid, hz⟩
    refine ⟨n, fun is his => ⟨t, ?_, hvalid, hz⟩⟩
    rw [← his] at hn ⊢
    exact traces_of_emits (fun s i h => Radix2.step_working p h i) hn

/-! ### The counter -/

theorem width_lt (p : R2Params) : p.K < 2 ^ p.K :=
  Nat.lt_two_pow_self

/-- After reset the counter gets to `K` after `K` bits. -/
theorem counter_first (p : R2Params) :
    (0 + p.K) % 2 ^ p.K = p.K ∧ ∀ j, 0 < j → j < p.K → (0 + j) % 2 ^ p.K ≠ p.K := by
  have hlt := width_lt p
  refine ⟨?_, ?_⟩
  · rw [Nat.zero_add, Nat.mod_eq_of_lt hlt]
  · intro j _ hj
    rw [Nat.zero_add, Nat.mod_eq_of_lt (by omega)]
    omega

/-- After a run it goes all the way round. -/
theorem counter_later (p : R2Params) :
    (p.K + 2 ^ p.K) % 2 ^ p.K = p.K ∧
      ∀ j, 0 < j → j < 2 ^ p.K → (p.K + j) % 2 ^ p.K ≠ p.K := by
  have hlt := width_lt p
  refine ⟨?_, ?_⟩
  · rw [Nat.add_mod_right, Nat.mod_eq_of_lt hlt]
  · intro j hpos hj
    by_cases hsum : p.K + j < 2 ^ p.K
    · rw [Nat.mod_eq_of_lt hsum]
      omega
    · rw [Nat.mod_eq_sub_mod (by omega), Nat.mod_eq_of_lt (by omega)]
      omega

/-- The last bit of the exponent. -/
theorem topBit_last {y : Nat} (hK : 0 < p.K) :
    topBit p y (p.K - 1) = decide (y % 2 = 1) := by
  have hpow : 2 ^ p.K = 2 * 2 ^ (p.K - 1) := by
    rw [← pow_succ']
    congr 1
    omega
  rw [topBit, hpow, Nat.mul_mod_mul_right, Nat.testBit_eq_decide_div_mod_eq,
    Nat.mul_div_cancel _ (Nat.two_pow_pos _), Nat.mod_mod]

/-- Past the exponent there are no bits. -/
theorem topBit_past {y : Nat} : topBit p y (2 ^ p.K - 1) = false := by
  have hlt := width_lt p
  have hzero : y * 2 ^ (2 ^ p.K - 1) % 2 ^ p.K = 0 :=
    Nat.mod_eq_zero_of_dvd (Dvd.dvd.mul_left (Nat.pow_dvd_pow 2 (by omega)) y)
  rw [topBit, hzero, Nat.zero_testBit]

/-- The counter after some requests. -/
def counterAfter (p : R2Params) (rs : List (Nat × Nat)) : Nat := if rs = [] then 0 else p.K

/-- The next request after some others. -/
theorem ends_next (hv : p.Valid) (hK : 4 ≤ p.K)
    (h : Resting p (counterAfter p rs) (flagAfter rs) s) (hi : i.meStart = true)
    (hx : i.meX < 2 ^ p.K) (hy : i.meY < 2 ^ p.K) :
    ∃ t, Ends p s i (i.meX ^ reachedExponent p.K rs i.meY % p.meM) t ∧
      Resting p p.K (flagAfter (rs ++ [(i.meX, i.meY)])) t := by
  have hlt := width_lt p
  cases rs with
  | nil =>
      rcases counter_first p with ⟨hend, hgo⟩
      rcases emits_run hv hK h hi hx hy (Nat.two_pow_pos _) (by omega) hend hgo rfl with
        ⟨n, t, hn, hvalid, hresult, hrest⟩
      rw [topBit_last (by omega)] at hrest
      refine ⟨t, ⟨n, hn, hvalid, ?_⟩, ?_⟩
      · rw [hresult, reachedExponent, if_pos rfl]
        exact congrArg (i.meX ^ · % p.meM) (Nat.mul_div_cancel _ (Nat.two_pow_pos _))
      · have hflag : flagAfter ([] ++ [(i.meX, i.meY)]) = !decide (i.meY % 2 = 1) := by
          rw [← decide_not]
          exact decide_eq_decide.mpr (by omega)
        rw [hflag]
        exact hrest
  | cons r rs =>
      rcases counter_later p with ⟨hend, hgo⟩
      rcases emits_run hv hK h hi hx hy hlt (by omega) hend hgo rfl with
        ⟨n, t, hn, hvalid, hresult, hrest⟩
      rw [topBit_past] at hrest
      refine ⟨t, ⟨n, hn, hvalid, ?_⟩, ?_⟩
      · have hpow : 2 ^ 2 ^ p.K = 2 ^ (2 ^ p.K - p.K) * 2 ^ p.K := by
          rw [← pow_add]
          congr 1
          omega
        rw [hresult, reachedExponent, if_neg (List.cons_ne_nil _ _), hpow, ← Nat.mul_assoc,
          Nat.mul_div_cancel _ (Nat.two_pow_pos _)]
      · have hflag : flagAfter (r :: rs ++ [(i.meX, i.meY)]) = true := by
          cases rs with
          | nil => rfl
          | cons _ _ => rfl
        rw [hflag]
        exact hrest

/-- What the requests leave behind. -/
theorem resting_served (hv : p.Valid) (hK : 4 ≤ p.K) (h : Served p rs s) :
    Resting p (counterAfter p rs) (flagAfter rs) s := by
  induction h with
  | reset => exact resting_reset p
  | wait _ hi ih => exact ih.step_wait hi
  | @run rs s i is t _ hi hx hy work hvalid ih =>
      rcases ends_next hv hK ih hi hx hy with ⟨t', hends, hrest⟩
      have hends' : Ends p s i t.result t :=
        ⟨is.length, emits_of_traces (fun s i h => Radix2.step_working p h i) work, hvalid, rfl⟩
      rw [hends'.unique hends, counterAfter, if_neg (by simp)]
      exact hrest

/-! ### Two bits -/

/-- With two bits the unit never has a result. -/
structure Stuck (s : Radix2) : Prop where
  stage : s.currentStage = .idle ∨ s.currentStage = .stage0
  val : s.unit.val = false
  valid : s.resultValid = false

theorem Stuck.step (hK : p.K = 2) (h : Stuck s) (i : Radix2.In) : Stuck (s.step p i) := by
  have hval : (s.unit.step p.K (s.unitIn p)).val = false := by
    unfold R2mm2n.step
    dsimp only
    split
    · exact h.val
    · split
      · rw [if_neg (by omega)]
        exact h.val
      · rfl
  rcases h.stage with hst | hst
  · cases hi : i.meStart with
    | false =>
        simp only [Radix2.step, hst, hi, Bool.false_eq_true, if_false]
        exact ⟨Or.inl rfl, hval, rfl⟩
    | true =>
        simp only [Radix2.step, hst, hi, if_true]
        exact ⟨Or.inr rfl, hval, rfl⟩
  · simp only [Radix2.step, hst, h.val, Bool.false_eq_true, if_false]
    exact ⟨Or.inr rfl, hval, h.valid⟩

theorem Stuck.foldl (hK : p.K = 2) (h : Stuck s) (is : List Radix2.In) :
    Stuck (is.foldl (Radix2.step p) s) := by
  induction is generalizing s with
  | nil => exact h
  | cons i is ih => exact ih (h.step hK i)

theorem stuck_served (hK : p.K = 2) (h : Served p rs s) : Stuck s := by
  induction h with
  | reset => exact ⟨Or.inl rfl, rfl, rfl⟩
  | wait _ _ ih => exact ih.step hK _
  | @run rs s i is t _ _ _ _ work _ ih =>
      rw [← work.2]
      exact (ih.step hK i).foldl hK is

theorem not_answered_two (hK : p.K = 2) (h : Served p rs s) (z : Nat) : ¬ Answered p s i z := by
  rintro ⟨n, hn⟩
  rcases hn (List.replicate n ⟨false, 0, 0⟩) List.length_replicate with ⟨t, ht, hvalid, _⟩
  have hstuck := ((stuck_served hK h).step hK i).foldl hK (List.replicate n ⟨false, 0, 0⟩)
  rw [ht.2] at hstuck
  rw [hstuck.valid] at hvalid
  cases hvalid

end Requests

/-- After any requests that have been answered, a request is answered with the
    power if it is the first, or if the exponent the loop gets to happens to give
    the same power; and only then. With two bits nothing is answered. -/
theorem power_answered_iff (p : R2Params) (hv : p.Valid) (rs : List (Nat × Nat)) (s : Radix2)
    (h : Served p rs s) (i : Radix2.In) (hi : i.meStart = true) (hx : i.meX < 2 ^ p.K)
    (hy : i.meY < 2 ^ p.K) :
    Answered p s i (i.meX ^ i.meY % p.meM) ↔
      4 ≤ p.K ∧
        (rs = [] ∨
          i.meX ^ reachedExponent p.K rs i.meY % p.meM = i.meX ^ i.meY % p.meM) := by
  have hcases : p.K = 2 ∨ 4 ≤ p.K := by
    have := hv.two_le
    have := hv.even
    omega
  rcases hcases with hK | hK
  · constructor
    · exact fun ha => absurd ha (not_answered_two hK h _)
    · intro ha
      omega
  · rcases ends_next hv hK (resting_served hv hK h) hi hx hy with ⟨t, hends, _⟩
    constructor
    · intro ha
      rcases answered_iff.mp ha with ⟨t', n, hn, hvalid, hz⟩
      have hsame : t = t' := hends.unique ⟨n, hn, hvalid, hz⟩
      rcases hends with ⟨_, _, _, hresult⟩
      refine ⟨hK, Or.inr ?_⟩
      rw [← hresult, hsame, hz]
    · rintro ⟨_, hrs | heq⟩
      · rw [hrs, reachedExponent, if_pos rfl] at hends
        exact answered_iff.mpr ⟨t, hends⟩
      · rw [heq] at hends
        exact answered_iff.mpr ⟨t, hends⟩

section Small

/-- The constants for the modulus 7 with four bits. -/
def sevenR2 : R2Params where
  K := 4
  meM := 7
  rou := 4
  mmRou1 := 2

theorem valid_sevenR2 : sevenR2.Valid := by
  constructor <;> decide

/-- 3 to the power of 1. -/
def threeIn : Radix2.In where
  meStart := true
  meX := 3
  meY := 1

theorem power_answered_first : Answered sevenR2 .reset threeIn 3 :=
  (power_answered_iff sevenR2 valid_sevenR2 [] .reset .reset threeIn rfl (by decide)
    (by decide)).mpr ⟨by decide, Or.inl rfl⟩

theorem three_pow_reached :
    threeIn.meX ^ reachedExponent sevenR2.K [(3, 1)] threeIn.meY % sevenR2.meM = 4 := by
  obtain ⟨n, hn⟩ : ∃ n, reachedExponent sevenR2.K [(3, 1)] threeIn.meY = 6 * n + 4 :=
    ⟨682, by decide⟩
  -- The sixth power is one.
  rw [hn, pow_add, pow_mul, Nat.mul_mod, Nat.pow_mod,
    show threeIn.meX ^ 6 % sevenR2.meM = 1 by decide, one_pow]
  rfl

/-- The same request twice: 3, and then 4. -/
theorem second_answer_differs :
    sevenR2.Valid ∧ ∃ s, Served sevenR2 [(3, 1)] s ∧ Answered sevenR2 s threeIn 4 ∧
      ¬ Answered sevenR2 s threeIn (3 ^ 1 % 7) := by
  have hK : 4 ≤ sevenR2.K := by decide
  have hfresh : Resting sevenR2 (counterAfter sevenR2 []) (flagAfter []) Radix2.reset :=
    resting_reset sevenR2
  rcases ends_next valid_sevenR2 hK hfresh (i := threeIn) rfl (by decide) (by decide) with
    ⟨s, ⟨n, hn, hvalid, _⟩, hrest⟩
  have hserved : Served sevenR2 [(3, 1)] s := by
    have hlen : (List.replicate n threeIn).length = n := List.length_replicate
    rw [← hlen] at hn
    exact .run .reset (i := threeIn) rfl (by decide) (by decide)
      (traces_of_emits (fun s i h => Radix2.step_working sevenR2 h i) hn) hvalid
  have hrest' : Resting sevenR2 (counterAfter sevenR2 [(3, 1)]) (flagAfter [(3, 1)]) s := hrest
  rcases ends_next valid_sevenR2 hK hrest' (i := threeIn) rfl (by decide) (by decide) with
    ⟨t, hends, _⟩
  rw [three_pow_reached] at hends
  refine ⟨valid_sevenR2, s, hserved, answered_iff.mpr ⟨t, hends⟩, ?_⟩
  intro ha
  rcases answered_iff.mp ha with ⟨t', hends'⟩
  have hsame := hends.unique hends'
  rcases hends with ⟨_, _, _, hr⟩
  rcases hends' with ⟨_, _, _, hr'⟩
  rw [hsame, hr'] at hr
  exact absurd hr (by decide)

end Small

end Rsa

end Wujian100
