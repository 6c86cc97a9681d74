import Wujian100.Theory.Rsa.Product

/-!
# Square and Multiply

What `me_iddmm_top` computes. The state machine is a loop of products over the
bits of the exponent, from the top down, with the accumulator kept as a power
times `R`, the Montgomery radix; the last product takes the `R` off.

`loop_counter` counts the squarings and stops at its last value. It is tested
after a squaring, where the last value means that all the bits have been seen,
and after a multiplication, where it has been counted up already, so that the
last value is reached one bit early. If bit 1 of the exponent is set the loop
ends there, and bit 0 is not looked at.

## Main definitions

* `MeParams.Valid`: The constants belong to one odd modulus.
* `effective`: The exponent the loop gets to.
* `MeReady`, `Feeding`: Before a run, and while the base comes in.

## Theorems

* `emits_loop`: The loop.
* `emits_power`: From the last word of the base to the last word of the result.
-/

namespace Wujian100

namespace Rsa

/-- The constants belong to one odd modulus: `rou` is `R ^ 2` and
    `result_backup` is `R` modulo `m`. -/
structure MeParams.Valid (p : MeParams) (m : Nat) : Prop where
  k_pos : 0 < p.k
  addrW_pos : 0 < p.addrW
  odd : m % 2 = 1
  m_lt : m < 2 ^ p.bits
  meY_lt : p.meY < 2 ^ p.bits
  rou : HoldsNum p p.rou (2 ^ (2 * p.bits) % m)
  backup : HoldsNum p p.resultBackup (2 ^ p.bits % m)

namespace MeParams.Valid

variable {p : MeParams} {m : Nat}

theorem m_pos (h : p.Valid m) : 0 < m := by
  have := h.odd
  omega

theorem coprime (h : p.Valid m) : Nat.Coprime (2 ^ p.bits) m := by
  refine Nat.Coprime.pow_left _ ?_
  rw [Nat.coprime_two_left, Nat.odd_iff]
  exact h.odd

theorem two_le_bits (h : p.Valid m) : 2 ≤ p.bits := by
  have hk := h.k_pos
  have hw : 2 ^ 1 ≤ 2 ^ p.addrW := Nat.pow_le_pow_right Nat.two_pos h.addrW_pos
  calc 2 = 1 * 2 ^ 1 := rfl
    _ ≤ p.k * 2 ^ p.addrW := Nat.mul_le_mul hk hw

end MeParams.Valid

/-- `a` is `x ^ e * R` modulo `m`. -/
structure IsPower (p : MeParams) (m x e a : Nat) : Prop where
  lt : a < m
  eq : (a : ZMod m) = (x : ZMod m) ^ e * ((2 ^ p.bits : Nat) : ZMod m)

theorem IsPower.montPower {p : MeParams} {m x e a : Nat} (h : IsPower p m x e a) :
    MontPower m (2 ^ p.bits) x e a :=
  ⟨h.lt, h.eq⟩

theorem IsPower.of_montPower {p : MeParams} {m x e a : Nat} (h : MontPower m (2 ^ p.bits) x e a) :
    IsPower p m x e a :=
  ⟨h.lt, h.eq⟩

/-- A product of powers is the power of the sum. -/
theorem isPower_montMul {p : MeParams} {m x e e' a b : Nat} (hv : p.Valid m)
    (ha : IsPower p m x e a) (hb : IsPower p m x e' b) :
    IsPower p m x (e + e') (montMul m (2 ^ p.bits) a b) :=
  .of_montPower (ha.montPower.mul hv.m_pos hv.coprime hb.montPower)

/-- The first product: the base times `R`. -/
theorem isPower_first {p : MeParams} {m x : Nat} (hv : p.Valid m) :
    IsPower p m x 1 (montMul m (2 ^ p.bits) x (2 ^ (2 * p.bits) % m)) := by
  rw [Nat.two_mul, pow_add]
  exact .of_montPower (.first hv.m_pos hv.coprime)

/-- The accumulator to begin with. -/
theorem isPower_zero {p : MeParams} {m x : Nat} (hv : p.Valid m) :
    IsPower p m x 0 (2 ^ p.bits % m) :=
  .of_montPower (.zero hv.m_pos)

/-- The last product takes `R` off. -/
theorem montMul_one {p : MeParams} {m x e a : Nat} (hv : p.Valid m) (ha : IsPower p m x e a) :
    montMul m (2 ^ p.bits) a 1 = x ^ e % m :=
  ha.montPower.leave hv.m_pos hv.coprime

/-! ## The loop -/

/-- The exponent the loop gets to. -/
def effective (y : Nat) : Nat :=
  if y.testBit 1 then y / 2 else y

/-- One more bit. -/
theorem div_two_pow_succ (y j : Nat) :
    y / 2 ^ j = y / 2 ^ (j + 1) + y / 2 ^ (j + 1) + (y.testBit j).toNat := by
  have hdiv : y / 2 ^ (j + 1) = y / 2 ^ j / 2 := by rw [pow_succ, Nat.div_div_eq_div_mul]
  have hbit : (y.testBit j).toNat = y / 2 ^ j % 2 := by
    rw [Nat.testBit_eq_decide_div_mod_eq]
    rcases Nat.mod_two_eq_zero_or_one (y / 2 ^ j) with h | h <;> simp [h]
  rw [hdiv, hbit]
  omega

/-- The top bit of the shifted exponent. -/
theorem testBit_shifted {y n t : Nat} (ht : t < n) :
    (y * 2 ^ t % 2 ^ n).testBit (n - 1) = y.testBit (n - 1 - t) := by
  rw [Nat.testBit_mod_two_pow, Nat.testBit_mul_two_pow]
  simp only [show n - 1 < n by omega, decide_true, Bool.true_and,
    show t ≤ n - 1 by omega]

section Loop

variable {M : Type} {mu : Multiplier M} {p : MeParams} {m clocks : Nat}
  {Shape : Nat → List SpOut → Prop} {Idle : Bool → (Nat → Nat) → (Nat → Nat) → M → Prop}

/-- Before the squaring for bit `p.bits - 1 - t` of the exponent. At the last
    bit, bit 1 was clear. -/
structure AtBit (p : MeParams) (Idle : Bool → (Nat → Nat) → (Nat → Nat) → M → Prop)
    (m x a2 t : Nat) (s : MeTop M) : Prop where
  lt : t < p.bits
  last : t = p.bits - 1 → p.meY.testBit 1 = false
  standing : ∃ a, IsPower p m x (p.meY / 2 ^ (p.bits - t)) a ∧
    Standing p Idle .state10 a a2 (p.meY * 2 ^ t % 2 ^ p.bits) t s

/-- After the loop. -/
def AtExit (p : MeParams) (Idle : Bool → (Nat → Nat) → (Nat → Nat) → M → Prop)
    (m x : Nat) (s : MeTop M) : Prop :=
  ∃ a a2 yy lc, IsPower p m x (effective p.meY) a ∧ Standing p Idle .state3 a a2 yy lc s

variable {x a2 t : Nat} {s : MeTop M}

/-- The exponent, shifted once more. -/
theorem shifted_succ (y t n : Nat) : y * 2 ^ t % 2 ^ n * 2 % 2 ^ n = y * 2 ^ (t + 1) % 2 ^ n := by
  rw [Nat.mod_mul_mod, pow_succ, Nat.mul_assoc]

variable (spec : Multiplies mu p m clocks Shape Idle) (hv : p.Valid m)

include spec hv in
/-- One bit of the exponent: on to the next, or out of the loop. -/
theorem emits_bit (h : AtBit p Idle m x a2 t s) (ha2 : IsPower p m x 1 a2) :
    ∃ d u, d ≤ 2 * productClocks p clocks ∧
      Emits (MeTop.tick p mu) MeTop.word s (List.replicate d none) u ∧
      (AtExit p Idle m x u ∨ AtBit p Idle m x a2 (t + 1) u) := by
  have hlt := h.lt
  rcases h.standing with ⟨a, ha, hst⟩
  rcases emits_square spec hv.m_pos hv.m_lt hst ha.lt with ⟨d, u, hd, hu, hsq⟩
  have hpow := isPower_montMul hv ha ha
  rw [testBit_shifted hlt, shifted_succ] at hsq
  have hdiv : p.meY / 2 ^ (p.bits - 1 - t)
      = p.meY / 2 ^ (p.bits - t) + p.meY / 2 ^ (p.bits - t)
        + (p.meY.testBit (p.bits - 1 - t)).toNat := by
    have hsucc := div_two_pow_succ p.meY (p.bits - 1 - t)
    rw [show p.bits - 1 - t + 1 = p.bits - t by omega] at hsucc
    exact hsucc
  cases hbit : p.meY.testBit (p.bits - 1 - t) with
  | false =>
      -- No multiplication: the counter of the squarings decides.
      rw [hbit] at hsq hdiv
      rw [Bool.toNat_false, Nat.add_zero] at hdiv
      rw [← hdiv] at hpow
      simp only [Bool.false_eq_true, if_false] at hsq
      refine ⟨d, u, by omega, hu, ?_⟩
      by_cases hend : t = p.bits - 1
      · rw [if_pos hend] at hsq
        refine Or.inl ⟨_, a2, _, _, ?_, hsq⟩
        rw [effective, h.last hend]
        rw [hend, Nat.sub_self, pow_zero, Nat.div_one] at hpow
        simpa using hpow
      · rw [if_neg hend, if_neg hend] at hsq
        refine Or.inr ⟨by omega, ?_, _, ?_, hsq⟩
        · intro hnext
          rw [show p.bits - 1 - t = 1 by omega] at hbit
          exact hbit
        · rw [show p.bits - (t + 1) = p.bits - 1 - t by omega]
          exact hpow
  | true =>
      rw [hbit] at hsq hdiv
      rw [Bool.toNat_true] at hdiv
      simp only [if_true] at hsq
      rcases emits_multiply spec hv.m_pos hv.m_lt hsq ha2.lt with ⟨d', u', hd', hu', hmul⟩
      have hpow' := isPower_montMul hv hpow ha2
      rw [← hdiv] at hpow'
      refine ⟨d + d', u', by omega, ?_, ?_⟩
      · rw [List.replicate_add]
        exact hu.append hu'
      · by_cases hend : t = p.bits - 1
        · rw [if_pos hend, if_pos hend] at hmul
          refine Or.inl ⟨_, a2, _, _, ?_, hmul⟩
          rw [effective, h.last hend]
          rw [hend, Nat.sub_self, pow_zero, Nat.div_one] at hpow'
          simpa using hpow'
        · rw [if_neg hend] at hmul
          by_cases hearly : t + 1 = p.bits - 1
          · -- The counter is at its last value although a bit is left.
            rw [if_pos hearly] at hmul
            refine Or.inl ⟨_, a2, _, _, ?_, hmul⟩
            rw [show p.bits - 1 - t = 1 by omega] at hbit hpow'
            rw [effective, hbit, if_pos rfl]
            rw [pow_one] at hpow'
            exact hpow'
          · rw [if_neg hearly] at hmul
            refine Or.inr ⟨by omega, fun hnext => absurd hnext hearly, _, ?_, hmul⟩
            rw [show p.bits - (t + 1) = p.bits - 1 - t by omega]
            exact hpow'

include spec hv in
/-- The loop. -/
theorem emits_loop (ha2 : IsPower p m x 1 a2) : ∀ (c t : Nat) (s : MeTop M), t + c = p.bits →
    AtBit p Idle m x a2 t s →
    ∃ d u, d ≤ c * (2 * productClocks p clocks) ∧
      Emits (MeTop.tick p mu) MeTop.word s (List.replicate d none) u ∧ AtExit p Idle m x u := by
  intro c
  induction c with
  | zero =>
      intro t s ht h
      have := h.lt
      omega
  | succ c ih =>
      intro t s ht h
      rcases emits_bit spec hv h ha2 with ⟨d, u, hd, hu, hexit | hnext⟩
      · refine ⟨d, u, ?_, hu, hexit⟩
        rw [Nat.succ_mul]
        omega
      · rcases ih (t + 1) u (by omega) hnext with ⟨d', u', hd', hu', hexit⟩
        refine ⟨d + d', u', ?_, ?_, hexit⟩
        · rw [Nat.succ_mul]
          omega
        · rw [List.replicate_add]
          exact hu.append hu'

end Loop

/-! ## The end of a run -/

section Leave

variable {M : Type} {mu : Multiplier M} {p : MeParams} {m clocks : Nat}
  {Shape : Nat → List SpOut → Prop} {Idle : Bool → (Nat → Nat) → (Nat → Nat) → M → Prop}

/-- The state machine waits, with its counters, the exponent and `result` as they
    are to begin with. -/
structure MeReady (p : MeParams) (Idle : Bool → (Nat → Nat) → (Nat → Nat) → M → Prop)
    (s : MeTop M) : Prop where
  state : s.me.currentState = .idle
  valid : s.me.resultValid = false
  taskReq : s.me.taskReq = false
  enaX : s.me.wrEnaX = false
  enaY : s.me.wrEnaY = false
  cnt : s.me.wrXCnt = 0
  yy : s.me.yy = p.meY
  lc : s.me.loopCounter = 0
  result : ∀ l, l < 2 ^ p.addrW → s.me.result l = p.resultBackup l
  idle : ∃ b x y, Idle b x y s.mul

/-- A clock of waiting, whatever is shown in it. -/
theorem ready_of_idle (spec : Multiplies mu p m clocks Shape Idle) {s : MeTop M} {i : MeIn}
    (hstate : s.me.currentState = .idle) (hreq : s.me.taskReq = false)
    (henaX : s.me.wrEnaX = false) (henaY : s.me.wrEnaY = false)
    (hresult : ∀ l, l < 2 ^ p.addrW → s.me.result l = p.resultBackup l)
    (hidle : ∃ b x y, Idle b x y s.mul) (hi : i.meStart = false) :
    MeReady p Idle (s.step p mu i) := by
  rcases hidle with ⟨b, x, y, hidle⟩
  refine ⟨?_, ?_, ?_, ?_, ?_, ?_, ?_, ?_, ?_, b, x, y, spec.waits hidle henaX henaY hreq⟩
  · simp [MeTop.step, Me.step, hstate, hi]
  · simp [MeTop.step, Me.step, hstate]
  · simp [MeTop.step, Me.step, hstate]
  · simp [MeTop.step, Me.step, hstate, henaX]
  · simp [MeTop.step, Me.step, hstate, henaY]
  · simp [MeTop.step, Me.step, hstate]
  · simp [MeTop.step, Me.step, hstate]
  · simp [MeTop.step, Me.step, hstate]
  · simp only [MeTop.step, Me.step, hstate]
    exact hresult

theorem MeReady.step (spec : Multiplies mu p m clocks Shape Idle) {s : MeTop M}
    (h : MeReady p Idle s) {i : MeIn} (hi : i.meStart = false) :
    MeReady p Idle (s.step p mu i) :=
  ready_of_idle spec h.state h.taskReq h.enaX h.enaY h.result h.idle hi

theorem MeReady.word {s : MeTop M} (h : MeReady p Idle s) : s.word = none := by
  rw [MeTop.word, h.valid]
  rfl

/-- A number of one word. -/
theorem holdsNum_single {z : Nat} (hz : z < 2 ^ p.k) :
    HoldsNum p (fun l => if l = 0 then z else 0) z := by
  have hpos : 0 < 2 ^ p.addrW := Nat.two_pow_pos _
  refine ⟨?_, ?_⟩
  · obtain ⟨n, hn⟩ : ∃ n, 2 ^ p.addrW = n + 1 := ⟨2 ^ p.addrW - 1, by omega⟩
    rw [hn, value_succ']
    simp [value]
  · intro l _
    split <;> omega

theorem MeParams.Valid.holdsNum_one (hv : p.Valid m) :
    HoldsNum p (fun l => if l = 0 then 1 else 0) 1 :=
  holdsNum_single (Nat.one_lt_two_pow (Nat.ne_of_gt hv.k_pos))

/-- The clocks of the last product: its words are shown and `result` is put
    back. -/
theorem Received.leaves (spec : Multiplies mu p m clocks Shape Idle) {base : Me} {prod z r : Nat}
    {s t : MeTop M} {init : List SpOut} {zs : List Nat}
    (h : Received mu p clocks Shape Idle .state4 base prod z s t init r zs) :
    Emits (MeTop.tick p mu) MeTop.word s
        (none :: (init ++ [lastOut r]).map (showsAfter .state4)) ((t.tick p mu).tick p mu) ∧
      MeReady p Idle ((t.tick p mu).tick p mu) := by
  have hgrant : (mu.out t.mul).taskGrant = true := by rw [h.out]; rfl
  have hres : (mu.out t.mul).taskRes = r := by rw [h.out]; rfl
  rcases result_word h.receiving noIn rfl hgrant h.length_lt with ⟨henaX, henaY, _, hresult, _⟩
  rw [hres] at hresult
  -- The state machine is idle and shows the last word.
  have hst : t.me.currentState = .state4 := h.receiving.state
  have hidle1 : (t.tick p mu).me.currentState = .idle := by
    simp [MeTop.tick, MeTop.step, Me.step, hst, h.out, lastOut, Me.finish, h.receiving.taskReq]
  have hreq1 : (t.tick p mu).me.taskReq = false := by
    simp [MeTop.tick, MeTop.step, Me.step, hst, h.out, lastOut, Me.finish, h.receiving.taskReq]
  have hresult1 : ∀ l, l < 2 ^ p.addrW → (t.tick p mu).me.result l = p.resultBackup l := by
    intro l hl
    simp only [MeTop.tick, MeTop.step]
    rw [hresult]
    simp only [resultWith]
    rw [h.words, length_toDigits, if_pos hl]
  refine ⟨?_, ?_⟩
  · have hlast := Emits.one (MeTop.tick p mu) MeTop.word (t.tick p mu)
    rw [h.word] at hlast
    rw [List.map_append]
    exact h.emits.append hlast
  · rcases h.idle with ⟨x1, y1, hidleM⟩
    exact ready_of_idle spec hidle1 hreq1 henaX henaY hresult1 ⟨true, x1, y1, hidleM⟩ rfl

/-- The last product. -/
theorem emits_leave (spec : Multiplies mu p m clocks Shape Idle) (hv : p.Valid m)
    {x e a a2 yy lc : Nat} {s : MeTop M} (h : Standing p Idle .state3 a a2 yy lc s)
    (ha : IsPower p m x e a) :
    ∃ os t, Emits (MeTop.tick p mu) MeTop.word s
        (List.replicate (2 ^ p.addrW + 2) none ++ os.map (showsAfter .state4)) t ∧
      granted os = toDigits (2 ^ p.k) (2 ^ p.addrW) (x ^ e % m) ∧ Shape a os ∧
      os.length ≤ clocks ∧ MeReady p Idle t := by
  -- A product with one takes the result out of the Montgomery form.
  have hone := hv.holdsNum_one
  rcases emits_send spec h.between .leave h.result.lt hone.lt with
    ⟨u, hu, hrecv, hword, x', y', hidle, hxy⟩
  have hbound : a * 1 < 2 ^ p.bits * m := by
    have := Nat.mul_le_mul_left (2 ^ p.bits) hv.m_pos
    have := h.result.num_lt
    omega
  rcases emits_receive spec hrecv rfl hword hidle h.result hone hxy hbound with
    ⟨t, init, r, zs, hr⟩
  rcases hr.leaves spec with ⟨hshown, hready⟩
  refine ⟨init ++ [lastOut r], (t.tick p mu).tick p mu, ?_, ?_, ?_, ?_, hready⟩
  · have hall := hu.append hshown
    rw [List.replicate_succ' (n := 2 ^ p.addrW + 1), List.append_assoc, List.singleton_append]
    exact hall
  · rw [hr.granted, montMul_one hv ha]
  · have hshape := hr.shape
    rw [Nat.mul_one] at hshape
    exact hshape
  · rw [List.length_append, List.length_singleton]
    exact hr.length

end Leave

/-! ## The base comes in -/

section Feed

variable {M : Type} {mu : Multiplier M} {p : MeParams} {m clocks : Nat}
  {Shape : Nat → List SpOut → Prop} {Idle : Bool → (Nat → Nat) → (Nat → Nat) → M → Prop}

/-- The memories of the multiplier hold the first `j` words of the base and of
    `rou`. -/
def Fed (p : MeParams) (Idle : Bool → (Nat → Nat) → (Nat → Nat) → M → Prop) (f : Nat → Nat)
    (j : Nat) (mul : M) : Prop :=
  ∃ b x y, Idle b x y mul ∧ (0 < j → b = true) ∧ ∀ l, l < j → x l = f l ∧ y l = p.rou l

/-- `j` words of the base `f` have come in; the last of them may still be on the
    wires to the multiplier. -/
structure Feeding (p : MeParams) (Idle : Bool → (Nat → Nat) → (Nat → Nat) → M → Prop)
    (f : Nat → Nat) (j : Nat) (s : MeTop M) : Prop where
  state : s.me.currentState = .state00
  valid : s.me.resultValid = false
  taskReq : s.me.taskReq = false
  cnt : s.me.wrXCnt = j
  addr : s.me.wrAddr = j % 2 ^ p.addrW
  yy : s.me.yy = p.meY
  lc : s.me.loopCounter = 0
  result : ∀ l, l < 2 ^ p.addrW → s.me.result l = p.resultBackup l
  fed : (s.me.wrEnaX = false ∧ s.me.wrEnaY = false ∧ Fed p Idle f j s.mul) ∨
    (s.me.wrEnaX = true ∧ s.me.wrEnaY = true ∧ 1 ≤ j ∧ s.me.wrAddrD1 = j - 1 ∧
      s.me.wrX = f (j - 1) ∧ s.me.wrY = p.rou (j - 1) ∧ Fed p Idle f (j - 1) s.mul)

variable {f : Nat → Nat} {j : Nat} {s : MeTop M} {i : MeIn}

theorem Feeding.word (h : Feeding p Idle f j s) : s.word = none := by
  rw [MeTop.word, h.valid]
  rfl

/-- A run is started. -/
theorem feeding_start (spec : Multiplies mu p m clocks Shape Idle) (h : MeReady p Idle s)
    (hi : i.meStart = true) : Feeding p Idle f 0 (s.step p mu i) := by
  rcases h.idle with ⟨b, x, y, hidle⟩
  refine ⟨?_, ?_, ?_, ?_, ?_, ?_, ?_, ?_, Or.inl ⟨?_, ?_, b, x, y, ?_, ?_, ?_⟩⟩
  · simp [MeTop.step, Me.step, h.state, hi]
  · simp [MeTop.step, Me.step, h.state]
  · simp [MeTop.step, Me.step, h.state]
  · simp [MeTop.step, Me.step, h.state]
  · simp [MeTop.step, Me.step, h.state]
  · simp [MeTop.step, Me.step, h.state]
  · simp [MeTop.step, Me.step, h.state]
  · simp only [MeTop.step, Me.step, h.state]
    exact h.result
  · simp [MeTop.step, Me.step, h.state, h.enaX]
  · simp [MeTop.step, Me.step, h.state, h.enaY]
  · exact spec.waits hidle h.enaX h.enaY h.taskReq
  · exact fun h0 => absurd h0 (Nat.lt_irrefl 0)
  · exact fun l hl => absurd hl (Nat.not_lt_zero l)

/-- After a clock the word on the wires is in the memories. -/
theorem fed_step (spec : Multiplies mu p m clocks Shape Idle) (hv : p.Valid m)
    (h : Feeding p Idle f j s) (hj : j ≤ 2 ^ p.addrW) (hf : ∀ l, l < 2 ^ p.addrW → f l < 2 ^ p.k) :
    Fed p Idle f j (s.step p mu i).mul := by
  rcases h.fed with ⟨henaX, henaY, b, x, y, hidle, hb, hwords⟩ |
    ⟨henaX, henaY, h1, haddr, hx, hy, b, x, y, hidle, hb, hwords⟩
  · exact ⟨b, x, y, spec.waits hidle henaX henaY h.taskReq, hb, hwords⟩
  · have hlt : j - 1 < 2 ^ p.addrW := by omega
    have hw := spec.writes (i := s.me.mulIn p) hidle henaX henaY h.taskReq
      (by simpa [Me.mulIn, haddr] using hlt) (by simpa [Me.mulIn, hx] using hf _ hlt)
      (by simpa [Me.mulIn, hy] using hv.rou.lt _ hlt) rfl
    refine ⟨true, _, _, hw, fun _ => rfl, ?_⟩
    intro l hl
    simp only [Me.mulIn, setWord, haddr, hx, hy]
    by_cases hlast : l = j - 1
    · rw [if_pos hlast, if_pos hlast, hlast]
      exact ⟨rfl, rfl⟩
    · rw [if_neg hlast, if_neg hlast]
      exact hwords l (by omega)

/-- A word comes in. -/
theorem feeding_word (spec : Multiplies mu p m clocks Shape Idle) (hv : p.Valid m)
    (h : Feeding p Idle f j s) (hj : j < 2 ^ p.addrW) (hf : ∀ l, l < 2 ^ p.addrW → f l < 2 ^ p.k)
    (hi : i.meXValid = true) (hx : i.meX = f j) : Feeding p Idle f (j + 1) (s.step p mu i) := by
  have hfed := fed_step (i := i) spec hv h (by omega) hf
  have hmod : j % 2 ^ p.addrW = j := Nat.mod_eq_of_lt hj
  have hcnt : (j + 1) % 2 ^ (p.addrW + 1) = j + 1 :=
    Nat.mod_eq_of_lt (by rw [pow_succ]; omega)
  have hne : j ≠ 2 ^ p.addrW := by omega
  have hme : (s.step p mu i).me = { s.me with
      wrXCnt := j + 1, wrAddr := (j + 1) % 2 ^ p.addrW, wrEnaX := true, wrX := f j
      wrEnaY := true, wrY := p.rou j, wrAddrD1 := j } := by
    simp only [MeTop.step, Me.step, h.state, hi, if_true, h.cnt, h.addr, hmod, hcnt, hx, if_neg hne]
  refine ⟨?_, ?_, ?_, ?_, ?_, ?_, ?_, ?_, Or.inr ⟨?_, ?_, by omega, ?_, ?_, ?_, hfed⟩⟩
  all_goals rw [hme]
  · exact h.state
  · exact h.valid
  · exact h.taskReq
  · exact h.yy
  · exact h.lc
  · exact h.result
  all_goals rfl

/-- A clock without a word. -/
theorem feeding_gap (spec : Multiplies mu p m clocks Shape Idle) (hv : p.Valid m)
    (h : Feeding p Idle f j s) (hj : j < 2 ^ p.addrW) (hf : ∀ l, l < 2 ^ p.addrW → f l < 2 ^ p.k)
    (hi : i.meXValid = false) : Feeding p Idle f j (s.step p mu i) := by
  have hfed := fed_step (i := i) spec hv h (by omega) hf
  have hne : j ≠ 2 ^ p.addrW := by omega
  have hme : (s.step p mu i).me
      = { s.me with wrEnaX := false, wrEnaY := false, wrAddrD1 := s.me.wrAddr } := by
    simp only [MeTop.step, Me.step, h.state, hi, Bool.false_eq_true, if_false, h.cnt, if_neg hne]
  refine ⟨?_, ?_, ?_, ?_, ?_, ?_, ?_, ?_, Or.inl ⟨?_, ?_, hfed⟩⟩
  all_goals rw [hme]
  · exact h.state
  · exact h.valid
  · exact h.taskReq
  · exact h.cnt
  · exact h.addr
  · exact h.yy
  · exact h.lc
  · exact h.result

/-- In the clock after the last word the first product is requested. -/
theorem feeding_done (spec : Multiplies mu p m clocks Shape Idle) (hv : p.Valid m)
    (h : Feeding p Idle f (2 ^ p.addrW) s) (hf : ∀ l, l < 2 ^ p.addrW → f l < 2 ^ p.k)
    (hi : i.meXValid = false) :
    Receiving p .state01 s.me [] (s.step p mu i).me ∧ (s.step p mu i).word = none ∧
      ∃ x y, Idle true x y (s.step p mu i).mul ∧
        ∀ l, l < 2 ^ p.addrW → x l = f l ∧ y l = p.rou l := by
  rcases fed_step (i := i) spec hv h (Nat.le_refl _) hf with ⟨b, x, y, hidle, hb, hwords⟩
  have hme : (s.step p mu i).me = { s.me with
      wrEnaX := false, wrEnaY := false, wrXCnt := 0, taskReq := true, wrAddr := 0
      currentState := .state01, wrAddrD1 := s.me.wrAddr } := by
    simp only [MeTop.step, Me.step, h.state, hi, Bool.false_eq_true, if_false, h.cnt, if_true]
  refine ⟨?_, ?_, x, y, ?_, hwords⟩
  · rw [hme]
    refine ⟨rfl, rfl, rfl, rfl, ?_, rfl, rfl, rfl, ?_⟩
    · rw [List.length_nil, Nat.zero_mod]
    · rw [result2With, stored_nil]
  · rw [MeTop.word, hme]
    exact h.word
  · rw [hb (Nat.two_pow_pos _)] at hidle
    exact hidle

/-- The most clocks from the last word of the base on. -/
def powerClocks (p : MeParams) (clocks : Nat) : Nat :=
  1 + clocks + p.bits * (2 * productClocks p clocks) + (2 ^ p.addrW + 2) + clocks

/-- From the last word of the base to the last word of the result. The words of
    the last product are shown in the clocks in which they come, and a clock
    later. -/
theorem emits_power (spec : Multiplies mu p m clocks Shape Idle) (hv : p.Valid m) {x : Nat}
    (h : Feeding p Idle f (2 ^ p.addrW) s) (hf : HoldsNum p f x) :
    ∃ d os t a, Emits (MeTop.tick p mu) MeTop.word s
        (List.replicate d none ++ os.map (showsAfter .state4)) t ∧
      granted os = toDigits (2 ^ p.k) (2 ^ p.addrW) (x ^ effective p.meY % m) ∧
      (a < m ∧ Shape a os) ∧ d + os.length ≤ powerClocks p clocks ∧ MeReady p Idle t := by
  have hbits := hv.two_le_bits
  -- The first product.
  rcases feeding_done (i := noIn) spec hv h hf.lt rfl with ⟨hrecv, hword, x', y', hidle, hxy⟩
  have hrou : 2 ^ (2 * p.bits) % m < m := Nat.mod_lt _ hv.m_pos
  rcases emits_receive spec hrecv rfl hword hidle hf hv.rou hxy (lt_bound hf.num_lt hrou) with
    ⟨t, init, r, zs, hr⟩
  have hst : t.me.currentState = .state01 := hr.receiving.state
  have hstanding : Standing p Idle .state10 (2 ^ p.bits % m)
      (montMul m (2 ^ p.bits) x (2 ^ (2 * p.bits) % m)) p.meY 0 (t.tick p mu) := by
    refine hr.standing rfl nofun ?_ ?_ ?_ ?_ ?_ ?_
    · simp [MeTop.tick, MeTop.step, Me.step, hst, hr.out, lastOut, Me.finish, hr.receiving.taskReq]
    · simp [MeTop.tick, MeTop.step, Me.step, hst, hr.out, lastOut, Me.finish, hr.receiving.taskReq]
    · simp [MeTop.tick, MeTop.step, Me.step, hst, hr.out, lastOut, Me.finish, hr.receiving.taskReq,
        hr.receiving.yy, h.yy]
    · simp [MeTop.tick, MeTop.step, Me.step, hst, hr.out, lastOut, Me.finish, hr.receiving.taskReq,
        hr.receiving.loopCounter, h.lc]
    · exact hv.backup.congr h.result
    · change HoldsNum p (stored s.me.result2 (zs ++ [r])) _
      rw [hr.words]
      exact holdsNum_stored _ (Nat.lt_trans (montMul_lt hv.m_pos) hv.m_lt)
  -- The loop.
  have hbit : AtBit p Idle m x (montMul m (2 ^ p.bits) x (2 ^ (2 * p.bits) % m)) 0
      (t.tick p mu) := by
    refine ⟨by omega, fun h0 => by omega, 2 ^ p.bits % m, ?_, ?_⟩
    · rw [Nat.sub_zero, Nat.div_eq_of_lt hv.meY_lt]
      exact isPower_zero hv
    · rw [pow_zero, Nat.mul_one, Nat.mod_eq_of_lt hv.meY_lt]
      exact hstanding
  rcases emits_loop spec hv (isPower_first hv) p.bits 0 _ (Nat.zero_add _) hbit with
    ⟨d, u, hd, hu, a, a2, yy, lc, hpow, hexit⟩
  -- The last product.
  rcases emits_leave spec hv hexit hpow with ⟨os, v, hv', hgranted, hshape, hlen, hready⟩
  refine ⟨1 + (init.length + 1) + d + (2 ^ p.addrW + 2), os, v, a, ?_, hgranted,
    ⟨hpow.lt, hshape⟩, ?_, hready⟩
  · have hfirst := Emits.one (MeTop.tick p mu) MeTop.word s
    rw [h.word] at hfirst
    have hall := ((hfirst.append (hr.emits_none nofun)).append hu).append hv'
    rw [List.replicate_add, List.replicate_add, List.replicate_add, List.append_assoc]
    exact hall
  · have := hr.length
    rw [powerClocks]
    omega

end Feed

end Rsa

end Wujian100
