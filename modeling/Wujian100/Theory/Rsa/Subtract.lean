import Wujian100.Theory.Rsa.Rounds

/-!
# The Final Comparison and Subtraction

What the multiplier does with the accumulator after the rounds. It is compared
with the modulus word by word from the top; a word that differs decides, and
equal numbers are taken for greater. Then the words go out from the bottom,
either as they are or minus the modulus, and the accumulator is cleared on the
way.

The subtraction adds the inverted words of the modulus, one more in the lowest
word, and what the word below carried. It takes two clocks a word. The one more
is added when the address is one, because the address has moved on by then; it
stays where it is after the last word, so with two words it would be added
twice. The results here are for four words and more.

## Main definitions

* `AtWord`: A word is compared.
* `AtVerdict`: The comparison is over.
* `AtNop`, `AtSubEven`, `AtSubOdd`, `AtSubEnd`: The words go out.

## Theorems

* `P1Adder.fullSum_step`: The adder in two halves adds.
* `emits_compare`: The comparison.
* `emits_nop`, `emits_sub`: The output.
-/

namespace Wujian100

namespace Rsa

/-- The two halves of the adder, put together. -/
theorem P1Adder.fullSum_step {ain bin : Nat} (ha : ain < 2 ^ 129) (hb : bin < 2 ^ 129) :
    (P1Adder.step ain bin).fullSum = ain + bin := by
  simp only [P1Adder.fullSum, P1Adder.step]
  omega

/-- In the states before the output the flags are down. -/
structure Sub.Flags (s : Sub) : Prop where
  bf1 : s.bf1 = false
  subVal : s.subVal = false
  nopVal : s.nopVal = false
  odd : s.odd = false

theorem Sub.Quiet.flags {s : Sub} (h : s.Quiet) : s.Flags :=
  ⟨h.bf1, h.subVal, h.nopVal, h.odd⟩

section Registers

variable (w : Nat) (s : Sub) (req : Bool) (aj an mj : Nat)

/-- The registers beside the state and the address do not depend on where these
    go. -/
theorem Sub.step_registers :
    ∃ st addrA, s.step w req aj an mj
      = { st, addrA
          odd := if s.st = .outSub then !s.odd else false
          nopVal := decide (s.st = .outNop)
          bf1 := decide (s.st = .outSub)
          subVal := s.subEna
          carry := if s.subEna then s.difference / 2 ^ wordBits else if !s.bf1 then 0 else s.carry
          bf0 := if s.subEna then s.difference % 2 ^ wordBits else if !s.bf1 then 0 else s.bf0
          adder := P1Adder.step (2 ^ wordBits - 1 - mj) aj } := by
  cases h : s.st <;> simp only [Sub.step, h] <;>
    first | exact ⟨_, _, rfl⟩ | (split <;> first | exact ⟨_, _, rfl⟩ | (split <;> exact ⟨_, _, rfl⟩))

theorem Sub.step_odd :
    (s.step w req aj an mj).odd = if s.st = .outSub then !s.odd else false := by
  rcases s.step_registers w req aj an mj with ⟨_, _, h⟩
  rw [h]

theorem Sub.step_nopVal : (s.step w req aj an mj).nopVal = decide (s.st = .outNop) := by
  rcases s.step_registers w req aj an mj with ⟨_, _, h⟩
  rw [h]

theorem Sub.step_bf1 : (s.step w req aj an mj).bf1 = decide (s.st = .outSub) := by
  rcases s.step_registers w req aj an mj with ⟨_, _, h⟩
  rw [h]

theorem Sub.step_subVal : (s.step w req aj an mj).subVal = s.subEna := by
  rcases s.step_registers w req aj an mj with ⟨_, _, h⟩
  rw [h]

theorem Sub.step_carry : (s.step w req aj an mj).carry
    = if s.subEna then s.difference / 2 ^ wordBits else if !s.bf1 then 0 else s.carry := by
  rcases s.step_registers w req aj an mj with ⟨_, _, h⟩
  rw [h]

theorem Sub.step_bf0 : (s.step w req aj an mj).bf0
    = if s.subEna then s.difference % 2 ^ wordBits else if !s.bf1 then 0 else s.bf0 := by
  rcases s.step_registers w req aj an mj with ⟨_, _, h⟩
  rw [h]

theorem Sub.step_adder :
    (s.step w req aj an mj).adder = P1Adder.step (2 ^ wordBits - 1 - mj) aj := by
  rcases s.step_registers w req aj an mj with ⟨_, _, h⟩
  rw [h]

end Registers

section Final

variable {w : Nat} {job : Job w} {acc : Acc w} {s : Sp}

/-- While the accumulator is not written, the comparison keeps it. -/
theorem atFinal_tick (h : AtFinal job acc s) (hend : s.sub.taskEnd = false)
    (hclr : s.sub.clraWren = false) : AtFinal job acc (s.tick w) := by
  refine ⟨?_, h.held.tick, ?_⟩
  · rw [ctrl_tick, h.ctrl, hend]
    exact Ctrl.step_finalAt (Nat.two_pow_pos w)
  · intro l hl
    have hena : s.ctrl.refWrAEna = false := by rw [h.ctrl]; rfl
    simp [Sp.tick, Sp.step, Ram.step, hena, hclr, h.mem l hl]

/-- During the comparison the memories are read where it says. -/
theorem rdAddr_final {an : Nat} (hctrl : s.ctrl = Ctrl.finalAt an) (hw : w ≤ 5)
    (haddr : s.sub.addrA < 2 ^ w) : s.rdAddr w = s.sub.addrA := by
  simp [Sp.rdAddr, hctrl, Ctrl.finalAt, port_eq hw haddr]

theorem aq_final {an : Nat} (hctrl : s.ctrl = Ctrl.finalAt an) (hw : w ≤ 5)
    (haddr : s.sub.addrA < 2 ^ w) : (s.tick w).a.q = s.a.mem s.sub.addrA := by
  simp only [Sp.tick, Sp.step, Ram.step, rdAddr_final hctrl hw haddr]
  split <;> rfl

theorem mq_final {an : Nat} (hctrl : s.ctrl = Ctrl.finalAt an) (hheld : job.Held s) (hw : w ≤ 5)
    (haddr : s.sub.addrA < 2 ^ w) : (s.tick w).m.q = job.m s.sub.addrA := by
  simp only [Sp.tick, Sp.step, Ram.step, rdAddr_final hctrl hw haddr, hheld.m]

end Final

/-! ## The comparison -/

section Compare

variable {w : Nat} (job : Job w) (acc : Acc w)

/-- Word `k` is compared, and the words above it are equal. -/
structure AtWord (k : Nat) (s : Sp) : Prop where
  final : AtFinal job acc s
  flags : s.sub.Flags
  st : s.sub.st = if k = 0 then .compProcess2 else .compProcess
  addrA : s.sub.addrA = k - 1
  aq : s.a.q = acc.a k
  mq : s.m.q = job.m k
  top : acc.top = 0
  agree : ∀ l, k < l → l < 2 ^ w → acc.a l = job.m l

/-- The comparison is over. -/
structure AtVerdict (s : Sp) : Prop where
  final : AtFinal job acc s
  flags : s.sub.Flags
  st : s.sub.st = if job.numM ≤ acc.num then .compFinSub else .compFinNop

variable {job acc}

theorem num_of_top (htop : acc.top = 0) : acc.num = value (2 ^ wordBits) (2 ^ w) acc.a := by
  rw [Acc.num, htop, Nat.zero_mul, Nat.add_zero]

/-- A greater word makes a greater number. -/
theorem numM_lt_of_word {k : Nat} {s : Sp} (h : AtWord job acc k s) (hk : k < 2 ^ w)
    (hlt : job.m k < acc.a k) : job.numM < acc.num := by
  rw [num_of_top h.top]
  exact value_lt_of_agree (fun l hl => lt_radix_iff.mpr (job.m_le l hl)) hk hlt
    fun l hl hln => (h.agree l hl hln).symm

theorem num_lt_of_word {k : Nat} {s : Sp} (h : AtWord job acc k s) (hk : k < 2 ^ w)
    (hlt : acc.a k < job.m k) : acc.num < job.numM := by
  rw [num_of_top h.top]
  exact value_lt_of_agree (fun l hl => lt_radix_iff.mpr (acc.a_le l hl)) hk hlt h.agree

theorem AtWord.taskEnd {k : Nat} {s : Sp} (h : AtWord job acc k s) : s.sub.taskEnd = false := by
  rw [Sub.taskEnd, h.st]
  split <;> rfl

theorem AtWord.clraWren {k : Nat} {s : Sp} (h : AtWord job acc k s) : s.sub.clraWren = false := by
  rw [Sub.clraWren, h.st]
  split <;> rfl

theorem Sub.Flags.out {s : Sp} (h : s.sub.Flags) (hend : s.sub.taskEnd = false) :
    s.out = silent := by
  simp [Sp.out, silent, Sub.resVal, Sub.res, hend, h.nopVal, h.subVal]

/-- The flags stay down as long as no word goes out. -/
theorem Sub.Flags.step {s : Sub} (h : s.Flags) (hnop : s.st ≠ .outNop) (hsub : s.st ≠ .outSub)
    (w : Nat) (req : Bool) (aj an mj : Nat) : (s.step w req aj an mj).Flags := by
  refine ⟨?_, ?_, ?_, ?_⟩
  · rw [Sub.step_bf1, decide_eq_false hsub]
  · rw [Sub.step_subVal, Sub.subEna, h.bf1, Bool.false_and]
  · rw [Sub.step_nopVal, decide_eq_false hnop]
  · rw [Sub.step_odd, if_neg hsub]

/-- A word decides, or the next one is compared. -/
theorem atWord_tick {k : Nat} {s : Sp} (h : AtWord job acc k s) (hk : k < 2 ^ w) (hw : w ≤ 5) :
    AtVerdict job acc (s.tick w) ∨ (0 < k ∧ AtWord job acc (k - 1) (s.tick w)) := by
  have hfinal := atFinal_tick h.final h.taskEnd h.clraWren
  have hnop : s.sub.st ≠ .outNop := by rw [h.st]; split <;> exact (by simp)
  have hsub : s.sub.st ≠ .outSub := by rw [h.st]; split <;> exact (by simp)
  have hflags : (s.tick w).sub.Flags := h.flags.step hnop hsub ..
  have hpos : 0 < 2 ^ w := Nat.two_pow_pos w
  -- The comparison of the words, with what follows when they are equal.
  have hst : (s.tick w).sub.st
      = Sub.compare (acc.a k) (job.m k)
          (if k = 0 then .compFinSub else if k = 1 then .compProcess2 else .compProcess) := by
    rw [sub_tick, h.aq, h.mq]
    by_cases hk0 : k = 0
    · simp [Sub.step, h.st, hk0]
    · by_cases hk1 : k = 1
      · simp [Sub.step, h.st, h.addrA, hk1]
      · have hne : k - 1 ≠ 0 := by omega
        simp [Sub.step, h.st, h.addrA, hk0, hk1, hne]
  rcases Nat.lt_trichotomy (acc.a k) (job.m k) with hlt | heq | hgt
  · have hnum := num_lt_of_word h hk hlt
    refine Or.inl ⟨hfinal, hflags, ?_⟩
    rw [hst, if_neg (Nat.not_le.mpr hnum), Sub.compare, if_neg (by omega), if_pos hlt]
  · rw [heq, Sub.compare, if_neg (Nat.lt_irrefl _), if_neg (Nat.lt_irrefl _)] at hst
    by_cases hk0 : k = 0
    · -- All the words are equal.
      have hnum : job.numM = acc.num := by
        rw [num_of_top h.top]
        refine value_congr fun l hl => ?_
        by_cases hl0 : l = 0
        · rw [hl0, ← hk0, heq]
        · exact (h.agree l (by omega) hl).symm
      refine Or.inl ⟨hfinal, hflags, ?_⟩
      rw [hst, if_pos hk0, if_pos (by omega)]
    · have haddr : s.sub.addrA < 2 ^ w := by rw [h.addrA]; omega
      refine Or.inr ⟨by omega, hfinal, hflags, ?_, ?_, ?_, ?_, h.top, ?_⟩
      · rw [hst, if_neg hk0]
        by_cases hk1 : k = 1
        · rw [if_pos hk1, if_pos (by omega)]
        · rw [if_neg hk1, if_neg (by omega)]
      · rw [sub_tick]
        by_cases hk1 : k = 1
        · simp [Sub.step, h.st, h.addrA, hk1]
        · have hne : k - 1 ≠ 0 := by omega
          have hmod : (k - 1 + 2 ^ w - 1) % 2 ^ w = k - 1 - 1 := by
            rw [show k - 1 + 2 ^ w - 1 = k - 1 - 1 + 2 ^ w by omega, Nat.add_mod_right]
            exact Nat.mod_eq_of_lt (by omega)
          simp [Sub.step, h.st, h.addrA, hk0, hne, hmod]
      · rw [aq_final h.final.ctrl hw haddr, h.addrA, h.final.mem _ (by omega)]
      · rw [mq_final h.final.ctrl h.final.held hw haddr, h.addrA]
      · intro l hl hln
        by_cases hlk : l = k
        · rw [hlk, heq]
        · exact h.agree l (by omega) hln
  · have hnum := numM_lt_of_word h hk hgt
    refine Or.inl ⟨hfinal, hflags, ?_⟩
    rw [hst, if_pos (Nat.le_of_lt hnum), Sub.compare, if_pos hgt]

theorem AtWord.view {k : Nat} {s : Sp} (h : AtWord job acc k s) : s.view = still := by
  rw [Sp.view, h.flags.out h.taskEnd, h.st]
  split <;> rfl

/-- The comparison from word `k` down. -/
theorem emits_words (hw : w ≤ 5) : ∀ (k : Nat) (s : Sp), k < 2 ^ w → AtWord job acc k s →
    ∃ d t, d ≤ k + 1 ∧ Emits (Sp.tick w) Sp.view s (List.replicate d still) t ∧
      AtVerdict job acc t := by
  intro k
  induction k with
  | zero =>
      intro s hk h
      rcases atWord_tick h hk hw with hv | ⟨hpos, _⟩
      · exact ⟨1, _, Nat.le_refl _, ⟨h.view, rfl⟩, hv⟩
      · omega
  | succ k ih =>
      intro s hk h
      rcases atWord_tick h hk hw with hv | ⟨_, hnext⟩
      · exact ⟨1, _, by omega, ⟨h.view, rfl⟩, hv⟩
      · rcases ih (s.tick w) (by omega) hnext with ⟨d, t, hd, ht, hv⟩
        exact ⟨d + 1, t, by omega, ⟨h.view, ht⟩, hv⟩

/-- The bit above the words makes the accumulator greater. -/
theorem numM_le_of_top (htop : acc.top = 1) : job.numM ≤ acc.num := by
  have hm : job.numM < (2 ^ wordBits) ^ 2 ^ w := numM_lt
  rw [Acc.num, htop, Nat.one_mul]
  omega

/-- The whole comparison. -/
theorem emits_compare {s : Sp} (h : AtFinal job acc s) (hquiet : s.sub.Quiet) (hw : w ≤ 5)
    (hw1 : 1 ≤ w) :
    ∃ d t, d ≤ 2 ^ w + 2 ∧ Emits (Sp.tick w) Sp.view s (List.replicate d still) t ∧
      AtVerdict job acc t := by
  have hpos : 2 ^ 1 ≤ 2 ^ w := Nat.pow_le_pow_right Nat.two_pos hw1
  have hreq : s.ctrl.compReq = true := by rw [h.ctrl]; rfl
  -- The request is seen.
  have hfinal1 := atFinal_tick h hquiet.taskEnd hquiet.clraWren
  have hst1 : (s.tick w).sub.st = .compMsw := by simp [sub_tick, Sub.step, hquiet.st, hreq]
  have haddr1 : (s.tick w).sub.addrA = 2 ^ w - 1 := by
    simp [sub_tick, Sub.step, hquiet.st, hreq, Sub.lastAddr]
  have hflags1 : (s.tick w).sub.Flags :=
    hquiet.flags.step (by rw [hquiet.st]; simp) (by rw [hquiet.st]; simp) ..
  generalize hs1 : s.tick w = s1 at hfinal1 hst1 haddr1 hflags1
  -- The bit above the words is looked at.
  have hend1 : s1.sub.taskEnd = false := by rw [Sub.taskEnd, hst1]; rfl
  have hview1 : s1.view = still := by
    rw [Sp.view, hflags1.out hend1, hst1]
    rfl
  have hfinal2 := atFinal_tick hfinal1 hend1 (by rw [Sub.clraWren, hst1]; rfl)
  have hflags2 : (s1.tick w).sub.Flags :=
    hflags1.step (by rw [hst1]; simp) (by rw [hst1]; simp) ..
  have han : s1.ctrl.refAn = acc.top := by rw [hfinal1.ctrl]; rfl
  have htwo : Emits (Sp.tick w) Sp.view s (List.replicate 2 still) (s1.tick w) := by
    refine ⟨view_of_quiet hquiet, ?_⟩
    rw [hs1]
    exact ⟨hview1, rfl⟩
  by_cases htop : acc.top = 1
  · refine ⟨2, _, by omega, htwo, hfinal2, hflags2, ?_⟩
    rw [if_pos (numM_le_of_top htop)]
    simp [sub_tick, Sub.step, hst1, han, htop]
  · have htop0 : acc.top = 0 := by
      have := acc.top_le
      omega
    have hword : AtWord job acc (2 ^ w - 1) (s1.tick w) := by
      have hlt : s1.sub.addrA < 2 ^ w := by rw [haddr1]; omega
      refine ⟨hfinal2, hflags2, ?_, ?_, ?_, ?_, htop0, fun l hl hln => by omega⟩
      · rw [if_neg (by omega)]
        simp [sub_tick, Sub.step, hst1, han, htop0]
      · have hmod : (2 ^ w - 1 + 2 ^ w - 1) % 2 ^ w = 2 ^ w - 1 - 1 := by
          rw [show 2 ^ w - 1 + 2 ^ w - 1 = 2 ^ w - 1 - 1 + 2 ^ w by omega, Nat.add_mod_right]
          exact Nat.mod_eq_of_lt (by omega)
        simp [sub_tick, Sub.step, hst1, han, htop0, haddr1, hmod]
      · rw [aq_final hfinal1.ctrl hw hlt, haddr1, hfinal1.mem _ (by omega)]
      · rw [mq_final hfinal1.ctrl hfinal1.held hw hlt, haddr1]
    rcases emits_words hw _ _ (by omega) hword with ⟨d, t, hd, ht, hv⟩
    refine ⟨2 + d, t, by omega, ?_, hv⟩
    rw [List.replicate_add]
    exact htwo.append ht

end Compare

/-! ## The output -/

/-- A word of the result. -/
def wordOut (z : Nat) : SpOut where
  taskEnd := false
  taskGrant := true
  taskRes := z

/-- The last word of the result. -/
def lastOut (z : Nat) : SpOut where
  taskEnd := true
  taskGrant := true
  taskRes := z

section Output

variable {w : Nat} (job : Job w) (acc : Acc w)

/-- The words below `k` have been cleared. -/
structure AtOut (k : Nat) (s : Sp) : Prop where
  ctrl : s.ctrl = Ctrl.finalAt acc.top
  held : job.Held s
  mem : ∀ l, l < 2 ^ w → s.a.mem l = if l < k then 0 else acc.a l

variable {job acc} {k : Nat} {s : Sp}

theorem AtFinal.atOut (h : AtFinal job acc s) : AtOut job acc 0 s :=
  ⟨h.ctrl, h.held, h.mem⟩

theorem AtOut.ctrl_next (h : AtOut job acc k s) (hend : s.sub.taskEnd = false) :
    (s.tick w).ctrl = Ctrl.finalAt acc.top := by
  rw [ctrl_tick, h.ctrl, hend]
  exact Ctrl.step_finalAt (Nat.two_pow_pos w)

/-- A clock that clears no word. -/
theorem AtOut.keep (h : AtOut job acc k s) (hend : s.sub.taskEnd = false)
    (hclr : s.sub.clraWren = false) : AtOut job acc k (s.tick w) := by
  refine ⟨h.ctrl_next hend, h.held.tick, ?_⟩
  intro l hl
  have hena : s.ctrl.refWrAEna = false := by rw [h.ctrl]; rfl
  simp [Sp.tick, Sp.step, Ram.step, hena, hclr, h.mem l hl]

/-- A clock that clears word `k`. -/
theorem AtOut.clear (h : AtOut job acc k s) (hend : s.sub.taskEnd = false)
    (hclr : s.sub.clraWren = true) (haddr : s.sub.addrA = k) (hk : k < 2 ^ w) (hw : w ≤ 5) :
    AtOut job acc (k + 1) (s.tick w) := by
  refine ⟨h.ctrl_next hend, h.held.tick, ?_⟩
  intro l hl
  simp only [Sp.tick, Sp.step, Ram.step, hclr, if_true, haddr, port_eq hw hk]
  by_cases hlk : l = k
  · rw [if_pos hlk, if_pos (by omega)]
  · rw [if_neg hlk, h.mem l hl]
    by_cases hlt : l < k
    · rw [if_pos hlt, if_pos (by omega)]
    · rw [if_neg hlt, if_neg (by omega)]

/-- After the last word the multiplier waits again. -/
theorem AtOut.idle (h : AtOut job acc (2 ^ w) s) (hend : s.sub.taskEnd = true)
    (hquiet : (s.tick w).sub.Quiet) (hclr : s.sub.clraWren = false) :
    (s.tick w).Idle w ∧ job.Held (s.tick w) := by
  refine ⟨⟨?_, hquiet, ?_⟩, h.held.tick⟩
  · rw [ctrl_tick, h.ctrl, hend]
    exact Ctrl.step_finalAt_end (Nat.two_pow_pos w)
  · intro l hl
    have hena : s.ctrl.refWrAEna = false := by rw [h.ctrl]; rfl
    have hmem := h.mem l hl
    rw [if_pos hl] at hmem
    simp [Sp.tick, Sp.step, Ram.step, hena, hclr, hmem]

/-! ### As they are -/

variable (job acc) in
/-- Word `k` is read, and the word below it goes out. -/
structure AtNop (k : Nat) (s : Sp) : Prop where
  out : AtOut job acc k s
  st : s.sub.st = .outNop
  addrA : s.sub.addrA = k
  bf1 : s.sub.bf1 = false
  subVal : s.sub.subVal = false
  odd : s.sub.odd = false
  nopVal : s.sub.nopVal = decide (0 < k)
  aq : 0 < k → s.a.q = acc.a (k - 1)

/-- What is shown while word `k` is read. -/
def nopShows (acc : Acc w) (k : Nat) : SpOut :=
  if k = 0 then silent else wordOut (acc.a (k - 1))

theorem AtNop.shows (h : AtNop job acc k s) : s.out = nopShows acc k := by
  have hend : s.sub.taskEnd = false := by rw [Sub.taskEnd, h.st]; rfl
  by_cases hk : k = 0
  · simp [Sp.out, nopShows, silent, Sub.resVal, Sub.res, hend, h.nopVal, h.subVal, hk]
  · have hpos : 0 < k := by omega
    simp [Sp.out, nopShows, wordOut, Sub.resVal, Sub.res, hend, h.nopVal, hk, hpos, h.aq hpos]

/-- The part of a clock of the output that is the same for all words. -/
theorem AtNop.registers (h : AtNop job acc k s) (hk : k < 2 ^ w) (hw : w ≤ 5) :
    AtOut job acc (k + 1) (s.tick w) ∧ (s.tick w).sub.bf1 = false ∧
      (s.tick w).sub.subVal = false ∧ (s.tick w).sub.odd = false ∧
      (s.tick w).sub.nopVal = true ∧ (s.tick w).a.q = acc.a k := by
  have hend : s.sub.taskEnd = false := by rw [Sub.taskEnd, h.st]; rfl
  have hclr : s.sub.clraWren = true := by rw [Sub.clraWren, h.st]; rfl
  refine ⟨h.out.clear hend hclr h.addrA hk hw, ?_, ?_, ?_, ?_, ?_⟩
  · rw [sub_tick, Sub.step_bf1, h.st]
    rfl
  · rw [sub_tick, Sub.step_subVal, Sub.subEna, h.bf1, Bool.false_and]
  · rw [sub_tick, Sub.step_odd, h.st, if_neg (by simp)]
  · rw [sub_tick, Sub.step_nopVal, h.st]
    rfl
  · rw [aq_final h.out.ctrl hw (by rw [h.addrA]; exact hk), h.addrA, h.out.mem k hk,
      if_neg (Nat.lt_irrefl k)]

theorem atNop_tick (h : AtNop job acc k s) (hk : k + 1 < 2 ^ w) (hw : w ≤ 5) :
    AtNop job acc (k + 1) (s.tick w) := by
  rcases h.registers (by omega) hw with ⟨hout, hbf1, hsub, hodd, hnop, haq⟩
  have hne : k ≠ 2 ^ w - 1 := by omega
  have hmod : (k + 1) % 2 ^ w = k + 1 := Nat.mod_eq_of_lt hk
  refine ⟨hout, ?_, ?_, hbf1, hsub, hodd, ?_, fun _ => haq⟩
  · simp [sub_tick, Sub.step, h.st, h.addrA, Sub.lastAddr, hne]
  · simp [sub_tick, Sub.step, h.st, h.addrA, Sub.lastAddr, hne, hmod]
  · rw [hnop, decide_eq_true (Nat.succ_pos k)]

/-- An output without a subtraction. -/
def plain (o : SpOut) : SpOut × Bool := (o, false)

theorem AtNop.view (h : AtNop job acc k s) : s.view = plain (nopShows acc k) := by
  rw [Sp.view, h.shows, h.st]
  rfl

/-- The words go out as they are. -/
theorem emits_nop (h : AtVerdict job acc s) (hlt : acc.num < job.numM) (hw : w ≤ 5) :
    ∃ t, Emits (Sp.tick w) Sp.view s
        ((silent :: (List.range (2 ^ w)).map (nopShows acc)
          ++ [lastOut (acc.a (2 ^ w - 1))]).map plain) t ∧
      t.Idle w ∧ job.Held t := by
  have hpos : 0 < 2 ^ w := Nat.two_pow_pos w
  have hst : s.sub.st = .compFinNop := by rw [h.st, if_neg (Nat.not_le.mpr hlt)]
  have hend : s.sub.taskEnd = false := by rw [Sub.taskEnd, hst]; rfl
  have hclr : s.sub.clraWren = false := by rw [Sub.clraWren, hst]; rfl
  have hflags : (s.tick w).sub.Flags :=
    h.flags.step (by rw [hst]; simp) (by rw [hst]; simp) ..
  have hfirst : AtNop job acc 0 (s.tick w) := by
    refine ⟨h.final.atOut.keep hend hclr, ?_, ?_, hflags.bf1, hflags.subVal, hflags.odd,
      hflags.nopVal, fun h0 => absurd h0 (Nat.lt_irrefl 0)⟩
    · simp [sub_tick, Sub.step, hst]
    · simp [sub_tick, Sub.step, hst]
  rcases emits_count (Sp.tick w) Sp.view (P := AtNop job acc)
    (o := fun k => plain (nopShows acc k)) (n := 2 ^ w - 1) (fun _ _ _ ht => ht.view)
    (fun k t hk ht => atNop_tick ht (by omega) hw) 0 _ (Nat.zero_le _) hfirst with ⟨t, ht, hlast⟩
  -- The last word is read; the clock after it is the end.
  rcases hlast.registers (by omega) hw with ⟨hout, hbf1, hsub, hodd, hnop, haq⟩
  rw [show 2 ^ w - 1 + 1 = 2 ^ w by omega] at hout
  have hst' : (t.tick w).sub.st = .outNopEnd := by
    simp [sub_tick, Sub.step, hlast.st, hlast.addrA, Sub.lastAddr]
  generalize hu : t.tick w = u at hout hbf1 hsub hodd hnop haq hst'
  have huend : u.sub.taskEnd = true := by rw [Sub.taskEnd, hst']; rfl
  have hquiet : (u.tick w).sub.Quiet := by
    refine ⟨?_, ?_, ?_, ?_, ?_⟩
    · simp [sub_tick, Sub.step, hst']
    · rw [sub_tick, Sub.step_bf1, hst']; rfl
    · rw [sub_tick, Sub.step_subVal, Sub.subEna, hbf1, Bool.false_and]
    · rw [sub_tick, Sub.step_nopVal, hst']; rfl
    · rw [sub_tick, Sub.step_odd, hst', if_neg (by simp)]
  refine ⟨u.tick w, ?_, hout.idle huend hquiet (by rw [Sub.clraWren, hst']; rfl)⟩
  have hbody : Emits (Sp.tick w) Sp.view (s.tick w)
      (((List.range (2 ^ w)).map (nopShows acc)).map plain) u := by
    have hone := Emits.one (Sp.tick w) Sp.view t
    rw [hlast.view, hu] at hone
    have hall := ht.append hone
    simp only [Nat.zero_add, Nat.sub_zero] at hall
    rw [show 2 ^ w = 2 ^ w - 1 + 1 by omega, List.range_succ, List.map_append, List.map_append,
      List.map_map]
    exact hall
  have huout : u.out = lastOut (acc.a (2 ^ w - 1)) := by
    simp [Sp.out, lastOut, Sub.resVal, Sub.res, huend, hnop, haq]
  rw [List.map_append, List.map_cons]
  refine ⟨?_, hbody.append ⟨?_, rfl⟩⟩
  · rw [Sp.view, h.flags.out hend, hst]
    rfl
  · rw [Sp.view, huout, hst']
    rfl

/-! ### Minus the modulus -/

/-- The columns of the subtraction. -/
def subCols (job : Job w) (acc : Acc w) : Nat → Nat :=
  subColumns maxWord acc.a job.m

/-- A word of the difference. -/
def diffWord (job : Job w) (acc : Acc w) (k : Nat) : Nat :=
  column (2 ^ wordBits) (subCols job acc) k

/-- What is carried is a bit. -/
theorem carries_subCols_le (hk : k ≤ 2 ^ w) :
    carries (2 ^ wordBits) (subCols job acc) k ≤ 1 := by
  induction k with
  | zero => exact Nat.zero_le _
  | succ l ih =>
      have hc := ih (by omega)
      have ha := acc.a_le l (by omega)
      have hcol : carries (2 ^ wordBits) (subCols job acc) l + subCols job acc l
          < 2 ^ wordBits * 2 := by
        rw [radix_eq]
        simp only [subCols, subColumns]
        by_cases hl : l = 0
        · rw [hl]
          simp only [carries, if_true]
          rw [hl] at ha
          omega
        · rw [if_neg hl]
          rw [radix_eq] at hc
          simp only [subCols] at hc
          omega
      have hdiv := Nat.div_lt_of_lt_mul hcol
      simp only [carries]
      omega

/-- The sum for word `l`, when the adder has it. -/
theorem difference_eq {l : Nat} {d : Sub} (hl : l < 2 ^ w)
    (hadder : d.adder.fullSum = maxWord - job.m l + acc.a l)
    (hcarry : d.carry = carries (2 ^ wordBits) (subCols job acc) l)
    (hplus : d.addrA = 1 ↔ l = 0) :
    d.difference = carries (2 ^ wordBits) (subCols job acc) l + subCols job acc l := by
  have hc : carries (2 ^ wordBits) (subCols job acc) l ≤ 1 := carries_subCols_le (by omega)
  have ha := acc.a_le l hl
  have hpow : 2 ^ (wordBits + 1) = 2 * maxWord + 2 := by
    rw [pow_succ, radix_eq]
    omega
  have hplus1 : d.plus1 = if l = 0 then 1 else 0 := by
    simp only [Sub.plus1, hplus]
  rw [Sub.difference, hadder, hcarry, hplus1, hpow, Nat.mod_eq_of_lt (b := 2 * maxWord + 2)
    (a := maxWord - job.m l + acc.a l) (by omega)]
  by_cases hl0 : l = 0
  · subst hl0
    simp only [carries, subCols, subColumns, if_true]
    rw [Nat.mod_eq_of_lt (by omega)]
    omega
  · rw [if_neg hl0, subCols, subColumns, if_neg hl0]
    rw [subCols] at hc
    rw [Nat.mod_eq_of_lt (by omega)]
    omega

variable (job acc) in
/-- The first clock of word `k`: the word below it is subtracted. -/
structure AtSubEven (k : Nat) (s : Sp) : Prop where
  out : AtOut job acc k s
  st : s.sub.st = .outSub
  addrA : s.sub.addrA = k
  odd : s.sub.odd = false
  nopVal : s.sub.nopVal = false
  subVal : s.sub.subVal = false
  bf1 : s.sub.bf1 = decide (0 < k)
  adder : 0 < k → s.sub.adder.fullSum = maxWord - job.m (k - 1) + acc.a (k - 1)
  carry : 0 < k → s.sub.carry = carries (2 ^ wordBits) (subCols job acc) (k - 1)

variable (job acc) in
/-- The second clock of word `k`: the word below it goes out. -/
structure AtSubOdd (k : Nat) (s : Sp) : Prop where
  out : AtOut job acc k s
  st : s.sub.st = .outSub
  addrA : s.sub.addrA = k
  odd : s.sub.odd = true
  nopVal : s.sub.nopVal = false
  subVal : s.sub.subVal = decide (0 < k)
  bf1 : s.sub.bf1 = true
  bf0 : 0 < k → s.sub.bf0 = diffWord job acc (k - 1)
  carry : s.sub.carry = carries (2 ^ wordBits) (subCols job acc) k
  aq : s.a.q = acc.a k
  mq : s.m.q = job.m k

variable (job acc) in
/-- The last word is subtracted. -/
structure AtSubEnd (s : Sp) : Prop where
  out : AtOut job acc (2 ^ w) s
  st : s.sub.st = .outSubEnd
  addrA : s.sub.addrA = 2 ^ w - 1
  odd : s.sub.odd = false
  nopVal : s.sub.nopVal = false
  subVal : s.sub.subVal = false
  bf1 : s.sub.bf1 = true
  adder : s.sub.adder.fullSum = maxWord - job.m (2 ^ w - 1) + acc.a (2 ^ w - 1)
  carry : s.sub.carry = carries (2 ^ wordBits) (subCols job acc) (2 ^ w - 1)

theorem atSubOdd_tick (h : AtSubEven job acc k s) (hk : k < 2 ^ w) (hw : w ≤ 5) :
    AtSubOdd job acc k (s.tick w) := by
  have hend : s.sub.taskEnd = false := by rw [Sub.taskEnd, h.st]; rfl
  have hclr : s.sub.clraWren = false := by rw [Sub.clraWren, h.st, h.odd]; rfl
  have haddr : s.sub.addrA < 2 ^ w := by rw [h.addrA]; exact hk
  have hena : s.sub.subEna = decide (0 < k) := by
    rw [Sub.subEna, h.bf1, h.odd, Bool.not_false, Bool.and_true]
  have hdiff : 0 < k → s.sub.difference
      = carries (2 ^ wordBits) (subCols job acc) (k - 1) + subCols job acc (k - 1) := by
    intro hpos
    refine difference_eq (by omega) (h.adder hpos) (h.carry hpos) ?_
    rw [h.addrA]
    omega
  refine ⟨h.out.keep hend hclr, ?_, ?_, ?_, ?_, ?_, ?_, ?_, ?_, ?_, ?_⟩
  · simp [sub_tick, Sub.step, h.st, h.odd]
  · simp [sub_tick, Sub.step, h.st, h.odd, h.addrA]
  · rw [sub_tick, Sub.step_odd, h.st, if_pos rfl, h.odd, Bool.not_false]
  · rw [sub_tick, Sub.step_nopVal, h.st]
    rfl
  · rw [sub_tick, Sub.step_subVal, hena]
  · rw [sub_tick, Sub.step_bf1, h.st]
    rfl
  · intro hpos
    rw [sub_tick, Sub.step_bf0, hena, decide_eq_true hpos, if_pos rfl, hdiff hpos]
    rfl
  · rw [sub_tick, Sub.step_carry, hena]
    by_cases hpos : 0 < k
    · rw [decide_eq_true hpos, if_pos rfl, hdiff hpos]
      obtain ⟨l, rfl⟩ : ∃ l, k = l + 1 := ⟨k - 1, by omega⟩
      rw [Nat.add_sub_cancel, carries]
    · have hk0 : k = 0 := by omega
      rw [h.bf1, hk0]
      rfl
  · rw [aq_final h.out.ctrl hw haddr, h.addrA, h.out.mem k hk, if_neg (Nat.lt_irrefl k)]
  · rw [mq_final h.out.ctrl h.out.held hw haddr, h.addrA]

/-- The part of the second clock that is the same for all words. -/
theorem AtSubOdd.registers (h : AtSubOdd job acc k s) (hk : k < 2 ^ w) (hw : w ≤ 5) :
    AtOut job acc (k + 1) (s.tick w) ∧ (s.tick w).sub.odd = false ∧
      (s.tick w).sub.nopVal = false ∧ (s.tick w).sub.subVal = false ∧
      (s.tick w).sub.bf1 = true ∧
      (s.tick w).sub.adder.fullSum = maxWord - job.m k + acc.a k ∧
      (s.tick w).sub.carry = carries (2 ^ wordBits) (subCols job acc) k := by
  have hend : s.sub.taskEnd = false := by rw [Sub.taskEnd, h.st]; rfl
  have hclr : s.sub.clraWren = true := by rw [Sub.clraWren, h.st, h.odd]; rfl
  have hena : s.sub.subEna = false := by rw [Sub.subEna, h.odd, Bool.not_true, Bool.and_false]
  refine ⟨h.out.clear hend hclr h.addrA hk hw, ?_, ?_, ?_, ?_, ?_, ?_⟩
  · rw [sub_tick, Sub.step_odd, h.st, if_pos rfl, h.odd, Bool.not_true]
  · rw [sub_tick, Sub.step_nopVal, h.st]
    rfl
  · rw [sub_tick, Sub.step_subVal, hena]
  · rw [sub_tick, Sub.step_bf1, h.st]
    rfl
  · have ha := acc.a_le k hk
    have hword : maxWord < 2 ^ 129 := by decide
    rw [sub_tick, Sub.step_adder, h.aq, h.mq]
    exact P1Adder.fullSum_step (Nat.lt_of_le_of_lt (Nat.sub_le _ _) hword) (by omega)
  · rw [sub_tick, Sub.step_carry, hena, h.bf1, h.carry]
    rfl

theorem atSubEven_tick (h : AtSubOdd job acc k s) (hk : k + 1 < 2 ^ w) (hw : w ≤ 5) :
    AtSubEven job acc (k + 1) (s.tick w) := by
  rcases h.registers (by omega) hw with ⟨hout, hodd, hnop, hsub, hbf1, hadder, hcarry⟩
  have hne : k ≠ 2 ^ w - 1 := by omega
  have hmod : (k + 1) % 2 ^ w = k + 1 := Nat.mod_eq_of_lt hk
  refine ⟨hout, ?_, ?_, hodd, hnop, hsub, ?_, fun _ => hadder, fun _ => hcarry⟩
  · simp [sub_tick, Sub.step, h.st, h.odd, h.addrA, Sub.lastAddr, hne]
  · simp [sub_tick, Sub.step, h.st, h.odd, h.addrA, Sub.lastAddr, hne, hmod]
  · rw [hbf1, decide_eq_true (Nat.succ_pos k)]

theorem atSubEnd_tick (h : AtSubOdd job acc (2 ^ w - 1) s) (hw : w ≤ 5) :
    AtSubEnd job acc (s.tick w) := by
  have hpos : 0 < 2 ^ w := Nat.two_pow_pos w
  rcases h.registers (by omega) hw with ⟨hout, hodd, hnop, hsub, hbf1, hadder, hcarry⟩
  rw [show 2 ^ w - 1 + 1 = 2 ^ w by omega] at hout
  refine ⟨hout, ?_, ?_, hodd, hnop, hsub, hbf1, hadder, hcarry⟩
  · simp [sub_tick, Sub.step, h.st, h.odd, h.addrA, Sub.lastAddr]
  · simp [sub_tick, Sub.step, h.st, h.odd, h.addrA, Sub.lastAddr]

/-- What is shown in the second clock of word `k`. -/
def subShows (job : Job w) (acc : Acc w) (k : Nat) : SpOut :=
  if k = 0 then silent else wordOut (diffWord job acc (k - 1))

theorem AtSubEven.shows (h : AtSubEven job acc k s) : s.out = silent := by
  have hend : s.sub.taskEnd = false := by rw [Sub.taskEnd, h.st]; rfl
  simp [Sp.out, silent, Sub.resVal, Sub.res, hend, h.nopVal, h.subVal]

theorem AtSubOdd.shows (h : AtSubOdd job acc k s) : s.out = subShows job acc k := by
  have hend : s.sub.taskEnd = false := by rw [Sub.taskEnd, h.st]; rfl
  by_cases hk : k = 0
  · simp [Sp.out, subShows, silent, Sub.resVal, Sub.res, hend, h.nopVal, h.subVal, hk]
  · have hpos : 0 < k := by omega
    simp [Sp.out, subShows, wordOut, Sub.resVal, Sub.res, hend, h.nopVal, h.subVal, hk, hpos,
      h.bf0 hpos]

/-- The two clocks of each word below `k`. -/
theorem emits_subEven (h : AtSubEven job acc 0 s) (hw : w ≤ 5) : ∀ k, k < 2 ^ w →
    ∃ t, Emits (Sp.tick w) Sp.out s
        ((List.range k).flatMap fun l => [silent, subShows job acc l]) t ∧
      AtSubEven job acc k t := by
  intro k
  induction k with
  | zero => exact fun _ => ⟨s, rfl, h⟩
  | succ k ih =>
      intro hk
      rcases ih (by omega) with ⟨t, ht, heven⟩
      have hodd := atSubOdd_tick heven (by omega) hw
      refine ⟨_, ?_, atSubEven_tick hodd hk hw⟩
      rw [List.range_succ, List.flatMap_append, List.flatMap_singleton]
      exact ht.append ⟨heven.shows, hodd.shows, rfl⟩

/-- The words go out minus the modulus. -/
theorem emits_sub (h : AtVerdict job acc s) (hle : job.numM ≤ acc.num) (hw : w ≤ 5)
    (hw2 : 2 ≤ w) :
    ∃ t, Emits (Sp.tick w) Sp.out s
        (silent :: (List.range (2 ^ w)).flatMap (fun l => [silent, subShows job acc l])
          ++ [silent, lastOut (diffWord job acc (2 ^ w - 1))]) t ∧
      t.Idle w ∧ job.Held t := by
  have hfour : 2 ^ 2 ≤ 2 ^ w := Nat.pow_le_pow_right Nat.two_pos hw2
  have hst : s.sub.st = .compFinSub := by rw [h.st, if_pos hle]
  have hend : s.sub.taskEnd = false := by rw [Sub.taskEnd, hst]; rfl
  have hclr : s.sub.clraWren = false := by rw [Sub.clraWren, hst]; rfl
  have hflags : (s.tick w).sub.Flags :=
    h.flags.step (by rw [hst]; simp) (by rw [hst]; simp) ..
  have hfirst : AtSubEven job acc 0 (s.tick w) := by
    refine ⟨h.final.atOut.keep hend hclr, ?_, ?_, hflags.odd, hflags.nopVal, hflags.subVal,
      hflags.bf1, fun h0 => absurd h0 (Nat.lt_irrefl 0), fun h0 => absurd h0 (Nat.lt_irrefl 0)⟩
    · simp [sub_tick, Sub.step, hst]
    · simp [sub_tick, Sub.step, hst]
  rcases emits_subEven hfirst hw (2 ^ w - 1) (by omega) with ⟨t, ht, heven⟩
  have hodd := atSubOdd_tick heven (by omega) hw
  have hlast := atSubEnd_tick hodd hw
  have hbody : Emits (Sp.tick w) Sp.out (s.tick w)
      ((List.range (2 ^ w)).flatMap fun l => [silent, subShows job acc l])
      ((t.tick w).tick w) := by
    rw [show 2 ^ w = 2 ^ w - 1 + 1 by omega, List.range_succ, List.flatMap_append,
      List.flatMap_singleton]
    exact ht.append ⟨heven.shows, hodd.shows, rfl⟩
  generalize hu : (t.tick w).tick w = u at hlast hbody
  -- The last word is subtracted, and goes out in the clock after.
  have huend : u.sub.taskEnd = false := by rw [Sub.taskEnd, hlast.st, hlast.bf1]; rfl
  have huclr : u.sub.clraWren = false := by rw [Sub.clraWren, hlast.st]; rfl
  have hena : u.sub.subEna = true := by rw [Sub.subEna, hlast.bf1, hlast.odd]; rfl
  have hdiff : u.sub.difference = carries (2 ^ wordBits) (subCols job acc) (2 ^ w - 1)
      + subCols job acc (2 ^ w - 1) := by
    refine difference_eq (by omega) hlast.adder hlast.carry ?_
    rw [hlast.addrA]
    omega
  have hst' : (u.tick w).sub.st = .outSubEnd := by simp [sub_tick, Sub.step, hlast.st, hlast.bf1]
  have hbf1' : (u.tick w).sub.bf1 = false := by
    rw [sub_tick, Sub.step_bf1, hlast.st]
    rfl
  have hsub' : (u.tick w).sub.subVal = true := by rw [sub_tick, Sub.step_subVal, hena]
  have hnop' : (u.tick w).sub.nopVal = false := by
    rw [sub_tick, Sub.step_nopVal, hlast.st]
    rfl
  have hbf0' : (u.tick w).sub.bf0 = diffWord job acc (2 ^ w - 1) := by
    rw [sub_tick, Sub.step_bf0, hena, if_pos rfl, hdiff]
    rfl
  have hout' := hlast.out.keep huend huclr
  have hushow : u.out = silent := by
    simp [Sp.out, silent, Sub.resVal, Sub.res, huend, hlast.nopVal, hlast.subVal]
  generalize hv : u.tick w = v at hst' hbf1' hsub' hnop' hbf0' hout'
  have hvend : v.sub.taskEnd = true := by rw [Sub.taskEnd, hst', hbf1']; rfl
  have hquiet : (v.tick w).sub.Quiet := by
    refine ⟨?_, ?_, ?_, ?_, ?_⟩
    · simp [sub_tick, Sub.step, hst', hbf1']
    · rw [sub_tick, Sub.step_bf1, hst']; rfl
    · rw [sub_tick, Sub.step_subVal, Sub.subEna, hbf1', Bool.false_and]
    · rw [sub_tick, Sub.step_nopVal, hst']; rfl
    · rw [sub_tick, Sub.step_odd, hst', if_neg (by simp)]
  refine ⟨v.tick w, ?_, hout'.idle hvend hquiet (by rw [Sub.clraWren, hst']; rfl)⟩
  refine ⟨h.flags.out hend, hbody.append ⟨hushow, ?_⟩⟩
  rw [hv]
  refine ⟨?_, rfl⟩
  simp [Sp.out, lastOut, Sub.resVal, Sub.res, hvend, hnop', hsub', hbf0']

end Output

end Rsa

end Wujian100
