import Mathlib.Data.List.ReduceOption
import Wujian100.Theory.Rsa.Exponent

/-!
# A Run of the Exponentiation

A whole run of `me_iddmm_top`: a start, the words of the base with any gaps
between them, and then enough clocks. The words shown are those of the base
raised to the exponent the loop gets to, and everything is as it was before the
run.

Bit 1 of the exponent decides. If it is clear the result is the power that was
asked for; if it is set it is the power with half the exponent, which is
something else unless the two happen to agree.

`mmp_iddmm_sp` is one of the multipliers this holds for.

## Main definitions

* `supplied`: The words that come in.
* `MeTop.shown`: The words shown.
* `SpIdle`: `mmp_iddmm_sp` waits, with given words in its memories.

## Theorems

* `feeding_inputs`: The base comes in.
* `shown_power`: A run.
* `sp_multiplies`: `mmp_iddmm_sp` is a multiplier.
* `power_shown_iff`: When a run shows the power.
-/

namespace Wujian100

namespace Rsa

/-! ## A run -/

/-- The words that come in. -/
def supplied (is : List MeIn) : List Nat :=
  (is.filter MeIn.meXValid).map MeIn.meX

/-- The words shown. -/
def MeTop.shown {M : Type} (p : MeParams) (mu : Multiplier M) (s : MeTop M) (is : List MeIn) :
    List Nat :=
  (trace (MeTop.step p mu) MeTop.word s is).reduceOption

section Run

variable {M : Type} {mu : Multiplier M} {p : MeParams} {m clocks : Nat}
  {Shape : Nat → List SpOut → Prop} {Idle : Bool → (Nat → Nat) → (Nat → Nat) → M → Prop}
  {s : MeTop M}

/-- Without a start and without a word the inputs make no difference. -/
theorem step_quiet {i : MeIn} (hstart : i.meStart = false) (hvalid : i.meXValid = false) :
    s.step p mu i = s.tick p mu := by
  by_cases hidle : s.me.currentState = .idle
  · simp [MeTop.tick, MeTop.step, Me.step, hidle, hstart, noIn]
  · by_cases h00 : s.me.currentState = .state00
    · simp only [MeTop.tick, MeTop.step, Me.step, h00, hvalid, noIn, Bool.false_eq_true, if_false]
    · exact step_busy hidle h00 i

/-- Waiting. -/
theorem ready_inputs (spec : Multiplies mu p m clocks Shape Idle) {is : List MeIn}
    (h : MeReady p Idle s) (hstart : ∀ i ∈ is, i.meStart = false) :
    trace (MeTop.step p mu) MeTop.word s is = List.replicate is.length none ∧
      MeReady p Idle (is.foldl (MeTop.step p mu) s) := by
  induction is generalizing s with
  | nil => exact ⟨rfl, h⟩
  | cons i is ih =>
      have hnext := h.step spec (hstart i List.mem_cons_self)
      rcases ih hnext (fun j hj => hstart j (List.mem_cons_of_mem _ hj)) with ⟨htrace, hready⟩
      refine ⟨?_, hready⟩
      rw [trace, htrace, h.word, List.length_cons, List.replicate_succ]

theorem supplied_cons_valid {i : MeIn} (hi : i.meXValid = true) (is : List MeIn) :
    supplied (i :: is) = i.meX :: supplied is := by
  rw [supplied, List.filter_cons_of_pos hi, List.map_cons, supplied]

theorem supplied_cons_gap {i : MeIn} (hi : i.meXValid = false) (is : List MeIn) :
    supplied (i :: is) = supplied is := by
  rw [supplied, List.filter_cons_of_neg (by simp [hi]), supplied]

theorem supplied_eq_nil {is : List MeIn} (h : supplied is = []) :
    ∀ i ∈ is, i.meXValid = false := by
  rw [supplied, List.map_eq_nil_iff, List.filter_eq_nil_iff] at h
  exact fun i hi => Bool.eq_false_iff.mpr (h i hi)

/-- The base comes in, up to its last word. -/
theorem feeding_inputs (spec : Multiplies mu p m clocks Shape Idle) (hv : p.Valid m)
    {f : Nat → Nat} (hf : ∀ l, l < 2 ^ p.addrW → f l < 2 ^ p.k) :
    ∀ (is : List MeIn) (j : Nat) (s : MeTop M), j ≤ 2 ^ p.addrW → Feeding p Idle f j s →
      supplied is = (List.range (2 ^ p.addrW - j)).map (fun l => f (j + l)) →
      ∃ fed rest, is = fed ++ rest ∧ (∀ i ∈ rest, i.meXValid = false) ∧
        trace (MeTop.step p mu) MeTop.word s fed = List.replicate fed.length none ∧
        Feeding p Idle f (2 ^ p.addrW) (fed.foldl (MeTop.step p mu) s) := by
  intro is
  induction is with
  | nil =>
      intro j s hj h hwords
      have hlen := congrArg List.length hwords
      have heq : j = 2 ^ p.addrW := by simp [supplied] at hlen; omega
      exact ⟨[], [], rfl, nofun, rfl, heq ▸ h⟩
  | cons i is ih =>
      intro j s hj h hwords
      by_cases hdone : j = 2 ^ p.addrW
      · subst hdone
        rw [Nat.sub_self, List.range_zero, List.map_nil] at hwords
        exact ⟨[], i :: is, rfl, supplied_eq_nil hwords, rfl, h⟩
      · have hlt : j < 2 ^ p.addrW := by omega
        -- One clock, and the rest from there.
        have hon : ∀ j', j' ≤ 2 ^ p.addrW → Feeding p Idle f j' (s.step p mu i) →
            supplied is = (List.range (2 ^ p.addrW - j')).map (fun l => f (j' + l)) →
            ∃ fed rest, i :: is = fed ++ rest ∧ (∀ i ∈ rest, i.meXValid = false) ∧
              trace (MeTop.step p mu) MeTop.word s fed = List.replicate fed.length none ∧
              Feeding p Idle f (2 ^ p.addrW) (fed.foldl (MeTop.step p mu) s) := by
          intro j' hj' hnext hrest
          rcases ih j' _ hj' hnext hrest with ⟨fed, rest, rfl, hvalid, htrace, hfed⟩
          refine ⟨i :: fed, rest, rfl, hvalid, ?_, hfed⟩
          rw [trace, htrace, h.word, List.length_cons, List.replicate_succ]
        cases hi : i.meXValid with
        | false =>
            rw [supplied_cons_gap hi] at hwords
            exact hon j hj (feeding_gap spec hv h hlt hf hi) hwords
        | true =>
            rw [supplied_cons_valid hi, show 2 ^ p.addrW - j = 2 ^ p.addrW - (j + 1) + 1 by omega,
              List.range_succ_eq_map, List.map_cons, List.map_map] at hwords
            injection hwords with hhead htail
            refine hon (j + 1) hlt (feeding_word spec hv h hlt hf hi hhead) ?_
            rw [htail]
            refine List.map_congr_left ?_
            intro l _
            simp only [Function.comp_apply, Nat.succ_eq_add_one]
            congr 1
            omega

/-- The words shown with the last product. -/
theorem reduceOption_showsAfter (os : List SpOut) :
    (os.map (showsAfter .state4)).reduceOption = granted os := by
  induction os with
  | nil => rfl
  | cons o os ih =>
      rw [List.map_cons, granted]
      cases hg : o.taskGrant with
      | false =>
          rw [showsAfter, if_neg (by simp [hg]), List.reduceOption_cons_of_none, ih,
            List.filter_cons_of_neg (by simp [hg]), granted]
      | true =>
          rw [showsAfter, if_pos ⟨rfl, hg⟩, List.reduceOption_cons_of_some, ih,
            List.filter_cons_of_pos hg, List.map_cons, granted]

/-- The words of a number. -/
def wordsOf (p : MeParams) (x l : Nat) : Nat := x / (2 ^ p.k) ^ l % 2 ^ p.k

theorem holdsNum_wordsOf {x : Nat} (hx : x < 2 ^ p.bits) : HoldsNum p (wordsOf p x) x := by
  refine ⟨?_, fun l _ => Nat.mod_lt _ (Nat.two_pow_pos _)⟩
  have hval := value_digits (2 ^ p.k) (2 ^ p.addrW) x
  rw [radix_pow, Nat.mod_eq_of_lt hx] at hval
  exact hval

/-- They are its digits. -/
theorem map_wordsOf (x : Nat) :
    (List.range (2 ^ p.addrW)).map (wordsOf p x) = toDigits (2 ^ p.k) (2 ^ p.addrW) x := by
  rw [toDigits_eq_map]
  rfl

/-- A run: the words shown are those of the power with the exponent the loop
    gets to, and then everything is ready for the next. -/
theorem shown_power (spec : Multiplies mu p m clocks Shape Idle) (hv : p.Valid m)
    (hs : MeReady p Idle s) {start : MeIn} {ins work : List MeIn} {x : Nat}
    (hstart : start.meStart = true) (hx : x < 2 ^ p.bits)
    (hins : supplied ins = toDigits (2 ^ p.k) (2 ^ p.addrW) x)
    (hquiet : ∀ i ∈ ins ++ work, i.meStart = false) (hwork : ∀ i ∈ work, i.meXValid = false)
    (hlen : powerClocks p clocks ≤ work.length) :
    MeTop.shown p mu s (start :: (ins ++ work))
        = toDigits (2 ^ p.k) (2 ^ p.addrW) (x ^ effective p.meY % m) ∧
      MeReady p Idle ((start :: (ins ++ work)).foldl (MeTop.step p mu) s) := by
  have hf := holdsNum_wordsOf hx
  -- The base comes in.
  have hfirst : Feeding p Idle (wordsOf p x) 0 (s.step p mu start) := feeding_start spec hs hstart
  rw [← map_wordsOf] at hins
  rcases feeding_inputs spec hv hf.lt ins 0 _ (Nat.zero_le _) hfirst (by simpa using hins) with
    ⟨fed, rest, rfl, hrest, hfed, hlast⟩
  -- The products.
  rcases emits_power spec hv hlast hf with ⟨d, os, t, a, hemits, hgranted, _, hclocks, hready⟩
  have hquiet' : ∀ i ∈ rest ++ work, i.meStart = false ∧ i.meXValid = false := by
    intro i hi
    refine ⟨hquiet i ?_, ?_⟩
    · rw [List.append_assoc]
      exact List.mem_append_right _ hi
    · rcases List.mem_append.mp hi with hi | hi
      · exact hrest i hi
      · exact hwork i hi
  have hlen' : d + os.length ≤ (rest ++ work).length := by
    rw [List.length_append]
    omega
  rcases exists_cut hlen' with ⟨busy, wait, hsplit, hbusy⟩
  rw [hsplit] at hquiet'
  have hsame : ∀ s, ∀ i ∈ busy, MeTop.step p mu s i = MeTop.tick p mu s :=
    fun s i hi => step_quiet (hquiet' i (List.mem_append_left _ hi)).1
      (hquiet' i (List.mem_append_left _ hi)).2
  rcases trace_of_emits hsame (by simp [hbusy]) hemits with ⟨htrace, hfold⟩
  -- The clocks that are left.
  rcases ready_inputs spec hready (fun i hi => (hquiet' i (List.mem_append_right busy hi)).1) with
    ⟨hwait, hend⟩
  have hall : fed ++ rest ++ work = fed ++ (busy ++ wait) := by rw [List.append_assoc, hsplit]
  rw [hall]
  refine ⟨?_, ?_⟩
  · rw [MeTop.shown, trace, trace_append, trace_append, hs.word, hfed, htrace, hfold, hwait]
    simp only [List.reduceOption_cons_of_none, List.reduceOption_append,
      List.reduceOption_replicate_none, reduceOption_showsAfter, List.nil_append, List.append_nil]
    exact hgranted
  · rw [List.foldl_cons, List.foldl_append, List.foldl_append, hfold]
    exact hend

end Run

/-! ## `mmp_iddmm_sp` -/

/-- `mmp_iddmm_sp` waits, with the words of `m` in the memory of the modulus and
    nothing above the first operand. Once something has been written, `m1` has
    too. -/
structure SpIdle (p : MeParams) (m : Nat) (b : Bool) (x y : Nat → Nat) (s : Sp) : Prop where
  idle : s.Idle p.addrW
  memX : ∀ l, l < 2 ^ p.addrW → s.x.mem l = x l
  memY : ∀ l, l < 2 ^ p.addrW → s.y.mem l = y l
  memM : ∀ l, l < 2 ^ p.addrW → s.m.mem l = wordsOf p m l
  xTop : s.x.mem (2 ^ p.addrW) = 0
  x_lt : ∀ l, l < 2 ^ p.addrW → x l < 2 ^ p.k
  y_lt : ∀ l, l < 2 ^ p.addrW → y l < 2 ^ p.k
  m1 : b = true → s.m1 = p.meM1

section Sp

variable {p : MeParams} {m : Nat} {b : Bool} {x y : Nat → Nat} {s : Sp} {i : SpIn}

/-- A clock without a request. -/
theorem Sp.Idle.step_wait {w : Nat} (h : s.Idle w) (hreq : i.taskReq = false) :
    (s.step w i).Idle w := by
  refine ⟨?_, ?_, ?_⟩
  · have hctrl := h.ctrl.step_wait (c := s.pe.carry) (Nat.two_pow_pos w)
    simp only [Sp.step, hreq, h.quiet.taskEnd]
    exact hctrl
  · have hsub := h.quiet.step w s.a.q s.ctrl.refAn s.m.q
    simp only [Sp.step, h.ctrl.compReq]
    exact hsub
  · intro l hl
    simp only [Sp.step, h.quiet.clraWren, Ram.step, Ctrl.refWrAEna, h.ctrl.j]
    exact h.zero l hl

theorem SpIdle.step_wait (h : SpIdle p m b x y s) (hx : i.wrEnaX = false) (hy : i.wrEnaY = false)
    (hreq : i.taskReq = false) : SpIdle p m b x y (s.step p.addrW i) := by
  refine ⟨h.idle.step_wait hreq, ?_, ?_, ?_, ?_, h.x_lt, h.y_lt, ?_⟩
  · simpa [Sp.step, Ram.step, hx] using h.memX
  · simpa [Sp.step, Ram.step, hy] using h.memY
  · simpa [Sp.step, Ram.step] using h.memM
  · simpa [Sp.step, Ram.step, hx] using h.xTop
  · simpa [Sp.step, hx, hy] using h.m1

/-- A write changes one word of each operand. -/
theorem SpIdle.step_write (h : SpIdle p m b x y s) (hx : i.wrEnaX = true) (hy : i.wrEnaY = true)
    (hreq : i.taskReq = false) (haddr : i.wrAddr < 2 ^ p.addrW) (hwx : i.wrX < 2 ^ p.k)
    (hwy : i.wrY < 2 ^ p.k) (hm1 : i.wrM1 = p.meM1) :
    SpIdle p m true (setWord x i.wrAddr i.wrX) (setWord y i.wrAddr i.wrY) (s.step p.addrW i) := by
  have hset : ∀ {f g : Nat → Nat} {z : Nat}, (∀ l, l < 2 ^ p.addrW → f l = g l) →
      ∀ l, l < 2 ^ p.addrW → setWord f i.wrAddr z l = setWord g i.wrAddr z l := by
    intro f g z hfg l hl
    simp only [setWord, hfg l hl]
  have hlt : ∀ {f : Nat → Nat} {z : Nat}, z < 2 ^ p.k → (∀ l, l < 2 ^ p.addrW → f l < 2 ^ p.k) →
      ∀ l, l < 2 ^ p.addrW → setWord f i.wrAddr z l < 2 ^ p.k := by
    intro f z hz hf l hl
    rw [setWord]
    split
    · exact hz
    · exact hf l hl
  have hmemX : (s.step p.addrW i).x.mem = setWord s.x.mem i.wrAddr i.wrX := by
    simp only [Sp.step, Ram.step, hx, if_true]
    rfl
  have hmemY : (s.step p.addrW i).y.mem = setWord s.y.mem i.wrAddr i.wrY := by
    simp only [Sp.step, Ram.step, hy, if_true]
    rfl
  refine ⟨h.idle.step_wait hreq, ?_, ?_, ?_, ?_, hlt hwx h.x_lt, hlt hwy h.y_lt, ?_⟩
  · rw [hmemX]
    exact hset h.memX
  · rw [hmemY]
    exact hset h.memY
  · simpa [Sp.step, Ram.step] using h.memM
  · rw [hmemX, setWord, if_neg (by omega)]
    exact h.xTop
  · intro _
    simp only [Sp.step, hx, Bool.true_or, if_true]
    exact hm1

/-- The task in the memories. -/
def SpIdle.job (h : SpIdle p m b x y s) (hk : p.k = wordBits) (hm : m < 2 ^ p.bits)
    (hm1 : (p.meM1 * m + 1) % 2 ^ wordBits = 0) : Job p.addrW where
  x := s.x.mem
  y := s.y.mem
  m := s.m.mem
  m1 := p.meM1
  x_le := fun l hl => lt_radix_iff.mp (by rw [h.memX l hl, ← hk]; exact h.x_lt l hl)
  y_le := fun l hl => lt_radix_iff.mp (by rw [h.memY l hl, ← hk]; exact h.y_lt l hl)
  m_le := fun l hl => lt_radix_iff.mp (by
    rw [h.memM l hl, ← hk]
    exact (holdsNum_wordsOf hm).lt l hl)
  x_top := h.xTop
  m1_dvd := by
    rw [value_congr h.memM, ← hk, (holdsNum_wordsOf hm).num, hk]
    exact Nat.dvd_of_mod_eq_zero hm1

section Job

variable (h : SpIdle p m b x y s) (hk : p.k = wordBits) (hm : m < 2 ^ p.bits)
  (hm1 : (p.meM1 * m + 1) % 2 ^ wordBits = 0)

/-- The numbers of the task in the memories. -/
theorem SpIdle.job_nums :
    (h.job hk hm hm1).numX = value (2 ^ p.k) (2 ^ p.addrW) x ∧
      (h.job hk hm hm1).numY = value (2 ^ p.k) (2 ^ p.addrW) y ∧
      (h.job hk hm hm1).numM = m := by
  refine ⟨?_, ?_, ?_⟩
  · rw [hk]
    exact value_congr h.memX
  · rw [hk]
    exact value_congr h.memY
  · have hnum := (holdsNum_wordsOf hm).num
    rw [hk] at hnum
    exact (value_congr h.memM).trans hnum

/-- After the task the memories are as they were. -/
theorem SpIdle.job_done {t : Sp} (hidle : t.Idle p.addrW) (hheld : (h.job hk hm hm1).Held t) :
    SpIdle p m true x y t := by
  refine ⟨hidle, ?_, ?_, ?_, ?_, h.x_lt, h.y_lt, fun _ => hheld.m1⟩
  · rw [hheld.x]
    exact h.memX
  · rw [hheld.y]
    exact h.memY
  · rw [hheld.m]
    exact h.memM
  · rw [hheld.x]
    exact h.xTop

end Job

/-- `mmp_iddmm_sp` is a multiplier, and shows the words of a product in
    consecutive clocks if the operands multiply to less than the modulus. -/
theorem sp_multiplies (hk : p.k = wordBits) (hw2 : 2 ≤ p.addrW) (hw5 : p.addrW ≤ 5)
    (hm : m < 2 ^ p.bits) (hm1 : (p.meM1 * m + 1) % 2 ^ wordBits = 0) :
    Multiplies (Sp.multiplier p.addrW) p m (taskClocks p.addrW)
      (fun prod os => prod < m → Direct os) (SpIdle p m) where
  shows h := out_of_quiet h.idle.quiet
  waits := SpIdle.step_wait
  writes := SpIdle.step_write
  runs hx hy hreq := step_eq_tick hx hy hreq _
  task := by
    intro x y s h hxy
    have hheld : (h.job hk hm hm1).Held s := ⟨rfl, rfl, rfl, h.m1 rfl⟩
    rcases h.job_nums hk hm hm1 with ⟨hnumX, hnumY, hnumM⟩
    have hradix : (2 ^ wordBits) ^ 2 ^ p.addrW = 2 ^ p.bits := by rw [← hk, radix_pow]
    have hbound : (h.job hk hm hm1).numX * (h.job hk hm hm1).numY
        < (2 ^ wordBits) ^ 2 ^ p.addrW * (h.job hk hm hm1).numM := by
      rw [hnumX, hnumY, hnumM, hradix]
      exact hxy
    rcases emits_task h.idle hheld hw2 hw5 hbound with
      ⟨os, t, ht, hdel, hlen, hdirect, hidle, hheld'⟩
    rw [hnumX, hnumY, hnumM, hradix, ← hk] at hdel
    rw [hnumX, hnumY, hnumM] at hdirect
    exact ⟨os, t, ht, hdel, hlen, hdirect, h.job_done hk hm hm1 hidle hheld'⟩

end Sp

/-! ## The power -/

/-- The exponent the loop gets to is the exponent or half of it. -/
theorem pow_effective_iff {x y m : Nat} :
    x ^ effective y % m = x ^ y % m ↔ y.testBit 1 = false ∨ x ^ (y / 2) % m = x ^ y % m := by
  rw [effective]
  cases y.testBit 1 with
  | false => simp
  | true => simp

/-- When a run shows the power that was asked for. The multiplier is any that
    multiplies; the modulus, the base, the exponent and the number of words are
    any. -/
theorem power_shown_iff {M : Type} (mu : Multiplier M) (p : MeParams) (m clocks : Nat)
    (Shape : Nat → List SpOut → Prop) (Idle : Bool → (Nat → Nat) → (Nat → Nat) → M → Prop)
    (spec : Multiplies mu p m clocks Shape Idle) (hv : p.Valid m)
    (s : MeTop M) (hs : MeReady p Idle s) (start : MeIn) (ins work : List MeIn) (x : Nat)
    (hstart : start.meStart = true) (hx : x < 2 ^ p.bits)
    (hins : supplied ins = toDigits (2 ^ p.k) (2 ^ p.addrW) x)
    (hquiet : ∀ i ∈ ins ++ work, i.meStart = false) (hwork : ∀ i ∈ work, i.meXValid = false)
    (hlen : powerClocks p clocks ≤ work.length) :
    MeTop.shown p mu s (start :: (ins ++ work))
        = toDigits (2 ^ p.k) (2 ^ p.addrW) (x ^ p.meY % m) ↔
      p.meY.testBit 1 = false ∨ x ^ (p.meY / 2) % m = x ^ p.meY % m := by
  rcases shown_power spec hv hs hstart hx hins hquiet hwork hlen with ⟨hshown, _⟩
  rw [hshown, ← pow_effective_iff]
  constructor
  · intro heq
    have hnum := congrArg (Nat.ofDigits (2 ^ p.k)) heq
    have hlt : ∀ e, x ^ e % m < 2 ^ p.bits := fun e => Nat.lt_trans (Nat.mod_lt _ hv.m_pos) hv.m_lt
    rw [ofDigits_toDigits, ofDigits_toDigits, radix_pow, Nat.mod_eq_of_lt (hlt _),
      Nat.mod_eq_of_lt (hlt _)] at hnum
    exact hnum
  · intro heq
    rw [heq]

section Seven

/-- The constants for the modulus 7 with four words. -/
def sevenParams (y : Nat) : MeParams where
  k := wordBits
  addrW := 2
  meY := y
  meM1 := negInvSeven
  rou := fun l => if l = 0 then 2 else 0
  resultBackup := fun l => if l = 0 then 4 else 0

theorem valid_seven {y : Nat} (hy : y < 8) : (sevenParams y).Valid 7 := by
  have hbits : (sevenParams y).bits = 512 := rfl
  have hk : (sevenParams y).k = 128 := rfl
  have hw : (sevenParams y).addrW = 2 := rfl
  have hrou : 2 = 2 ^ (2 * (sevenParams y).bits) % 7 := by rw [hbits]; decide +kernel
  have hbackup : 4 = 2 ^ (sevenParams y).bits % 7 := by rw [hbits]; decide +kernel
  have hpow : 8 < 2 ^ 512 := by decide +kernel
  refine ⟨by omega, by omega, rfl, ?_, ?_, ?_, ?_⟩
  · rw [hbits]
    omega
  · rw [hbits]
    exact Nat.lt_trans hy hpow
  · rw [← hrou]
    exact holdsNum_single (by rw [hk]; decide)
  · rw [← hbackup]
    exact holdsNum_single (by rw [hk]; decide)

theorem multiplies_seven {y : Nat} (hy : y < 8) :
    Multiplies (Sp.multiplier 2) (sevenParams y) 7 (taskClocks 2)
      (fun prod os => prod < 7 → Direct os) (SpIdle (sevenParams y) 7) := by
  have hw : (sevenParams y).addrW = 2 := rfl
  have hm1 : (negInvSeven * 7 + 1) % 2 ^ wordBits = 0 := by decide +kernel
  exact sp_multiplies rfl (by omega) (by omega) (valid_seven hy).m_lt hm1

/-- After reset. -/
def sevenTop (y : Nat) : MeTop Sp where
  me := .reset (sevenParams y) fun _ => 0
  mul := holding 2 0 0 7 negInvSeven

theorem ready_sevenTop (y : Nat) :
    MeReady (sevenParams y) (SpIdle (sevenParams y) 7) (sevenTop y) := by
  refine ⟨rfl, rfl, rfl, rfl, rfl, rfl, rfl, rfl, fun _ _ => rfl, false, fun _ => 0, fun _ => 0, ?_⟩
  have hload := loaded_holding 2 0 0 7 negInvSeven
  refine ⟨idle_holding .., ?_, ?_, hload.m, hload.xTop, fun _ _ => Nat.two_pow_pos _,
    fun _ _ => Nat.two_pow_pos _, nofun⟩
  · intro l hl
    exact (hload.x l hl).trans (by simp)
  · intro l hl
    exact (hload.y l hl).trans (by simp)

def startIn : MeIn where
  meStart := true
  meX := 0
  meXValid := false

/-- A word of the base. -/
def wordIn (w : Nat) : MeIn where
  meStart := false
  meX := w
  meXValid := true

theorem supplied_wordIn (ws : List Nat) : supplied (ws.map wordIn) = ws := by
  induction ws with
  | nil => rfl
  | cons w ws ih => rw [List.map_cons, supplied_cons_valid rfl, ih]; rfl

/-- The base, word by word. -/
def baseIn (x : Nat) : List MeIn := (toDigits (2 ^ wordBits) (2 ^ 2) x).map wordIn

/-- Enough clocks. -/
def workIn (y : Nat) : List MeIn :=
  List.replicate (powerClocks (sevenParams y) (taskClocks 2)) noIn

theorem quiet_seven (x y : Nat) : ∀ i ∈ baseIn x ++ workIn y, i.meStart = false := by
  intro i hi
  rcases List.mem_append.mp hi with hi | hi
  · rcases List.mem_map.mp hi with ⟨w, _, rfl⟩
    rfl
  · rw [List.eq_of_mem_replicate hi]
    rfl

theorem work_seven (y : Nat) : ∀ i ∈ workIn y, i.meXValid = false := by
  intro i hi
  rw [List.eq_of_mem_replicate hi]
  rfl

theorem length_workIn (y : Nat) :
    powerClocks (sevenParams y) (taskClocks 2) ≤ (workIn y).length := by
  rw [workIn, List.length_replicate]

/-- Exponent 5: bit 1 is clear. -/
theorem power_shown_five :
    MeTop.shown (sevenParams 5) (Sp.multiplier 2) (sevenTop 5) (startIn :: (baseIn 3 ++ workIn 5))
      = toDigits (2 ^ wordBits) (2 ^ 2) (3 ^ 5 % 7) :=
  (power_shown_iff (Sp.multiplier 2) (sevenParams 5) 7 (taskClocks 2) _ (SpIdle (sevenParams 5) 7)
    (multiplies_seven (by decide)) (valid_seven (by decide)) (sevenTop 5) (ready_sevenTop 5) startIn
    (baseIn 3) (workIn 5) 3 rfl (by decide +kernel) (supplied_wordIn _) (quiet_seven 3 5)
    (work_seven 5) (length_workIn 5)).mpr (Or.inl (by decide))

/-- Exponent 2: the square is asked for, and the base itself is shown. -/
theorem square_not_shown :
    (sevenParams 2).Valid 7 ∧
      Multiplies (Sp.multiplier 2) (sevenParams 2) 7 (taskClocks 2)
        (fun prod os => prod < 7 → Direct os) (SpIdle (sevenParams 2) 7) ∧
      MeReady (sevenParams 2) (SpIdle (sevenParams 2) 7) (sevenTop 2) ∧
      powerClocks (sevenParams 2) (taskClocks 2) ≤ (workIn 2).length ∧
      MeTop.shown (sevenParams 2) (Sp.multiplier 2) (sevenTop 2)
          (startIn :: (baseIn 3 ++ workIn 2)) = [3, 0, 0, 0] ∧
      toDigits (2 ^ wordBits) (2 ^ 2) (3 ^ (sevenParams 2).meY % 7) = [2, 0, 0, 0] := by
  have hv : (sevenParams 2).Valid 7 := valid_seven (by decide)
  refine ⟨hv, multiplies_seven (by decide), ready_sevenTop 2, length_workIn 2, ?_,
    by decide +kernel⟩
  have hshown : MeTop.shown (sevenParams 2) (Sp.multiplier 2) (sevenTop 2)
      (startIn :: (baseIn 3 ++ workIn 2)) = toDigits (2 ^ wordBits) (2 ^ 2) (3 ^ effective 2 % 7) :=
    (shown_power (multiplies_seven (by decide)) hv (ready_sevenTop 2) rfl (by decide +kernel)
      (supplied_wordIn _) (quiet_seven 3 2) (work_seven 2) (length_workIn 2)).1
  rw [hshown]
  decide +kernel

end Seven

end Rsa

end Wujian100
