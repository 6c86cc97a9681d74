import Wujian100.Core.Rsa.Accelerator
import Wujian100.Theory.Rsa.Fifo
import Wujian100.Theory.Rsa.Power

/-!
# The Accelerator Runs Again and Again

What `fifo_rsa2048_ctrl` does between its FIFOs, one clock at a time.

A run is four stretches of clocks. The words of the operand are read from the
forward FIFO one a clock (`Reading`), four of them making a word for the
exponentiation. While that is at work the controller waits (`Waiting`); the
words of the result come in consecutive clocks, as its last product is with
one, and so none is missed when the controller leaves in the clock of the last.
Then the words go to the backward FIFO, again one a clock (`Writing`), and after
that everything is as it was before the run (`AccReady`), except for the words
in the backward FIFO.

## Main definitions

* `operand`: The 64 words of a number.
* `AccReady`, `Reading`, `Waiting`, `Writing`: The phases of a run.

## Theorems

* `reading_step`, `writing_step`: One word in, one word out.
* `trace_waiting`, `trace_collect`: The wait for the result, and its words.
* `ready_written`: Everything is as it was.
-/

namespace Wujian100

namespace Rsa

/-! ## FIFOs -/

/-- A FIFO with at most `c` words in it. -/
def Room (c : Nat) (f : Fifo (BitVec 32)) : Prop :=
  ∃ q, f.Holds fifoAw q ∧ q.length ≤ c

section Room

variable {c : Nat} {f : Fifo (BitVec 32)}

theorem Room.mono {c' : Nat} (h : Room c f) (hc : c ≤ c') : Room c' f := by
  rcases h with ⟨q, hq, hlen⟩
  exact ⟨q, hq, by omega⟩

theorem Room.wrRdy (h : Room c f) (hc : c < 128) : f.wrRdy fifoAw = true := by
  rcases h with ⟨q, hq, hlen⟩
  have hpow : 2 ^ fifoAw = 128 := rfl
  simp only [Fifo.wrRdy, Fifo.full_of_holds hq, hpow, Bool.not_eq_true', decide_eq_false_iff_not]
  omega

/-- A word more, at most. -/
theorem Room.step_any (h : Room c f) (v : Bool) (w : BitVec 32) (r : Bool) :
    Room (c + 1) (f.step fifoAw v w r) := by
  rcases h with ⟨q, hq, hlen⟩
  refine ⟨_, Fifo.holds_step hq v w r, ?_⟩
  have htail : (if r = true then q.tail else q).length ≤ q.length := by
    split
    · rw [List.length_tail]
      omega
    · exact Nat.le_refl _
  have hnew : (if v = true ∧ q.length < 2 ^ fifoAw then [w] else []).length ≤ 1 := by
    split <;> simp
  rw [Fifo.next, List.length_append]
  omega

/-- No word more without a push. -/
theorem Room.step_idle (h : Room c f) (w : BitVec 32) (r : Bool) :
    Room c (f.step fifoAw false w r) := by
  rcases h with ⟨q, hq, hlen⟩
  refine ⟨_, Fifo.holds_step hq false w r, ?_⟩
  simp only [Fifo.next, Bool.false_eq_true, false_and, if_false, List.append_nil]
  split
  · rw [List.length_tail]
    omega
  · exact hlen

end Room

/-- An empty FIFO without a push. -/
theorem holds_nil_step {f : Fifo (BitVec 32)} (h : f.Holds fifoAw []) (w : BitVec 32) (r : Bool) :
    (f.step fifoAw false w r).Holds fifoAw [] := by
  have hstep := Fifo.holds_step h false w r
  simpa [Fifo.next] using hstep

/-! ## Operands -/

/-- The 64 words of a number, the lowest first. -/
def operand (x : Nat) : List (BitVec 32) :=
  (toDigits (2 ^ 32) operandWords x).map (BitVec.ofNat 32)

/-- Word `k` of a number. -/
def operandWord (x k : Nat) : BitVec 32 := BitVec.ofNat 32 (x / (2 ^ 32) ^ k % 2 ^ 32)

theorem operand_eq_map (x : Nat) : operand x = (List.range operandWords).map (operandWord x) := by
  rw [operand, toDigits_eq_map, List.map_map]
  rfl

theorem length_operand (x : Nat) : (operand x).length = operandWords := by
  rw [operand, List.length_map, length_toDigits]

theorem drop_operand {x k : Nat} (hk : k < operandWords) :
    (operand x).drop k = operandWord x k :: (operand x).drop (k + 1) := by
  have hlen : k < (operand x).length := by rw [length_operand]; exact hk
  rw [List.drop_eq_getElem_cons hlen]
  congr 1
  simp [operand_eq_map]

/-! ## Between runs -/

section Phases

variable {M : Type} {mu : Multiplier M} {p : MeParams} {m clocks : Nat}
  {Shape : Nat → List SpOut → Prop} {Idle : Bool → (Nat → Nat) → (Nat → Nat) → M → Prop}

/-- Nothing is going on. The forward FIFO holds `ws`. -/
structure AccReady (p : MeParams) (Idle : Bool → (Nat → Nat) → (Nat → Nat) → M → Prop)
    (ws : List (BitVec 32)) (c : Nat) (s : Accelerator M) : Prop where
  state : s.ctrl.currentState = .idle
  rdRdy : s.ctrl.rdRdy = false
  cntRd : s.ctrl.cntRd = 0
  cntN : s.ctrl.cntN = 0
  meX : s.ctrl.meX < 2 ^ 128
  meXValid : s.ctrl.meXValid = false
  wrVld : s.ctrl.wrVld = false
  me : MeReady p Idle s.me
  fwd : s.fwd.Holds fifoAw ws
  bwd : Room c s.bwd

variable {s : Accelerator M} {i : AcceleratorIn} {ws : List (BitVec 32)} {c : Nat}

theorem rdStart_of_holds (h : s.fwd.Holds fifoAw ws) :
    s.rdStart i = ((i.regState0 != 0) && decide (ws.length = operandWords)) := by
  rw [Accelerator.rdStart, Fifo.wrCnt, h.cnt]
  by_cases hlen : ws.length = operandWords
  · simp [hlen, operandWords, fifoAw]
  · simp [hlen]

/-- With an empty FIFO there is no start. -/
theorem rdStart_of_nil (h : s.fwd.Holds fifoAw []) : s.rdStart i = false := by
  rw [rdStart_of_holds h]
  simp [operandWords]

/-- A clock without a start. -/
theorem ready_clock (spec : Multiplies mu p m clocks Shape Idle) (h : AccReady p Idle ws c s)
    (hstart : s.rdStart i = false) (hlen : ws.length < 128 ∨ i.fwrVld = false) :
    AccReady p Idle (ws ++ if i.fwrVld then [i.fwrDat] else []) c (s.step p mu i) := by
  have hme : (s.meIn i).meStart = false := hstart
  refine ⟨?_, ?_, ?_, ?_, ?_, ?_, ?_, h.me.step spec hme, ?_, ?_⟩
  · simp [Accelerator.step, FifoCtrl.step, h.state, Accelerator.ctrlIn, hstart]
  · simp [Accelerator.step, FifoCtrl.step, h.state, Accelerator.ctrlIn, hstart]
  · simp [Accelerator.step, FifoCtrl.step, h.state]
  · simp [Accelerator.step, FifoCtrl.step, h.state]
  · simpa [Accelerator.step, FifoCtrl.step, h.state] using h.meX
  · simp [Accelerator.step, FifoCtrl.step, h.state, h.meXValid]
  · simp [Accelerator.step, FifoCtrl.step, h.state]
  · have hfwd := Fifo.holds_step h.fwd i.fwrVld i.fwrDat false
    have hpow : 2 ^ fifoAw = 128 := rfl
    simp only [Fifo.next, hpow, Bool.false_eq_true, if_false] at hfwd
    simp only [Accelerator.step, h.rdRdy]
    rcases hlen with hlen | hlen
    · simpa [hlen] using hfwd
    · simpa [hlen] using hfwd
  · simp only [Accelerator.step, h.wrVld]
    exact h.bwd.step_idle ..

theorem AccReady.pushed (h : AccReady p Idle ws c s) : s.pushed = none := by
  simp [Accelerator.pushed, h.wrVld]

end Phases

/-! ## Reading -/

theorem toNat_operandWord (x k : Nat) : (operandWord x k).toNat = x / (2 ^ 32) ^ k % 2 ^ 32 := by
  rw [operandWord, BitVec.toNat_ofNat, Nat.mod_mod]

/-- Four FIFO words make a word. -/
theorem div_operandWord (x a b : Nat) :
    x / (2 ^ 32) ^ (4 * a + b) = x / (2 ^ 128) ^ a / 2 ^ (32 * b) := by
  have hfour : (2 ^ 32) ^ (4 * a) = (2 ^ 128) ^ a := by rw [← pow_mul, ← pow_mul, ← Nat.mul_assoc]
  rw [Nat.div_div_eq_div_mul, pow_add, hfour, ← pow_mul 2 32 b]

/-- The top `b` FIFO words of the shift register are the lowest of word `a`. -/
def Shifted (x a b meX : Nat) : Prop :=
  meX / 2 ^ (32 * (4 - b)) = x / (2 ^ 128) ^ a % 2 ^ (32 * b)

theorem shifted_none {x a meX : Nat} (h : meX < 2 ^ 128) : Shifted x a 0 meX := by
  rw [Shifted, Nat.mul_zero, pow_zero, Nat.mod_one]
  exact Nat.div_eq_of_lt h

theorem shifted_all {x a meX : Nat} (h : Shifted x a 4 meX) :
    meX = x / (2 ^ 128) ^ a % 2 ^ 128 := by
  rw [Shifted, Nat.sub_self, Nat.mul_zero, pow_zero, Nat.div_one] at h
  exact h

/-- A FIFO word comes in at the top. -/
theorem shifted_word {x a b meX : Nat} (hb : b < 4) (h : Shifted x a b meX) :
    Shifted x a (b + 1) ((operandWord x (4 * a + b)).toNat * 2 ^ 96 + meX / 2 ^ 32) := by
  have h96 : 2 ^ 96 = 2 ^ (32 * b) * 2 ^ (32 * (4 - (b + 1))) := by
    rw [← pow_add, ← Nat.mul_add]
    congr 1
    omega
  have hold : meX / 2 ^ 32 / 2 ^ (32 * (4 - (b + 1))) = x / (2 ^ 128) ^ a % 2 ^ (32 * b) := by
    rw [Nat.div_div_eq_div_mul, ← pow_add, ← h]
    congr 2
    omega
  calc ((operandWord x (4 * a + b)).toNat * 2 ^ 96 + meX / 2 ^ 32) / 2 ^ (32 * (4 - (b + 1)))
      = (operandWord x (4 * a + b)).toNat * 2 ^ (32 * b)
          + meX / 2 ^ 32 / 2 ^ (32 * (4 - (b + 1))) := by
        rw [h96, ← Nat.mul_assoc, Nat.mul_comm _ (2 ^ (32 * (4 - (b + 1)))),
          Nat.mul_add_div (Nat.two_pow_pos _)]
    _ = x / (2 ^ 128) ^ a % 2 ^ (32 * b)
          + 2 ^ (32 * b) * (x / (2 ^ 128) ^ a / 2 ^ (32 * b) % 2 ^ 32) := by
        rw [hold, toNat_operandWord, div_operandWord, Nat.add_comm, Nat.mul_comm (_ % _)]
    _ = x / (2 ^ 128) ^ a % 2 ^ (32 * (b + 1)) := by
        rw [← Nat.mod_mul, ← pow_add, Nat.mul_succ]

section Reading

variable {M : Type} {mu : Multiplier M} {p : MeParams} {m clocks : Nat}
  {Shape : Nat → List SpOut → Prop} {Idle : Bool → (Nat → Nat) → (Nat → Nat) → M → Prop}

/-- `k` of the 64 words have been read. The exponentiation has a word once the
    clock after its last FIFO word is over. -/
structure Reading (p : MeParams) (Idle : Bool → (Nat → Nat) → (Nat → Nat) → M → Prop)
    (x c k : Nat) (s : Accelerator M) : Prop where
  state : s.ctrl.currentState = if k < 64 then .rdMeX else .wait
  rdRdy : s.ctrl.rdRdy = true
  cntRd : s.ctrl.cntRd = k % 4
  cntN : s.ctrl.cntN = if k < 64 then k / 4 else 0
  meXValid : s.ctrl.meXValid = decide (0 < k ∧ k % 4 = 0)
  shift : Shifted x (k / 4) (k % 4) s.ctrl.meX
  word : 0 < k → k % 4 = 0 → s.ctrl.meX = x / (2 ^ 128) ^ (k / 4 - 1) % 2 ^ 128
  wrVld : s.ctrl.wrVld = false
  me : Feeding p Idle (wordsOf p x) ((k - 1) / 4) s.me
  fwd : s.fwd.Holds fifoAw ((operand x).drop k)
  bwd : Room c s.bwd

variable {s : Accelerator M} {i : AcceleratorIn} {x c k : Nat}

theorem Reading.pushed (h : Reading p Idle x c k s) : s.pushed = none := by
  simp [Accelerator.pushed, h.wrVld]

/-- The start. -/
theorem reading_start (spec : Multiplies mu p m clocks Shape Idle)
    (h : AccReady p Idle (operand x) c s) (hstart : i.regState0 ≠ 0) (hi : i.fwrVld = false) :
    Reading p Idle x c 0 (s.step p mu i) := by
  have hrd : s.rdStart i = true := by
    rw [rdStart_of_holds h.fwd, length_operand, decide_eq_true rfl, Bool.and_true, bne_iff_ne]
    exact hstart
  have hme : (s.meIn i).meStart = true := hrd
  refine ⟨?_, ?_, ?_, ?_, ?_, ?_, nofun, ?_, feeding_start spec h.me hme, ?_, ?_⟩
  · simp [Accelerator.step, FifoCtrl.step, h.state, Accelerator.ctrlIn, hrd]
  · simp [Accelerator.step, FifoCtrl.step, h.state, Accelerator.ctrlIn, hrd]
  · simp [Accelerator.step, FifoCtrl.step, h.state]
  · simp [Accelerator.step, FifoCtrl.step, h.state]
  · simp [Accelerator.step, FifoCtrl.step, h.state, h.meXValid]
  · refine shifted_none ?_
    simpa [Accelerator.step, FifoCtrl.step, h.state] using h.meX
  · simp [Accelerator.step, FifoCtrl.step, h.state]
  · have hfwd := Fifo.holds_step h.fwd false i.fwrDat false
    simp only [Accelerator.step, h.rdRdy, hi]
    simpa [Fifo.next] using hfwd
  · simp only [Accelerator.step, h.wrVld]
    exact h.bwd.step_idle ..

/-- The exponentiation while words are read: a word in the clock after every
    fourth. -/
theorem feeding_reading (spec : Multiplies mu p m clocks Shape Idle) (hv : p.Valid m)
    (hk : p.k = 128) (hw : p.addrW = 4) (h : Reading p Idle x c k s) (hlt : k ≤ 64) :
    Feeding p Idle (wordsOf p x) (k / 4) (s.me.step p mu (s.meIn i)) := by
  have hn : 2 ^ p.addrW = 16 := by rw [hw]; rfl
  have hwords : ∀ l, l < 2 ^ p.addrW → wordsOf p x l < 2 ^ p.k :=
    fun l _ => Nat.mod_lt _ (Nat.two_pow_pos _)
  by_cases hfull : 0 < k ∧ k % 4 = 0
  · have hvalid : (s.meIn i).meXValid = true := by
      rw [Accelerator.meIn, h.meXValid, decide_eq_true hfull]
    have hword : (s.meIn i).meX = wordsOf p x ((k - 1) / 4) := by
      rw [wordsOf, hk, show (k - 1) / 4 = k / 4 - 1 by omega]
      exact h.word hfull.1 hfull.2
    have hnext := feeding_word spec hv h.me (by omega) hwords hvalid hword
    rw [show (k - 1) / 4 + 1 = k / 4 by omega] at hnext
    exact hnext
  · have hvalid : (s.meIn i).meXValid = false := by
      rw [Accelerator.meIn, h.meXValid, decide_eq_false hfull]
    have hnext := feeding_gap spec hv h.me (by omega) hwords hvalid
    rw [show (k - 1) / 4 = k / 4 by omega] at hnext
    exact hnext

/-- A word is read. -/
theorem reading_step (spec : Multiplies mu p m clocks Shape Idle) (hv : p.Valid m)
    (hk : p.k = 128) (hw : p.addrW = 4) (h : Reading p Idle x c k s) (hlt : k < 64)
    (hi : i.fwrVld = false) : Reading p Idle x c (k + 1) (s.step p mu i) := by
  have hfwd := h.fwd
  rw [drop_operand hlt] at hfwd
  -- The FIFO has a word, and it is the next of the operand.
  have hvld : s.fwd.rdVld = true := by
    rw [Fifo.rdVld, Fifo.empty_of_holds hfwd]
    simp
  have hdin : s.fwd.rdDout fifoAw = operandWord x (4 * (k / 4) + k % 4) := by
    rw [Fifo.rdDout_of_holds hfwd, Nat.div_add_mod]
  have hstate : s.ctrl.currentState = .rdMeX := by rw [h.state, if_pos hlt]
  have hcntN : s.ctrl.cntN = k / 4 := by rw [h.cntN, if_pos hlt]
  have hlast : (k / 4 = 15 ∧ k % 4 = 3) ↔ ¬ k + 1 < 64 := by omega
  have hcount : ∀ n, n < 16 → FifoCtrl.count n = n + 1 := by
    intro n hn
    exact Nat.mod_eq_of_lt (by have hpow : 2 ^ fifoAw = 128 := rfl; omega)
  -- Four words of 32 bits make one of 128, shifted in from the top.
  have hshift := shifted_word (Nat.mod_lt k (by omega)) h.shift
  have hmeX : (s.step p mu i).ctrl.meX
      = (operandWord x (4 * (k / 4) + k % 4)).toNat * 2 ^ 96 + s.ctrl.meX / 2 ^ 32 := by
    simp [Accelerator.step, FifoCtrl.step, hstate, Accelerator.ctrlIn, hvld, hdin]
  refine ⟨?_, ?_, ?_, ?_, ?_, ?_, ?_, ?_, ?_, ?_, ?_⟩
  · simp only [Accelerator.step, FifoCtrl.step, hstate, hcntN, h.cntRd, Bool.and_eq_true,
      decide_eq_true_eq, hlast]
    by_cases hend : k + 1 < 64 <;> simp [hend]
  · simpa [Accelerator.step, FifoCtrl.step, hstate] using h.rdRdy
  · simp only [Accelerator.step, FifoCtrl.step, hstate, Accelerator.ctrlIn, hvld, h.cntRd,
      decide_eq_true_eq, if_true, hcount (k % 4) (by omega)]
    split <;> omega
  · simp only [Accelerator.step, FifoCtrl.step, hstate, hcntN, h.cntRd, Bool.and_eq_true,
      decide_eq_true_eq, hlast, hcount (k / 4) (by omega)]
    by_cases hend : k + 1 < 64
    · simp only [hend, not_true_eq_false, if_false, if_true]
      split <;> omega
    · simp [hend]
  · simp only [Accelerator.step, FifoCtrl.step, hstate, h.cntRd]
    exact decide_eq_decide.mpr (by omega)
  · rw [hmeX]
    -- With the fourth word the old ones are all shifted out.
    by_cases hfour : k % 4 = 3
    · rw [show (k + 1) % 4 = 0 by omega]
      rw [hfour] at hshift ⊢
      refine shifted_none ?_
      rw [shifted_all hshift]
      exact Nat.mod_lt _ (Nat.two_pow_pos _)
    · rw [show (k + 1) / 4 = k / 4 by omega, show (k + 1) % 4 = k % 4 + 1 by omega]
      exact hshift
  · intro _ hfour
    rw [show k % 4 = 3 by omega] at hshift hmeX
    rw [hmeX, show (k + 1) / 4 - 1 = k / 4 by omega]
    exact shifted_all hshift
  · simpa [Accelerator.step, FifoCtrl.step, hstate] using h.wrVld
  · exact feeding_reading spec hv hk hw h (by omega)
  · have hstep := Fifo.holds_step hfwd false i.fwrDat true
    simp only [Accelerator.step, h.rdRdy, hi]
    simpa [Fifo.next] using hstep
  · simp only [Accelerator.step, h.wrVld]
    exact h.bwd.step_idle ..

end Reading

/-! ## Waiting -/

section Waiting

variable {M : Type} {mu : Multiplier M} {p : MeParams} {m clocks : Nat}
  {Shape : Nat → List SpOut → Prop} {Idle : Bool → (Nat → Nat) → (Nat → Nat) → M → Prop}

theorem meValid_of_none {t : MeTop M} (h : t.word = none) : t.out.meValid = false := by
  rw [MeTop.word] at h
  split at h
  · exact absurd h (by simp)
  · next hvalid => exact Bool.eq_false_iff.mpr hvalid

theorem meValid_of_some {t : MeTop M} {r : Nat} (h : t.word = some r) :
    t.out.meValid = true ∧ t.out.meResult = r := by
  rw [MeTop.word] at h
  split at h
  · next hvalid => exact ⟨hvalid, Option.some.inj h⟩
  · exact absurd h (by simp)

/-- The exponentiation is at work, or shows its result, of which `zs` has come. -/
structure Waiting (zs : List Nat) (c : Nat) (s : Accelerator M) : Prop where
  state : s.ctrl.currentState = .wait
  cntRd : s.ctrl.cntRd = 0
  cntN : s.ctrl.cntN = zs.length
  meX : s.ctrl.meX < 2 ^ 128
  meXValid : s.ctrl.meXValid = false
  out : ∀ l, l < zs.length → s.ctrl.meResultOut l = zs.getD l 0
  wrVld : s.ctrl.wrVld = false
  fwd : s.fwd.Holds fifoAw []
  bwd : Room c s.bwd

variable {s : Accelerator M} {i : AcceleratorIn} {zs : List Nat} {x c : Nat}

theorem Waiting.pushed (h : Waiting zs c s) : s.pushed = none := by
  simp [Accelerator.pushed, h.wrVld]

/-- The clock in which the exponentiation gets its last word. -/
theorem waiting_start (spec : Multiplies mu p m clocks Shape Idle) (hv : p.Valid m)
    (hk : p.k = 128) (hw : p.addrW = 4) (h : Reading p Idle x c 64 s) (hi : i.fwrVld = false) :
    Waiting [] c (s.step p mu i) ∧
      Feeding p Idle (wordsOf p x) (2 ^ p.addrW) (s.step p mu i).me := by
  have hstate : s.ctrl.currentState = .wait := by simpa using h.state
  have hcntN : s.ctrl.cntN = 0 := by simpa using h.cntN
  have hvalid := meValid_of_none h.me.word
  have hmeX : s.ctrl.meX < 2 ^ 128 := by
    rw [h.word (by omega) (by omega)]
    exact Nat.mod_lt _ (Nat.two_pow_pos _)
  refine ⟨⟨?_, ?_, ?_, ?_, ?_, nofun, ?_, ?_, ?_⟩, ?_⟩
  · simp [Accelerator.step, FifoCtrl.step, hstate, hcntN]
  · simpa [Accelerator.step, FifoCtrl.step, hstate] using h.cntRd
  · simp [Accelerator.step, FifoCtrl.step, hstate, hcntN, Accelerator.ctrlIn, hvalid]
  · simpa [Accelerator.step, FifoCtrl.step, hstate] using hmeX
  · simp [Accelerator.step, FifoCtrl.step, hstate]
  · simpa [Accelerator.step, FifoCtrl.step, hstate] using h.wrVld
  · have hfwd := h.fwd
    have hnil : (operand x).drop 64 = [] :=
      List.drop_eq_nil_of_le (Nat.le_of_eq (length_operand x))
    rw [hnil] at hfwd
    simp only [Accelerator.step, hi]
    exact holds_nil_step hfwd ..
  · simp only [Accelerator.step, h.wrVld]
    exact h.bwd.step_idle ..
  · have hfeed := feeding_reading (i := i) spec hv hk hw h (Nat.le_refl _)
    rw [hw]
    exact hfeed

/-- While the controller waits the exponentiation is left alone. -/
theorem me_waiting (h : Waiting zs c s) : (s.step p mu i).me = s.me.tick p mu :=
  step_quiet (rdStart_of_nil h.fwd) h.meXValid

/-- A clock without a word. -/
theorem waiting_none (h : Waiting zs c s) (hlen : zs.length < 15) (hword : s.me.word = none)
    (hi : i.fwrVld = false) : Waiting zs c (s.step p mu i) := by
  have hvalid := meValid_of_none hword
  have hne : zs.length ≠ 15 := by omega
  refine ⟨?_, ?_, ?_, ?_, ?_, ?_, ?_, ?_, ?_⟩
  · simp [Accelerator.step, FifoCtrl.step, h.state, h.cntN, hne]
  · simpa [Accelerator.step, FifoCtrl.step, h.state] using h.cntRd
  · simp [Accelerator.step, FifoCtrl.step, h.state, h.cntN, hne, Accelerator.ctrlIn, hvalid]
  · simpa [Accelerator.step, FifoCtrl.step, h.state] using h.meX
  · simp [Accelerator.step, FifoCtrl.step, h.state]
  · simpa [Accelerator.step, FifoCtrl.step, h.state, Accelerator.ctrlIn, hvalid] using h.out
  · simpa [Accelerator.step, FifoCtrl.step, h.state] using h.wrVld
  · simp only [Accelerator.step, hi]
    exact holds_nil_step h.fwd ..
  · simp only [Accelerator.step, h.wrVld]
    exact h.bwd.step_idle ..

/-- A word is put into its place. -/
theorem out_word (h : Waiting zs c s) {r : Nat} (hword : s.me.word = some r) :
    ∀ l, l < (zs ++ [r]).length →
      (s.step p mu i).ctrl.meResultOut l = (zs ++ [r]).getD l 0 := by
  intro l hl
  rcases meValid_of_some hword with ⟨hvalid, hres⟩
  simp only [Accelerator.step, FifoCtrl.step, h.state, Accelerator.ctrlIn, hvalid, hres, if_true,
    h.cntN, setWord]
  rw [List.length_append, List.length_singleton] at hl
  by_cases hlast : l = zs.length
  · rw [if_pos hlast, hlast]
    simp
  · have hlt : l < zs.length := by omega
    rw [if_neg hlast, h.out l hlt, List.getD_append _ _ _ _ hlt]

/-- A word that is not the last. -/
theorem waiting_word (h : Waiting zs c s) (hlen : zs.length < 15) {r : Nat}
    (hword : s.me.word = some r) (hi : i.fwrVld = false) :
    Waiting (zs ++ [r]) c (s.step p mu i) := by
  rcases meValid_of_some hword with ⟨hvalid, _⟩
  have hne : zs.length ≠ 15 := by omega
  have hcount : FifoCtrl.count zs.length = zs.length + 1 :=
    Nat.mod_eq_of_lt (by have hpow : 2 ^ fifoAw = 128 := rfl; omega)
  refine ⟨?_, ?_, ?_, ?_, ?_, out_word h hword, ?_, ?_, ?_⟩
  · simp [Accelerator.step, FifoCtrl.step, h.state, h.cntN, hne]
  · simpa [Accelerator.step, FifoCtrl.step, h.state] using h.cntRd
  · simp [Accelerator.step, FifoCtrl.step, h.state, h.cntN, hne, Accelerator.ctrlIn, hvalid, hcount]
  · simpa [Accelerator.step, FifoCtrl.step, h.state] using h.meX
  · simp [Accelerator.step, FifoCtrl.step, h.state]
  · simpa [Accelerator.step, FifoCtrl.step, h.state] using h.wrVld
  · simp only [Accelerator.step, hi]
    exact holds_nil_step h.fwd ..
  · simp only [Accelerator.step, h.wrVld]
    exact h.bwd.step_idle ..

end Waiting

/-! ## Writing -/

section Writing

variable {M : Type} {mu : Multiplier M} {p : MeParams} {m clocks : Nat}
  {Shape : Nat → List SpOut → Prop} {Idle : Bool → (Nat → Nat) → (Nat → Nat) → M → Prop}

/-- What is left of word `l` of the result when `k` FIFO words have gone. -/
def leftOver (z k l : Nat) : Nat :=
  z / (2 ^ 128) ^ l % 2 ^ 128 / 2 ^ (32 * if l = k / 4 then k % 4 else 0)

/-- `k` words of the result `z` have been put on the wires to the backward FIFO,
    and all but the last are in it. -/
structure Writing (p : MeParams) (Idle : Bool → (Nat → Nat) → (Nat → Nat) → M → Prop)
    (z c k : Nat) (s : Accelerator M) : Prop where
  state : s.ctrl.currentState = if k < 64 then .wrMeS else .idle
  cntRd : s.ctrl.cntRd = k % 4
  cntN : s.ctrl.cntN = if k < 64 then k / 4 else 0
  meX : s.ctrl.meX < 2 ^ 128
  meXValid : s.ctrl.meXValid = false
  out : ∀ l, l < 16 → k / 4 ≤ l → s.ctrl.meResultOut l = leftOver z k l
  wrVld : s.ctrl.wrVld = decide (0 < k)
  wrDout : 0 < k → s.ctrl.wrDout = operandWord z (k - 1)
  me : MeReady p Idle s.me
  fwd : s.fwd.Holds fifoAw []
  bwd : Room (c + (k - 1)) s.bwd

variable {s : Accelerator M} {i : AcceleratorIn} {zs : List Nat} {z c k : Nat}

/-- The word for the FIFO is at the bottom of what is left. -/
theorem ofNat_leftOver (z k : Nat) :
    BitVec.ofNat 32 (leftOver z k (k / 4)) = operandWord z k := by
  apply BitVec.eq_of_toNat_eq
  rw [toNat_operandWord, BitVec.toNat_ofNat, leftOver, if_pos rfl]
  have hsplit : 2 ^ 128 = 2 ^ (32 * (k % 4)) * 2 ^ (32 * (4 - k % 4)) := by
    rw [← pow_add, ← Nat.mul_add]
    congr 1
    omega
  have hdvd : 2 ^ 32 ∣ 2 ^ (32 * (4 - k % 4)) := Nat.pow_dvd_pow 2 (by omega)
  have hdiv := div_operandWord z (k / 4) (k % 4)
  rw [Nat.div_add_mod] at hdiv
  rw [hdiv]
  generalize z / (2 ^ 128) ^ (k / 4) = y
  rw [hsplit, Nat.mod_mul_right_div_self, Nat.mod_mod_of_dvd _ hdvd]

/-- Another FIFO word of it goes. -/
theorem leftOver_succ {k l : Nat} (hl : (k + 1) / 4 ≤ l) :
    leftOver z (k + 1) l = if l = k / 4 then leftOver z k l / 2 ^ 32 else leftOver z k l := by
  by_cases hsame : l = k / 4
  · rw [if_pos hsame, leftOver, leftOver, if_pos (by omega), if_pos hsame, Nat.div_div_eq_div_mul,
      ← pow_add, show (k + 1) % 4 = k % 4 + 1 by omega, Nat.mul_succ]
  · rw [if_neg hsame, leftOver, leftOver, if_neg hsame]
    by_cases hnext : l = (k + 1) / 4
    · rw [if_pos hnext, show (k + 1) % 4 = 0 by omega]
    · rw [if_neg hnext]

/-- The last word of the result comes and the controller goes on. -/
theorem writing_start (h : Waiting zs c s) (hlen : zs.length = 15) {r : Nat}
    (hword : s.me.word = some r) (hi : i.fwrVld = false)
    (hz : ∀ l, l < 16 → (zs ++ [r]).getD l 0 = z / (2 ^ 128) ^ l % 2 ^ 128)
    (hme : MeReady p Idle (s.me.tick p mu)) : Writing p Idle z c 0 (s.step p mu i) := by
  refine ⟨?_, ?_, ?_, ?_, ?_, ?_, ?_, nofun, ?_, ?_, ?_⟩
  · simp [Accelerator.step, FifoCtrl.step, h.state, h.cntN, hlen]
  · simpa [Accelerator.step, FifoCtrl.step, h.state] using h.cntRd
  · simp [Accelerator.step, FifoCtrl.step, h.state, h.cntN, hlen]
  · simpa [Accelerator.step, FifoCtrl.step, h.state] using h.meX
  · simp [Accelerator.step, FifoCtrl.step, h.state]
  · intro l hl _
    have hout : (s.step p mu i).ctrl.meResultOut l = (zs ++ [r]).getD l 0 :=
      out_word h hword l (by simp [hlen]; omega)
    rw [hout, hz l hl, leftOver]
    simp
  · simpa [Accelerator.step, FifoCtrl.step, h.state] using h.wrVld
  · rw [me_waiting h]
    exact hme
  · simp only [Accelerator.step, hi]
    exact holds_nil_step h.fwd ..
  · simp only [Accelerator.step, h.wrVld]
    exact h.bwd.step_idle ..

theorem Writing.pushed (h : Writing p Idle z c k s) (hc : c ≤ 64) (hk : k ≤ 64) :
    s.pushed = if 0 < k then some (operandWord z (k - 1)) else none := by
  have hrdy := h.bwd.wrRdy (by omega)
  rw [Accelerator.pushed, h.wrVld, hrdy, Bool.and_true]
  by_cases h0 : 0 < k
  · simp [h0, h.wrDout h0]
  · simp [h0]

/-- The FIFO behind, after a clock. -/
theorem bwd_writing (h : Writing p Idle z c k s) : Room (c + k) (s.step p mu i).bwd := by
  by_cases h0 : 0 < k
  · have hroom := h.bwd.step_any s.ctrl.wrVld s.ctrl.wrDout i.brdRdy
    rw [show c + (k - 1) + 1 = c + k by omega] at hroom
    exact hroom
  · have hroom := h.bwd.step_idle s.ctrl.wrDout i.brdRdy
    have hwr : s.ctrl.wrVld = false := by rw [h.wrVld, decide_eq_false h0]
    rw [← hwr] at hroom
    exact hroom.mono (by omega)

/-- A word goes out. -/
theorem writing_step (spec : Multiplies mu p m clocks Shape Idle) (h : Writing p Idle z c k s)
    (hc : c ≤ 64) (hlt : k < 64) (hi : i.fwrVld = false) :
    Writing p Idle z c (k + 1) (s.step p mu i) := by
  have hrdy := h.bwd.wrRdy (by omega)
  have hstate : s.ctrl.currentState = .wrMeS := by rw [h.state, if_pos hlt]
  have hcntN : s.ctrl.cntN = k / 4 := by rw [h.cntN, if_pos hlt]
  -- The two counters are the digits of `k` in base four.
  have hlast : (k / 4 = 15 ∧ k % 4 = 3) ↔ ¬ k + 1 < 64 := by omega
  have hcount : ∀ n, n < 16 → FifoCtrl.count n = n + 1 := by
    intro n hn
    exact Nat.mod_eq_of_lt (by have hpow : 2 ^ fifoAw = 128 := rfl; omega)
  have hhere := h.out (k / 4) (by omega) (Nat.le_refl _)
  refine ⟨?_, ?_, ?_, ?_, ?_, ?_, ?_, ?_, ?_, ?_, bwd_writing h⟩
  · simp only [Accelerator.step, FifoCtrl.step, hstate, hcntN, h.cntRd, Bool.and_eq_true,
      decide_eq_true_eq, hlast]
    by_cases hend : k + 1 < 64 <;> simp [hend]
  · simp only [Accelerator.step, FifoCtrl.step, hstate, Accelerator.ctrlIn, hrdy, h.cntRd,
      decide_eq_true_eq, if_true, hcount (k % 4) (by omega)]
    split <;> omega
  · simp only [Accelerator.step, FifoCtrl.step, hstate, hcntN, h.cntRd, Bool.and_eq_true,
      decide_eq_true_eq, hlast, hcount (k / 4) (by omega)]
    by_cases hend : k + 1 < 64
    · simp only [hend, not_true_eq_false, if_false, if_true]
      split <;> omega
    · simp [hend]
  · simpa [Accelerator.step, FifoCtrl.step, hstate] using h.meX
  · simpa [Accelerator.step, FifoCtrl.step, hstate] using h.meXValid
  · intro l hl hle
    simp only [Accelerator.step, FifoCtrl.step, hstate, Accelerator.ctrlIn, hrdy, if_true, hcntN,
      hhere, setWord]
    -- One word is shifted out, of the entry that `k` has come to.
    rw [leftOver_succ hle]
    by_cases hsame : l = k / 4
    · rw [if_pos hsame, if_pos hsame, hsame]
    · rw [if_neg hsame, if_neg hsame]
      exact h.out l hl (by omega)
  · simp [Accelerator.step, FifoCtrl.step, hstate, Accelerator.ctrlIn, hrdy]
  · intro _
    simp only [Accelerator.step, FifoCtrl.step, hstate, Accelerator.ctrlIn, hrdy, if_true, hcntN,
      hhere, Nat.add_sub_cancel]
    exact ofNat_leftOver z k
  · exact h.me.step spec (rdStart_of_nil h.fwd)
  · simp only [Accelerator.step, hi]
    exact holds_nil_step h.fwd ..

/-- The last word is in the FIFO and everything is ready again. -/
theorem ready_written (spec : Multiplies mu p m clocks Shape Idle) (h : Writing p Idle z c 64 s)
    (hi : i.fwrVld = false) : AccReady p Idle [] (c + 64) (s.step p mu i) := by
  have hstate : s.ctrl.currentState = .idle := by simpa using h.state
  have hstart : s.rdStart i = false := rdStart_of_nil h.fwd
  refine ⟨?_, ?_, ?_, ?_, ?_, ?_, ?_, h.me.step spec hstart, ?_, bwd_writing h⟩
  · simp [Accelerator.step, FifoCtrl.step, hstate, Accelerator.ctrlIn, hstart]
  · simp [Accelerator.step, FifoCtrl.step, hstate, Accelerator.ctrlIn, hstart]
  · simp [Accelerator.step, FifoCtrl.step, hstate]
  · simp [Accelerator.step, FifoCtrl.step, hstate]
  · simpa [Accelerator.step, FifoCtrl.step, hstate] using h.meX
  · simpa [Accelerator.step, FifoCtrl.step, hstate] using h.meXValid
  · simp [Accelerator.step, FifoCtrl.step, hstate]
  · simp only [Accelerator.step, hi]
    exact holds_nil_step h.fwd ..

end Writing

/-! ## A run -/

section Run

variable {M : Type} {mu : Multiplier M} {p : MeParams} {m clocks : Nat}
  {Idle : Bool → (Nat → Nat) → (Nat → Nat) → M → Prop}

/-- The words of a direct product, as they are shown. -/
theorem shows_direct {os : List SpOut} (h : Direct os) :
    ∃ e, os.map (showsAfter .state4) = List.replicate e none ++ (granted os).map some := by
  rcases h with ⟨e, ws, r, rfl⟩
  refine ⟨e, ?_⟩
  have hwords : (ws.map wordOut).map (showsAfter .state4) = ws.map some := by
    rw [List.map_map]
    rfl
  simp only [List.map_append, List.map_replicate, hwords, granted_append, granted_replicate,
    granted_map_wordOut, granted_lastOut, granted_nil, List.nil_append, List.append_assoc,
    List.map_cons, List.map_nil]
  rfl

/-- Waiting until the first word of the result. -/
theorem trace_waiting {c d : Nat} {u : MeTop M} : ∀ (is : List AcceleratorIn) (s : Accelerator M),
    Waiting [] c s → Emits (MeTop.tick p mu) MeTop.word s.me (List.replicate d none) u →
    is.length = d → (∀ i ∈ is, i.fwrVld = false) →
    ∃ t, Traces (Accelerator.step p mu) Accelerator.pushed s is (List.replicate d none) t ∧
      Waiting [] c t ∧ t.me = u := by
  induction d with
  | zero =>
      intro is s h hemits hlen _
      rw [List.eq_nil_of_length_eq_zero hlen]
      exact ⟨s, ⟨rfl, rfl⟩, h, hemits⟩
  | succ d ih =>
      intro is s h hemits hlen hquiet
      cases is with
      | nil => exact absurd hlen (by simp)
      | cons i is =>
          have hnext : Waiting [] c (s.step p mu i) :=
            waiting_none h (by simp) hemits.1 (hquiet i List.mem_cons_self)
          have hrest := hemits.2
          rw [← me_waiting (i := i) h] at hrest
          rcases ih is _ hnext hrest (Nat.succ.inj hlen)
            (fun j hj => hquiet j (List.mem_cons_of_mem _ hj)) with ⟨t, ht, hwait, hme⟩
          have hfirst := Traces.one (Accelerator.step p mu) Accelerator.pushed s i
          rw [h.pushed] at hfirst
          exact ⟨t, hfirst.append ht, hwait, hme⟩

/-- The words of the result come, one a clock. -/
theorem trace_collect {z c : Nat} {u : MeTop M} (hu : MeReady p Idle u) :
    ∀ (rs zs : List Nat) (is : List AcceleratorIn) (s : Accelerator M), Waiting zs c s →
      Emits (MeTop.tick p mu) MeTop.word s.me (rs.map some) u → rs ≠ [] →
      zs.length + rs.length = 16 → is.length = rs.length → (∀ i ∈ is, i.fwrVld = false) →
      (∀ l, l < 16 → (zs ++ rs).getD l 0 = z / (2 ^ 128) ^ l % 2 ^ 128) →
      ∃ t, Traces (Accelerator.step p mu) Accelerator.pushed s is
          (List.replicate is.length none) t ∧ Writing p Idle z c 0 t := by
  intro rs
  -- By induction on the words to come: each is stored in the clock it is shown.
  induction rs with
  | nil =>
      intro zs is s _ _ hne
      exact absurd rfl hne
  | cons r rs ih =>
      intro zs is s h hemits _ hsum hlen hquiet hz
      cases is with
      | nil => exact absurd hlen (by simp)
      | cons i is =>
          rw [List.length_cons] at hsum
          have hi := hquiet i List.mem_cons_self
          have hrest := hemits.2
          have hfirst := Traces.one (Accelerator.step p mu) Accelerator.pushed s i
          rw [h.pushed] at hfirst
          cases rs with
          | nil =>
              have hnil : is = [] := List.eq_nil_of_length_eq_zero (Nat.succ.inj hlen)
              subst hnil
              have hme : MeReady p Idle (s.me.tick p mu) := by
                rw [show s.me.tick p mu = u from hrest]
                exact hu
              exact ⟨_, hfirst, writing_start h (by simpa using hsum) hemits.1 hi hz hme⟩
          | cons r' rs =>
              rw [List.length_cons] at hsum
              have hnext : Waiting (zs ++ [r]) c (s.step p mu i) :=
                waiting_word h (by omega) hemits.1 hi
              rw [← me_waiting (i := i) h] at hrest
              rcases ih (zs ++ [r]) is _ hnext hrest (by simp) (by simp; omega)
                (Nat.succ.inj hlen) (fun j hj => hquiet j (List.mem_cons_of_mem _ hj))
                (by simpa using hz) with ⟨t, ht, hwrite⟩
              exact ⟨t, hfirst.append ht, hwrite⟩

end Run

end Rsa

end Wujian100
