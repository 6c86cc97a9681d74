import Wujian100.Core.Rsa.Multiplier

/-!
# Modular Exponentiation

`me_iddmm_top`: square and multiply, from the top bit of the exponent down, on
a multiplier that does the products. The state machine writes the operands of a
product into the multiplier word by word, requests it, and stores the words of
the result as they come.

The multiplier is anything with the ports of `mmp_iddmm_sp`; `Sp.multiplier` is
that one. The exponent, `m1`, `rou` and the initial contents of `result` are
constants of the source and parameters here.

## Main definitions

* `Multiplier`, `Sp.multiplier`: What does the products.
* `MeParams`: The constants.
* `Me`, `Me.step`: The state machine.
* `MeTop`, `MeTop.step`: The state machine with its multiplier.
-/

namespace Wujian100

namespace Rsa

/-- A clocked part with the ports of `mmp_iddmm_sp`. -/
structure Multiplier (M : Type) where
  step : M → SpIn → M
  out : M → SpOut

/-- `mmp_iddmm_sp` itself. -/
def Sp.multiplier (addrW : Nat) : Multiplier Sp where
  step := Sp.step addrW
  out := Sp.out

/-- The values of `current_state`. -/
inductive MeState where
  | idle
  | state00
  | state01
  | state10
  | state11
  | state20
  | state21
  | state3
  | state4
deriving DecidableEq, Repr

/-- `K`, `ADDR_W` and the constants: the exponent, `m1`, `rou` and
    `result_backup`, the last two word by word. -/
structure MeParams where
  k : Nat
  addrW : Nat
  meY : Nat
  meM1 : Nat
  rou : Nat → Nat
  resultBackup : Nat → Nat

/-- The bits of the exponent. -/
def MeParams.bits (p : MeParams) : Nat := p.k * 2 ^ p.addrW

/-- The registers of `me_iddmm_top`. -/
structure Me where
  currentState : MeState
  loopCounter : Nat
  result : Nat → Nat
  result2 : Nat → Nat
  yy : Nat
  resultValid : Bool
  resultOut : Nat
  wrXCnt : Nat
  wrEnaX : Bool
  wrEnaY : Bool
  wrAddr : Nat
  wrAddrD1 : Nat
  wrX : Nat
  wrY : Nat
  taskReq : Bool

/-- The inputs of `me_iddmm_top`. -/
structure MeIn where
  meStart : Bool
  meX : Nat
  meXValid : Bool

/-- The outputs of `me_iddmm_top`. -/
structure MeOut where
  meValid : Bool
  meResult : Nat
deriving DecidableEq, Repr

/-- A register file with one word replaced. -/
def setWord (f : Nat → Nat) (a z : Nat) : Nat → Nat :=
  fun l => if l = a then z else f l

namespace Me

/-- After `rst_n`. `result` is as it was initialised, `result2` is anything. -/
def reset (p : MeParams) (result2 : Nat → Nat) : Me where
  currentState := .idle
  loopCounter := 0
  result := p.resultBackup
  result2 := result2
  yy := p.meY
  resultValid := false
  resultOut := 0
  wrXCnt := 0
  wrEnaX := false
  wrEnaY := false
  wrAddr := 0
  wrAddrD1 := 0
  wrX := 0
  wrY := 0
  taskReq := false

/-- What the multiplier sees. -/
def mulIn (p : MeParams) (s : Me) : SpIn where
  wrEnaX := s.wrEnaX
  wrEnaY := s.wrEnaY
  wrAddr := s.wrAddrD1
  wrX := s.wrX
  wrY := s.wrY
  wrM1 := p.meM1
  taskReq := s.taskReq

def out (s : Me) : MeOut where
  meValid := s.resultValid
  meResult := s.resultOut

/-- A clock of the states that write operands: the next words go to the
    multiplier, or, once it has the last, a product is requested. -/
def send (p : MeParams) (s : Me) (next : MeState) (x y : Nat) : Me :=
  if s.wrAddrD1 = 2 ^ p.addrW - 1 ∧ (s.wrEnaX || s.wrEnaY) = true then
    { s with
      taskReq := true, wrAddr := 0, wrEnaX := false, wrEnaY := false, currentState := next }
  else
    { s with
      wrAddr := (s.wrAddr + 1) % 2 ^ p.addrW, wrEnaX := true, wrX := x, wrEnaY := true, wrY := y }

/-- A clock of the states that store a product: at its end the request is taken
    back. -/
def finish (s : Me) (o : SpOut) (next : MeState) : Me :=
  if o.taskEnd then { s with taskReq := false, wrAddr := 0, currentState := next } else s

/-- One clock. In each state `s'` is `s` with `wr_addr_d1`, which follows
    `wr_addr` by a clock; conditions read `s`. -/
def step (p : MeParams) (s : Me) (i : MeIn) (o : SpOut) : Me :=
  let granted := s.taskReq && o.taskGrant
  let nextAddr := (s.wrAddr + 1) % 2 ^ p.addrW
  let follow := fun t : Me => { t with wrAddrD1 := s.wrAddr }
  match s.currentState with
  | .idle =>
      follow { s with
        taskReq := false
        yy := p.meY
        loopCounter := 0
        resultValid := false
        resultOut := 0
        wrX := 0
        wrY := 0
        wrAddr := 0
        wrXCnt := 0
        currentState := if i.meStart then .state00 else .idle }
  | .state00 =>
      let t :=
        if i.meXValid then
          { s with
            wrXCnt := (s.wrXCnt + 1) % 2 ^ (p.addrW + 1)
            wrAddr := nextAddr
            wrEnaX := true
            wrX := i.meX
            wrEnaY := true
            wrY := p.rou s.wrAddr }
        else { s with wrEnaX := false, wrEnaY := false }
      follow
        (if s.wrXCnt = 2 ^ p.addrW then
          { t with wrXCnt := 0, taskReq := true, wrAddr := 0, currentState := .state01 }
        else t)
  | .state01 =>
      let t := s.finish o .state10
      follow
        (if granted then
          { t with wrAddr := nextAddr, result2 := setWord s.result2 s.wrAddr o.taskRes }
        else t)
  | .state10 => follow (s.send p .state20 (s.result s.wrAddr) (s.result s.wrAddr))
  | .state11 => follow (s.send p .state21 (s.result s.wrAddr) (s.result2 s.wrAddr))
  | .state20 =>
      let last := decide (s.loopCounter = p.bits - 1)
      let next :=
        if s.yy.testBit (p.bits - 1) then .state11 else if last then .state3 else .state10
      let t := s.finish o next
      let t :=
        if o.taskEnd then
          { t with
            yy := s.yy * 2 % 2 ^ p.bits
            loopCounter := if last then s.loopCounter else s.loopCounter + 1 }
        else t
      follow
        (if granted then
          { t with wrAddr := nextAddr, result := setWord s.result s.wrAddr o.taskRes }
        else t)
  | .state21 =>
      let t := s.finish o (if s.loopCounter = p.bits - 1 then .state3 else .state10)
      follow
        (if granted then
          { t with wrAddr := nextAddr, result := setWord s.result s.wrAddr o.taskRes }
        else t)
  | .state3 => follow (s.send p .state4 (s.result s.wrAddr) (if s.wrAddr = 0 then 1 else 0))
  | .state4 =>
      let t := s.finish o .idle
      follow
        (if granted then
          { t with
            wrAddr := nextAddr
            result := setWord s.result s.wrAddr (p.resultBackup s.wrAddr)
            resultOut := o.taskRes
            resultValid := true }
        else { t with resultValid := false })

end Me

/-- The state machine with its multiplier. -/
structure MeTop (M : Type) where
  me : Me
  mul : M

namespace MeTop

variable {M : Type}

def out (s : MeTop M) : MeOut := s.me.out

/-- One clock of both. -/
def step (p : MeParams) (mu : Multiplier M) (s : MeTop M) (i : MeIn) : MeTop M where
  me := s.me.step p i (mu.out s.mul)
  mul := mu.step s.mul (s.me.mulIn p)

end MeTop

end Rsa

end Wujian100
