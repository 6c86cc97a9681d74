import Mathlib.Tactic.Ring

/-!
# The IDDMM Multiplier

`mmp_iddmm_sp` with its three clocked parts: the controller `mmp_iddmm_ctrl`
(for `D5 == 0`), the processing element `mmp_iddmm_pe` and the final comparison
and subtraction `mm_iddmm_sub`. The multipliers and adders are the `COMMON` ones
with latency zero, as `me_iddmm_top` instantiates them, so the shift registers
between them are wires.

The processing element is fixed at words of 128 bits: it takes bits `[127:0]`
of them, and `[255:0]` of their products. The number of words is `2 ** ADDR_W`
with `ADDR_W` a parameter, but the counters of the controller have five and six
bits whatever it is, and the address wires between the parts have five.

The registers `i` and `j00` of the controller are read by nothing and left out.

## Main definitions

* `Ctrl`, `Ctrl.step`: The controller.
* `Pe`, `Pe.step`: The processing element.
* `Addend32`: The other adder it can be built with.
* `Sub`, `Sub.step`: The comparison and subtraction.
* `Sp`, `Sp.step`: The multiplier with its memories.
-/

namespace Wujian100

namespace Rsa

/-- `K`, fixed in `mmp_iddmm_pe`. -/
def wordBits : Nat := 128

/-- `mmp_iddmm_sp`'s inputs. -/
structure SpIn where
  wrEnaX : Bool
  wrEnaY : Bool
  wrAddr : Nat
  wrX : Nat
  wrY : Nat
  wrM1 : Nat
  taskReq : Bool

/-- `mmp_iddmm_sp`'s outputs. -/
structure SpOut where
  taskEnd : Bool
  taskGrant : Bool
  taskRes : Nat

/-! ## The controller -/

/-- The values of `st`. The last two are named by comments in the source. -/
inductive Ctrl.St where
  | st0
  | st1
  | st2
  | saveCarry2an
  | makeFinalsub
deriving DecidableEq, Repr

/-- The registers of `mmp_iddmm_ctrl`. -/
structure Ctrl where
  _i : Nat
  _j : Nat
  _j00 : Bool
  j : Nat
  taskEn : Bool
  st : Ctrl.St
  refAn : Nat
  compReq : Bool
  refWrN : Bool
  ctlCarryClr : Bool
  ctlCPreClr : Bool

namespace Ctrl

/-- After `rst_n`. -/
def reset : Ctrl where
  _i := 0
  _j := 0
  _j00 := false
  j := 0
  taskEn := false
  st := .st0
  refAn := 0
  compReq := false
  refWrN := false
  ctlCarryClr := false
  ctlCPreClr := false

def refWrAEna (s : Ctrl) : Bool := decide (s.j ≠ 0)

/-- `bf0[4:0]`. -/
def refWrAAddr (s : Ctrl) : Nat := (s.j + 2 ^ 6 - 1) % 2 ^ 6 % 2 ^ 5

/-- One clock. -/
def step (n : Nat) (s : Ctrl) (taskReq : Bool) (carry : Nat) (compEnd : Bool) : Ctrl :=
  -- The registers that follow `_i` and `_j` by a clock, and `task_en`.
  let s' := { s with
    j := s._j
    refWrN := decide (s._j = n)
    ctlCarryClr := decide (s._j = 0) && decide (s._i = 0)
    ctlCPreClr := decide (s._j = 0) && s._j00
    taskEn := if compEnd then false else if taskReq then true else s.taskEn }
  if s.taskEn then
    match s.st with
    | .st0 => { s' with _j00 := true, st := .st1 }
    | .st1 => { s' with _j00 := false, st := .st2 }
    | .st2 =>
        if s._i = n - 1 ∧ s._j = n then { s' with _j := 0, _i := 0, st := .saveCarry2an }
        else if s._j = n then { s' with _j := 0, _i := (s._i + 1) % 2 ^ 5, _j00 := true, st := .st1 }
        else { s' with _j := (s._j + 1) % 2 ^ 6 }
    | .saveCarry2an =>
        if s.refWrAEna = false then { s' with refAn := carry, st := .makeFinalsub, compReq := true }
        else s'
    | .makeFinalsub => if compEnd then { s' with compReq := false, st := .st0 } else s'
  else s'

end Ctrl

/-! ## The processing element -/

/-- The registers of `mmp_iddmm_pe`. -/
structure Pe where
  carry : Nat
  q : Nat
  cPre : Nat

/-- The data inputs of `mmp_iddmm_pe`. -/
structure PeIn where
  xj : Nat
  yi : Nat
  mj : Nat
  m1 : Nat
  aj : Nat

namespace Pe

/-- After `rst_n`. -/
def reset : Pe where
  carry := 0
  q := 0
  cPre := 0

/-- `x * y + a`, and the carry bit in the column where it is selected. -/
def s (p : Pe) (i : PeIn) (ctlCarrySel : Bool) : Nat :=
  (i.xj * i.yi % 2 ^ (2 * wordBits) + i.aj + (if ctlCarrySel then p.carry else 0))
    % 2 ^ (2 * wordBits)

def m1s (p : Pe) (i : PeIn) (ctlCarrySel : Bool) : Nat :=
  i.m1 * (p.s i ctlCarrySel % 2 ^ wordBits) % 2 ^ (2 * wordBits) % 2 ^ wordBits

def r (p : Pe) (i : PeIn) : Nat :=
  i.mj * p.q % 2 ^ (2 * wordBits)

def uC (p : Pe) (i : PeIn) (ctlCarrySel : Bool) : Nat :=
  (p.cPre + p.r i + p.s i ctlCarrySel) % 2 ^ (2 * wordBits + 1)

def c (p : Pe) (i : PeIn) (ctlCarrySel : Bool) : Nat :=
  p.uC i ctlCarrySel / 2 ^ wordBits

def uj (p : Pe) (i : PeIn) (ctlCarrySel : Bool) : Nat :=
  p.uC i ctlCarrySel % 2 ^ wordBits

/-- One clock. The carry is selected and stored in the same column, and the
    quotient is stored when the column carry is cleared. -/
def step (p : Pe) (i : PeIn) (ctlCarryClr ctlCarryEna ctlCPreClr : Bool) : Pe where
  carry := if ctlCarryClr then 0 else if ctlCarryEna then p.c i ctlCarryEna % 2 else p.carry
  q := if ctlCPreClr then p.m1s i ctlCarryEna else p.q
  cPre := if ctlCPreClr then 0 else p.c i ctlCarryEna

end Pe

/-! ## The last adder, compressing

With `3-2_DELAY2` for `ADD2_METHOD` the last adder of the processing element is
`mmp_iddmm_addend_3_2`, which drops the highest of 258 bits.
-/

/-- `simple_p12adder256_3_2` with one stage: the low halves are added before the
    register, the high halves after it. -/
structure P12Adder where
  sL : Nat
  cL : Nat
  aH : Nat
  bH : Nat
  ffc : Nat

namespace P12Adder

def step (ain bin finalFaCoutI : Nat) : P12Adder where
  sL := (ain % 2 ^ 128 + bin % 2 ^ 128) % 2 ^ 128
  cL := (ain % 2 ^ 128 + bin % 2 ^ 128) / 2 ^ 128
  aH := ain / 2 ^ 128 % 2 ^ 128
  bH := bin / 2 ^ 128 % 2 ^ 128
  ffc := finalFaCoutI

/-- `{c_h, s2_h_}`. -/
def high (s : P12Adder) : Nat := (s.cL + s.aH + s.bH) % 2 ^ 129

def fullSum (s : P12Adder) : Nat :=
  (s.ffc + s.high / 2 ^ 128) % 2 ^ 2 * 2 ^ 256 + s.high % 2 ^ 128 * 2 ^ 128 + s.sL

end P12Adder

namespace Addend32

/-- The sums of the 256 `fa`s. -/
def faSum (a b c : Nat) : Nat := a ^^^ b ^^^ c

/-- Their carries. -/
def faCout (a b c : Nat) : Nat := (a &&& b) ||| (c &&& (a ^^^ b))

/-- The adder behind them, one clock later. -/
def step (a b c : Nat) : P12Adder :=
  P12Adder.step (faSum a b c) (faCout a b c % 2 ^ 255 * 2) (faCout a b c / 2 ^ 255 % 2)

/-- `_x`, which goes nowhere. -/
def dropped (a b c : Nat) : Nat := (step a b c).fullSum / 2 ^ (2 * wordBits + 1)

def dOut (a b c : Nat) : Nat := (step a b c).fullSum % 2 ^ (2 * wordBits + 1)

end Addend32

/-! ## The comparison and subtraction -/

/-- `simple_p1adder129`: the low halves are added before the register, the high
    halves after it. -/
structure P1Adder where
  sL : Nat
  cL : Nat
  aH : Nat
  bH : Nat

namespace P1Adder

def step (ain bin : Nat) : P1Adder where
  sL := (ain % 2 ^ 64 + bin % 2 ^ 64) % 2 ^ 64
  cL := (ain % 2 ^ 64 + bin % 2 ^ 64) / 2 ^ 64
  aH := ain / 2 ^ 64 % 2 ^ 65
  bH := bin / 2 ^ 64 % 2 ^ 65

def fullSum (s : P1Adder) : Nat :=
  (s.cL + s.aH + s.bH) % 2 ^ 66 * 2 ^ 64 + s.sL

end P1Adder

/-- The values of `st`. -/
inductive Sub.St where
  | idle
  | compMsw
  | compProcess
  | compProcess2
  | compFinSub
  | compFinNop
  | outNop
  | outNopEnd
  | outSub
  | outSubEnd
deriving DecidableEq, Repr

/-- The registers of `mm_iddmm_sub`. -/
structure Sub where
  st : Sub.St
  addrA : Nat
  carry : Nat
  bf0 : Nat
  bf1 : Bool
  subVal : Bool
  nopVal : Bool
  odd : Bool
  adder : P1Adder

namespace Sub

/-- All ones. -/
def lastAddr (addrW : Nat) : Nat := 2 ^ addrW - 1

/-- After `rst_n`. The adder is not reset. -/
def reset (addrW : Nat) (adder : P1Adder) : Sub where
  st := .idle
  addrA := lastAddr addrW
  carry := 0
  bf0 := 0
  bf1 := false
  subVal := false
  nopVal := false
  odd := false
  adder := adder

def res (s : Sub) (aj : Nat) : Nat := if s.nopVal then aj else if s.subVal then s.bf0 else 0

def taskEnd (s : Sub) : Bool :=
  decide (s.st = .outNopEnd) || (decide (s.st = .outSubEnd) && !s.bf1)

def resVal (s : Sub) : Bool := s.nopVal || s.subVal

def clraWren (s : Sub) : Bool := (decide (s.st = .outSub) && s.odd) || decide (s.st = .outNop)

def plus1 (s : Sub) : Nat := if s.addrA = 1 then 1 else 0

def subEna (s : Sub) : Bool := s.bf1 && !s.odd

/-- `{carry, bf0}` when a word is subtracted. -/
def difference (s : Sub) : Nat :=
  (s.adder.fullSum % 2 ^ (wordBits + 1) + s.carry + s.plus1) % 2 ^ (wordBits + 1)

/-- Where a comparison of words leads. -/
def compare (aj mj : Nat) (equal : Sub.St) : Sub.St :=
  if aj > mj then .compFinSub else if aj < mj then .compFinNop else equal

/-- One clock. -/
def step (addrW : Nat) (s : Sub) (taskReq : Bool) (aj an mj : Nat) : Sub :=
  let s' := { s with
    odd := if s.st = .outSub then !s.odd else false
    nopVal := decide (s.st = .outNop)
    bf1 := decide (s.st = .outSub)
    subVal := s.subEna
    carry := if s.subEna then s.difference / 2 ^ wordBits else if !s.bf1 then 0 else s.carry
    bf0 := if s.subEna then s.difference % 2 ^ wordBits else if !s.bf1 then 0 else s.bf0
    -- The inverted word of the modulus and the word of the accumulator.
    adder := P1Adder.step (2 ^ wordBits - 1 - mj) aj }
  match s.st with
  | .idle => if taskReq then { s' with st := .compMsw, addrA := lastAddr addrW } else s'
  | .compMsw =>
      if an = 1 then { s' with st := .compFinSub, addrA := lastAddr addrW }
      else { s' with st := .compProcess, addrA := (s.addrA + 2 ^ addrW - 1) % 2 ^ addrW }
  | .compProcess =>
      if s.addrA = 0 then { s' with st := compare aj mj .compProcess2 }
      else
        { s' with
          st := compare aj mj .compProcess, addrA := (s.addrA + 2 ^ addrW - 1) % 2 ^ addrW }
  | .compProcess2 => { s' with st := compare aj mj .compFinSub }
  | .compFinSub => { s' with addrA := 0, st := .outSub }
  | .compFinNop => { s' with addrA := 0, st := .outNop }
  | .outNop =>
      if s.addrA = lastAddr addrW then { s' with st := .outNopEnd }
      else { s' with addrA := (s.addrA + 1) % 2 ^ addrW }
  | .outNopEnd => { s' with st := .idle }
  | .outSub =>
      if s.odd then
        if s.addrA = lastAddr addrW then { s' with st := .outSubEnd }
        else { s' with addrA := (s.addrA + 1) % 2 ^ addrW }
      else s'
  | .outSubEnd => if s.bf1 then s' else { s' with st := .idle }

end Sub

/-! ## The multiplier -/

/-- `simple_ram`. A word that is read in the clock in which it is written comes
    out as it was. -/
structure Ram where
  mem : Nat → Nat
  q : Nat

def Ram.step (s : Ram) (wren : Bool) (wraddress data rdaddress : Nat) : Ram where
  mem := if wren then fun a => if a = wraddress then data else s.mem a else s.mem
  q := s.mem rdaddress

/-- The registers of `mmp_iddmm_sp` and the parts it instantiates. -/
structure Sp where
  ctrl : Ctrl
  pe : Pe
  sub : Sub
  x : Ram
  y : Ram
  m : Ram
  a : Ram
  m1 : Nat

namespace Sp

/-- After `rst_n`. The memories and the registers behind them are not reset. -/
def reset (addrW : Nat) (x y m a : Ram) (m1 : Nat) (adder : P1Adder) : Sp where
  ctrl := .reset
  pe := .reset
  sub := .reset addrW adder
  x := x
  y := y
  m := m
  a := a
  m1 := m1

/-- An address on five wires, at the port of a memory of `2 ** ADDR_W` words. -/
def port (addrW addr : Nat) : Nat := addr % 2 ^ 5 % 2 ^ addrW

def out (s : Sp) : SpOut where
  taskEnd := s.sub.taskEnd
  taskGrant := s.sub.resVal
  taskRes := s.sub.res s.a.q

/-- What the processing element sees. -/
def peIn (s : Sp) : PeIn where
  xj := s.x.q
  yi := s.y.q
  mj := if s.ctrl.refWrN then 0 else s.m.q
  m1 := s.m1
  aj := if s.ctrl.refWrN then 0 else s.a.q

/-- Where the memories of the accumulator and the modulus are read. -/
def rdAddr (addrW : Nat) (s : Sp) : Nat :=
  if s.ctrl.compReq then port addrW s.sub.addrA else port addrW s.ctrl._j

/-- One clock. -/
def step (addrW : Nat) (s : Sp) (i : SpIn) : Sp where
  ctrl := s.ctrl.step (2 ^ addrW) i.taskReq s.pe.carry s.sub.taskEnd
  pe := s.pe.step s.peIn s.ctrl.ctlCarryClr s.ctrl.refWrN s.ctrl.ctlCPreClr
  sub := s.sub.step addrW s.ctrl.compReq s.a.q s.ctrl.refAn s.m.q
  x := s.x.step i.wrEnaX i.wrAddr i.wrX (s.ctrl._j % 2 ^ (addrW + 1))
  y := s.y.step i.wrEnaY i.wrAddr i.wrY (port addrW s.ctrl._i)
  -- `wr_ena & 0`: the modulus is never written.
  m := s.m.step false i.wrAddr 0 (rdAddr addrW s)
  a :=
    if s.sub.clraWren then s.a.step true (port addrW s.sub.addrA) 0 (rdAddr addrW s)
    else
      s.a.step s.ctrl.refWrAEna (port addrW s.ctrl.refWrAAddr)
        (s.pe.uj s.peIn s.ctrl.refWrN) (rdAddr addrW s)
  m1 := if i.wrEnaX || i.wrEnaY then i.wrM1 else s.m1

end Sp

end Rsa

end Wujian100
