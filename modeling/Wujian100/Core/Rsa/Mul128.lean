import Wujian100.Core.Rsa.Multiplier
import Wujian100.Library.Pipeline

/-!
# Multipliers of 128 Bits

`mmp_iddmm_mul128` can be built in three ways: with `*` and a shift register (`COMMON`),
with `mult`, which sums 64 products of 16 bits in a pipeline, and with
`simple_vedic_128bit`, which makes a multiplier of four with half its width.

Wires and registers are numbers below a power of two. A sum is taken modulo the width of
what it is assigned to, and so is a shift.

## Main definitions

* `Common`: The shift register.
* `Mult`, `Mult.step`: `mult`, a structure for the registers of each round.
* `P12Adder2`: `simple_p12adder256_3_2` with two stages.
* `vedic4`, `vedic8`: The multipliers without a clock.
* `Vedic`: The others, for any width and any multiplier of half the width.
* `vedic16`, `vedic32`, `vedic64`, `vedic128`: What they are of.
-/

namespace Wujian100

namespace Rsa

/-! ## `COMMON` -/

/-- `lc`, with as many registers as there are clocks of latency. -/
abbrev Common := Nat → Nat

namespace Common

/-- `a_in * b_in`, of 256 bits. -/
def mul (a b : Nat) : Nat := a * b % 2 ^ 256

def step (lc : Common) (rstN : Bool) (a b : Nat) : Common
  | 0 => if rstN = true then mul a b else 0
  | j + 1 => if rstN = true then lc j else 0

/-- `c_out`, for a latency of one or more. -/
def cOut (latency : Nat) (lc : Common) : Nat := lc (latency - 1)

end Common

/-! ## `mult` -/

/-- The registers `x7y7`, `x7y6`, ..., `x0y0`. -/
abbrev Mult.Products := Nat → Nat → Nat

/-- `sum077`, `sum076`, ..., `sum000`. -/
structure Mult.Round0 where
  (s77 s76 s75 s74 s73 s72 s71 s70 : Nat)
  (s66 s65 s64 s63 s62 s61 s60 : Nat)
  (s55 s54 s53 s52 s51 s50 : Nat)
  (s44 s43 s42 s41 s40 : Nat)
  (s33 s32 s31 s30 : Nat)
  (s22 s21 s20 : Nat)
  (s11 s10 : Nat)
  s00 : Nat

/-- `sum114_s`, `sum113_s`, `sum112`, ..., `sum100_s`. -/
structure Mult.Round1 where
  (s14s s13s s12 s11 : Nat)
  (s10a s10b s09a s09b s08a s08b s07a s07b : Nat)
  (s06a s06b s05a s05b s04a s04b : Nat)
  (s03 s02 s01s s00s : Nat)

/-- `sum2_1400`, `sum2_1301`, `sum210`, ..., `sum202_s`. -/
structure Mult.Round2 where
  (s1400 s1301 : Nat)
  (s10 s09 s08 s07 s06 s05 s04 : Nat)
  (s12s s11s s03s s02s : Nat)

/-- `sum310_s`, ..., `sum304_s`, `sum3_1211`, `sum3_0302`, `sum3_1413`. -/
structure Mult.Round3 where
  (s10s s09s s08s s07s s06s s05s s04s : Nat)
  (s1211 s0302 s1413 : Nat)

/-- `sum4_0`, ..., `sum4_4`. -/
structure Mult.Round4 where
  (s0 s1 s2 s3 s4 : Nat)

/-- `sum5_0`, `sum5_1`, `sum5_2`. -/
structure Mult.Round5 where
  (s0 s1 s2 : Nat)

/-- `sum6_0`, `sum6_1`. -/
structure Mult.Round6 where
  (s0 s1 : Nat)

/-- `simple_p12adder256_3_2` with two stages: a register behind each sum of halves. -/
structure P12Adder2 where
  first : P12Adder
  s2L : Nat
  s2H : Nat
  h2 : Nat

namespace P12Adder2

def step (s : P12Adder2) (ain bin finalFaCoutI : Nat) : P12Adder2 where
  first := P12Adder.step ain bin finalFaCoutI
  s2L := s.first.sL
  s2H := s.first.high % 2 ^ 128
  h2 := (s.first.ffc + s.first.high / 2 ^ 128) % 2 ^ 2

/-- `{h2, s2_h, s2_l}`. -/
def fullSum (s : P12Adder2) : Nat := cat (cat s.h2 128 s.s2H) 128 s.s2L

end P12Adder2

/-- `mult`. -/
structure Mult where
  products : Mult.Products
  round0 : Mult.Round0
  round1 : Mult.Round1
  round2 : Mult.Round2
  round3 : Mult.Round3
  round4 : Mult.Round4
  round5 : Mult.Round5
  round6 : Mult.Round6
  adder : P12Adder2

namespace Mult

/-- A sum that goes to a register of 256 bits. -/
def add (a b : Nat) : Nat := (a + b) % 2 ^ 256

/-- A shift that goes to a register of 256 bits. -/
def shl (a n : Nat) : Nat := a * 2 ^ n % 2 ^ 256

/-- `xi` and `yi`, of 16 bits. -/
def limb (x i : Nat) : Nat := slice x (16 * i) 16

/-- `xiyj <= xi * yj`, of 32 bits. -/
def Products.step (x y : Nat) : Products := fun i j => limb x i * limb y j % 2 ^ 32

def Round0.step (p : Products) : Round0 where
  s77 := p 7 7
  s76 := add (p 7 6) (p 6 7)
  s75 := add (p 7 5) (p 5 7)
  s74 := add (p 7 4) (p 4 7)
  s73 := add (p 7 3) (p 3 7)
  s72 := add (p 7 2) (p 2 7)
  s71 := add (p 7 1) (p 1 7)
  s70 := add (p 7 0) (p 0 7)
  s66 := p 6 6
  s65 := add (p 6 5) (p 5 6)
  s64 := add (p 6 4) (p 4 6)
  s63 := add (p 6 3) (p 3 6)
  s62 := add (p 6 2) (p 2 6)
  s61 := add (p 6 1) (p 1 6)
  s60 := add (p 6 0) (p 0 6)
  s55 := p 5 5
  s54 := add (p 5 4) (p 4 5)
  s53 := add (p 5 3) (p 3 5)
  s52 := add (p 5 2) (p 2 5)
  s51 := add (p 5 1) (p 1 5)
  s50 := add (p 5 0) (p 0 5)
  s44 := p 4 4
  s43 := add (p 4 3) (p 3 4)
  s42 := add (p 4 2) (p 2 4)
  s41 := add (p 4 1) (p 1 4)
  s40 := add (p 4 0) (p 0 4)
  s33 := p 3 3
  s32 := add (p 3 2) (p 2 3)
  s31 := add (p 3 1) (p 1 3)
  s30 := add (p 3 0) (p 0 3)
  s22 := p 2 2
  s21 := add (p 2 1) (p 1 2)
  s20 := add (p 2 0) (p 0 2)
  s11 := p 1 1
  s10 := add (p 1 0) (p 0 1)
  s00 := p 0 0

def Round1.step (r : Round0) : Round1 where
  s14s := shl r.s77 224
  s13s := shl r.s76 208
  s12 := add r.s75 r.s66
  s11 := add r.s74 r.s65
  s10a := add r.s73 r.s64
  s10b := r.s55
  s09a := add r.s72 r.s63
  s09b := r.s54
  s08a := add r.s71 r.s62
  s08b := add r.s53 r.s44
  s07a := add r.s70 r.s61
  s07b := add r.s52 r.s43
  s06a := add r.s60 r.s51
  s06b := add r.s42 r.s33
  s05a := add r.s50 r.s41
  s05b := r.s32
  s04a := add r.s40 r.s31
  s04b := r.s22
  s03 := add r.s30 r.s21
  s02 := add r.s20 r.s11
  s01s := shl r.s10 16
  s00s := r.s00

def Round2.step (r : Round1) : Round2 where
  s10 := add r.s10a r.s10b
  s09 := add r.s09a r.s09b
  s08 := add r.s08a r.s08b
  s07 := add r.s07a r.s07b
  s06 := add r.s06a r.s06b
  s05 := add r.s05a r.s05b
  s04 := add r.s04a r.s04b
  s12s := shl r.s12 192
  s11s := shl r.s11 176
  s03s := shl r.s03 48
  s02s := shl r.s02 32
  s1301 := add r.s13s r.s01s
  s1400 := add r.s14s r.s00s

def Round3.step (r : Round2) : Round3 where
  s10s := shl r.s10 160
  s09s := shl r.s09 144
  s08s := shl r.s08 128
  s07s := shl r.s07 112
  s06s := shl r.s06 96
  s05s := shl r.s05 80
  s04s := shl r.s04 64
  s1211 := add r.s12s r.s11s
  s0302 := add r.s03s r.s02s
  s1413 := add r.s1400 r.s1301

def Round4.step (r : Round3) : Round4 where
  s0 := add r.s10s r.s09s
  s1 := add r.s08s r.s07s
  s2 := add r.s06s r.s05s
  s3 := add r.s04s r.s1211
  s4 := add r.s0302 r.s1413

def Round5.step (r : Round4) : Round5 where
  s0 := add r.s0 r.s1
  s1 := add r.s2 r.s3
  s2 := r.s4

def Round6.step (r : Round5) : Round6 where
  s0 := add r.s0 r.s1
  s1 := r.s2

/-- One clock. -/
def step (m : Mult) (x y : Nat) : Mult where
  products := Products.step x y
  round0 := Round0.step m.products
  round1 := Round1.step m.round0
  round2 := Round2.step m.round1
  round3 := Round3.step m.round2
  round4 := Round4.step m.round3
  round5 := Round5.step m.round4
  round6 := Round6.step m.round5
  adder := m.adder.step m.round6.s0 m.round6.s1 0

/-- The lower of the two outputs. -/
def ret (m : Mult) : Nat := slice m.adder.fullSum 0 128

/-- The higher of the two outputs. -/
def carry (m : Mult) : Nat := slice m.adder.fullSum 128 128

/-- `c_out` where it is built with `mult`. -/
def cOut (m : Mult) : Nat := cat m.carry 128 m.ret

end Mult

/-! ## `simple_vedic_*bit` -/

/-- `vedic2x2`, bit by bit. -/
def vedic2x2 (a b : Nat) : Nat :=
  let a0 := slice a 0 1
  let a1 := slice a 1 1
  let b0 := slice b 0 1
  let b1 := slice b 1 1
  let s0 := a0 &&& b0
  let s1 := (a1 &&& b0) ^^^ (a0 &&& b1)
  let s2 := ((a1 &&& b0) &&& (a0 &&& b1)) ^^^ (a1 &&& b1)
  let s3 := ((a1 &&& b0) &&& (a0 &&& b1)) &&& (a1 &&& b1)
  cat (cat (cat s3 1 s2) 1 s1) 1 s0

/-- A multiplier of `W` bits without a clock, of one with half its width. -/
structure VedicComb where
  res0 : Nat
  res1 : Nat
  res2 : Nat
  res3 : Nat

namespace VedicComb

/-- The products of the halves. -/
def wires (W : Nat) (sub : Nat → Nat → Nat) (a b : Nat) : VedicComb where
  res0 := sub (slice a 0 (W / 2)) (slice b 0 (W / 2))
  res1 := sub (slice a (W / 2) (W / 2)) (slice b 0 (W / 2))
  res2 := sub (slice a 0 (W / 2)) (slice b (W / 2) (W / 2))
  res3 := sub (slice a (W / 2) (W / 2)) (slice b (W / 2) (W / 2))

def res0Adder (W : Nat) (v : VedicComb) : Nat := (v.res1 + v.res2) % 2 ^ (W + 1)

def res1Adder (W : Nat) (v : VedicComb) : Nat :=
  (slice (v.res0Adder W) 0 W + slice v.res0 (W / 2) (W / 2)) % 2 ^ (W + 1)

/-- `res1_adder[W] | res0_adder[W]`. -/
def carry (W : Nat) (v : VedicComb) : Nat := slice (v.res1Adder W) W 1 ||| slice (v.res0Adder W) W 1

def s (W : Nat) (v : VedicComb) : Nat :=
  let high := (v.res3 + cat (v.carry W) (W / 2) (slice (v.res1Adder W) (W / 2) (W / 2))) % 2 ^ W
  cat (cat high (W / 2) (slice (v.res1Adder W) 0 (W / 2))) (W / 2) (slice v.res0 0 (W / 2))

end VedicComb

/-- `simple_vedic_4bit`. -/
def vedic4 (a b : Nat) : Nat := (VedicComb.wires 4 vedic2x2 a b).s 4

/-- `simple_vedic_8bit`. -/
def vedic8 (a b : Nat) : Nat := (VedicComb.wires 8 vedic4 a b).s 8

/-- A multiplier of `W` bits with two stages, of four of half its width, each of which has
    a state of its own. -/
structure Vedic (S : Type) where
  sub0 : S
  sub1 : S
  sub2 : S
  sub3 : S
  stage0 : Nat
  stage1 : Nat

namespace Vedic

section Wires

variable {S : Type} (W : Nat)

/-- The products of the halves, where `out` is what a multiplier of half the width shows. -/
def wires (out : S → Nat → Nat → Nat) (v : Vedic S) (a b : Nat) : VedicComb where
  res0 := out v.sub0 (slice a 0 (W / 2)) (slice b 0 (W / 2))
  res1 := out v.sub1 (slice a (W / 2) (W / 2)) (slice b 0 (W / 2))
  res2 := out v.sub2 (slice a 0 (W / 2)) (slice b (W / 2) (W / 2))
  res3 := out v.sub3 (slice a (W / 2) (W / 2)) (slice b (W / 2) (W / 2))

/-- `{res3, res0_adder, res0}`. -/
def stage0Of (w : VedicComb) : Nat := cat (cat w.res3 (W + 1) (w.res0Adder W)) W w.res0

/-- `res1_adder`, behind the first stage. -/
def res1Adder (stage0 : Nat) : Nat :=
  (slice stage0 (W / 2) (W / 2) + slice stage0 W W) % 2 ^ (W + 1)

/-- `res1_adder[W] | stage0[2*W]`. -/
def carry (stage0 : Nat) : Nat := slice (res1Adder W stage0) W 1 ||| slice stage0 (2 * W) 1

/-- `{stage0[3*W-:W], carry, res1_adder[W-1:0], stage0[W/2-1:0]}`. -/
def stage1Of (stage0 : Nat) : Nat :=
  cat (cat (cat (slice stage0 (2 * W + 1) W) 1 (carry W stage0)) W (slice (res1Adder W stage0) 0 W))
    (W / 2) (slice stage0 0 (W / 2))

def res2Adder (stage1 : Nat) : Nat :=
  (slice stage1 (W + W / 2 + 1) W
    + cat (slice stage1 (W + W / 2) 1) (W / 2) (slice stage1 W (W / 2))) % 2 ^ W

def s (v : Vedic S) : Nat := cat (res2Adder W v.stage1) W (slice v.stage1 0 W)

/-- One clock, with that of the four multipliers. -/
def step (next : S → Nat → Nat → S) (out : S → Nat → Nat → Nat) (v : Vedic S) (a b : Nat) :
    Vedic S where
  sub0 := next v.sub0 (slice a 0 (W / 2)) (slice b 0 (W / 2))
  sub1 := next v.sub1 (slice a (W / 2) (W / 2)) (slice b 0 (W / 2))
  sub2 := next v.sub2 (slice a 0 (W / 2)) (slice b (W / 2) (W / 2))
  sub3 := next v.sub3 (slice a (W / 2) (W / 2)) (slice b (W / 2) (W / 2))
  stage0 := stage0Of W (wires W out v a b)
  stage1 := stage1Of W v.stage0

end Wires

end Vedic

/-- `simple_vedic_16bit`, of four without a clock. -/
abbrev Vedic16 := Vedic Unit

def Vedic16.step (v : Vedic16) (a b : Nat) : Vedic16 :=
  Vedic.step 16 (fun _ _ _ => ()) (fun _ a b => vedic8 a b) v a b

/-- `simple_vedic_32bit`. -/
abbrev Vedic32 := Vedic Vedic16

def Vedic32.step (v : Vedic32) (a b : Nat) : Vedic32 :=
  Vedic.step 32 Vedic16.step (fun s _ _ => Vedic.s 16 s) v a b

/-- `simple_vedic_64bit`. -/
abbrev Vedic64 := Vedic Vedic32

def Vedic64.step (v : Vedic64) (a b : Nat) : Vedic64 :=
  Vedic.step 64 Vedic32.step (fun s _ _ => Vedic.s 32 s) v a b

/-- `simple_vedic_128bit`. -/
abbrev Vedic128 := Vedic Vedic64

def Vedic128.step (v : Vedic128) (a b : Nat) : Vedic128 :=
  Vedic.step 128 Vedic64.step (fun s _ _ => Vedic.s 64 s) v a b

end Rsa

end Wujian100
