import Wujian100.Core.Rsa.R2mm

/-!
# The Radix-2 Exponentiation

`me_top` with `mm_r2mm_2n` in it: `me_x` to the power of `me_y`, by squaring and
multiplying from the top bit of the exponent down. Each product is a request to
the unit and the wait for its `val`; where a bit of the exponent is clear,
`skip_flag` stands for the `val` of the product that is left out.

The modulus and the two constants that belong to it are wires in the source, and
parameters here.

## Main definitions

* `R2Params`: The width and the constants.
* `Radix2`, `Radix2.step`: The state machine with the unit.
* `shippedR2`: The constants as shipped.
-/

namespace Wujian100

namespace Rsa

/-- `K`, and the constants of `me_top`. -/
structure R2Params where
  K : Nat
  meM : Nat
  rou : Nat
  mmRou1 : Nat

/-- The values of `current_stage`. -/
inductive Radix2.Stage where
  | idle
  | stage0
  | stage10
  | stage11
  | stage2
deriving DecidableEq, Repr

/-- The inputs of `me_top`. -/
structure Radix2.In where
  meStart : Bool
  meX : Nat
  meY : Nat

/-- The registers of `me_top`, and those of the unit. -/
structure Radix2 where
  currentStage : Radix2.Stage
  mmReq : Bool
  mmX : Nat
  mmY : Nat
  loopCounter : Nat
  result2 : Nat
  yy : Nat
  skipFlag : Bool
  result : Nat
  resultValid : Bool
  unit : R2mm2n

namespace Radix2

/-- After `rst_n`. -/
def reset : Radix2 where
  currentStage := .idle
  mmReq := false
  mmX := 0
  mmY := 0
  loopCounter := 0
  result2 := 0
  yy := 0
  skipFlag := false
  result := 0
  resultValid := false
  unit := .reset

/-- What the unit sees. -/
def unitIn (p : R2Params) (s : Radix2) : R2mmIn where
  x := s.mmX
  y := s.mmY
  m := p.meM
  req := s.mmReq

/-- One clock. `loop_counter` is cleared by reset only, and `skip_flag` by a
    squaring that follows. -/
def step (p : R2Params) (s : Radix2) (i : In) : Radix2 :=
  let mmVal := s.unit.val
  let mmRes := s.unit.res
  let s' := { s with unit := s.unit.step p.K (s.unitIn p) }
  match s.currentStage with
  | .idle =>
      let s' := { s' with resultValid := false, result := 0 }
      if i.meStart then
        { s' with mmReq := true, yy := i.meY, mmX := i.meX, mmY := p.rou, currentStage := .stage0 }
      else s'
  | .stage0 =>
      if mmVal then
        { s' with
          result2 := mmRes, mmReq := true, mmX := p.mmRou1, mmY := p.mmRou1
          currentStage := .stage11 }
      else { s' with mmReq := false }
  | .stage10 =>
      if mmVal || s.skipFlag then
        if s.loopCounter = p.K then
          { s' with mmReq := true, mmX := mmRes, mmY := 1, currentStage := .stage2 }
        else
          { s' with
            skipFlag := false, mmReq := true, mmX := mmRes, mmY := mmRes
            currentStage := .stage11 }
      else { s' with mmReq := false }
  | .stage11 =>
      if mmVal then
        let s' := { s' with
          currentStage := .stage10
          yy := s.yy * 2 % 2 ^ p.K
          loopCounter := (s.loopCounter + 1) % 2 ^ p.K }
        if s.yy.testBit (p.K - 1) then { s' with mmReq := true, mmX := mmRes, mmY := s.result2 }
        else { s' with mmReq := false, skipFlag := true }
      else { s' with mmReq := false }
  | .stage2 =>
      if mmVal then
        { s' with mmReq := false, result := mmRes, resultValid := true, currentStage := .idle }
      else { s' with mmReq := false }

end Radix2

/-! ## The constants as shipped -/

/-- `me_m`, 64 hexadecimal digits a line. -/
def shippedM : List Nat := [
  0xD27BF9F01E2A901DB957879F45F697330D21A21095DA4FA7D3AAB75454A8E9F0,
  0xF4EA531ECE34F0C3BA9E02EB27D8F0DBE78EEDE4AC84061BEEF162D00B55C0DD,
  0x772D28F23E994899AA19B9BEA7B12A8027A32A92190A3630E249544675488121,
  0x565A23548FCD36F5382EEB993DB9CE3F526F20AB355E82D963D59541BC1161E2,
  0x11A03E3B372560840C57E12BD2F40EAC5FFCEC01B3F07C378C0A60B74BEF7B57,
  0x2764C88A4F98B61FA8CCD905AFAE779E6193378304D8EB17695CE71A173AC3DE,
  0x11271753C48DB58546E5AF9917C1CEBBA5BB1AF3FCE3DF9516C0C95C9BC14BB6,
  0x5D1C53078C06C81AC0F3ED0D8634260E47BF780CF4F4996084DF732935194417]

/-- `rou`, 70 decimal digits a line. -/
def shippedRou : List Nat := [
  46735443519289060462030757812344563408603424278991961099,
  7486706952636317677706111707718976428965561355423966357986014360907996,
  9876638900167688504271598230385649191879021485056598880699114051861514,
  6544148849614454235294360191073257199940718409605177667863400708353039,
  9329936995562788567539266043096904415772453275643595984495731179242686,
  8004933539296138443662043047401086365317568544931104789513349939071584,
  3035892652611262961273272579615559946613312095122148513521303131228908,
  1163786095970824136446037699412369456749509892433909503669378094065386,
  4027629679264735358148812140150901416091997858508190468762454584277101]

/-- `mm_rou_1`, 70 decimal digits a line. -/
def shippedRou1 : List Nat := [
  57458270264363425224679462991979058573904813833273373470,
  3818853897071139238960149982513902438628242204908406901750546977931652,
  7473425111900980069474194036860960244895375103837289976760106488485919,
  7343253530535037658039538789180587598632306633365194727438592330051963,
  1062075002640120267561696431593238266326794387268992771597811591009718,
  268726384517818574952770948042475641775285154528800294799682180492651,
  8721269446694948149349641911669524533210305151534242226207352865541286,
  2340715230251030795970855645882333691989755827308209031531485342224487,
  3819729683359430850911143373961158818084935325175670062385266598263785]

/-- A constant written on several lines. -/
def joined (base : Nat) (lines : List Nat) : Nat :=
  lines.foldl (fun n d => n * base + d) 0

def shippedR2 : R2Params where
  K := 2048
  meM := joined (16 ^ 64) shippedM
  rou := joined (10 ^ 70) shippedRou
  mmRou1 := joined (10 ^ 70) shippedRou1

end Rsa

end Wujian100
