import Mathlib.Data.List.DropRight
import Wujian100.Core.Tools.MkFlash
import Wujian100.Library.Writes

/-!
# The Memory Image of a Program

`hex2vmem` of `Srec2vmem.py` turns the lines of a Motorola S-record file into a memory image:
lines with the address of a word and its eight digits. A line of the input is a list of its
characters, and the image is a list of what is written, in order. Characters are ASCII.

## Main definitions

* `intHex`: `int` of a text with the prefix for hexadecimal numbers.
* `Vmem`: The variables that are kept from line to line.
* `dataRecord`: What is done with a data record.
* `hex2vmem`: The loop over the lines.
-/

namespace Wujian100

namespace Tools

namespace Srec

/-- The digits of `int` with single underscores between them, `under` telling whether one went
    before. -/
def intDigits : Nat → Bool → List Char → Option Nat
  | acc, under, [] => if under then none else some acc
  | acc, under, c :: cs =>
      if c = '_' then if under then none else intDigits acc true cs
      else
        match hexDigit c with
        | none => none
        | some d => intDigits (16 * acc + d) false cs

/-- A character that `int` leaves out at the end. -/
def isSpace (c : Char) : Bool :=
  9 ≤ c.toNat && c.toNat ≤ 13 || 28 ≤ c.toNat && c.toNat ≤ 32

/-- `int(("0x" + cs), 16)`, or `none` where it raises an exception. -/
def intHex (cs : List Char) : Option Nat :=
  match cs.rdropWhile isSpace with
  | [] => none
  | c :: cs => intDigits 0 false (c :: cs)

/-- `\w`. -/
def isWord (c : Char) : Bool := c.isAlphanum || c == '_'

/-- `^(S\d)(\w{2})`: the digit of the type and the two characters of the count. -/
def matchRecord : List Char → Option (Nat × List Char)
  | s :: d :: a :: b :: _ =>
      if s = 'S' ∧ d.isDigit ∧ isWord a ∧ isWord b then some (d.toNat - 48, [a, b]) else none
  | _ => none

/-- `cs[i:j]`. -/
def slice (cs : List Char) (i j : Nat) : List Char := (cs.take j).drop i

/-- How `hex2vmem` ends: with an end record, without one, by `sys.exit` or by an exception. -/
inductive Ending where
  | closed
  | ended
  | exited
  | raised
deriving DecidableEq, Repr

/-- The variables that are kept, and what was written. -/
structure Vmem where
  endMark : Option Nat
  baseAddr : Option Int
  prevMemAddr : Int
  ofile : List (Int × List Char)
deriving DecidableEq, Repr

/-- Before the first line. -/
def Vmem.start : Vmem := ⟨none, none, -1, []⟩

/-- A word of zeros. -/
def zeroWord : List Char := ['0', '0', '0', '0', '0', '0', '0', '0']

/-- The word of a record that is written for the index `i`. -/
def memData (lineData : List Char) (dataChars : Int) (i : Nat) : List Char :=
  if ((i + 1) * 8 : Nat) > dataChars then zeroWord
  else (slice lineData (i * 8) ((i + 1) * 8)).map Char.toLower

/-- The lines that fill a gap. -/
def fillGap (skipMode : String) (prevMemAddr curMemAddr : Int) : List (Int × List Char) :=
  if skipMode = "n" then
    let memAddrIncr := curMemAddr - prevMemAddr
    if memAddrIncr > 1 then writeRun prevMemAddr (memAddrIncr - 1).toNat fun _ => zeroWord else []
  else []

/-- What is done with a data record whose address has `addrBits`, or `none` where an exception
    is raised. -/
def dataRecord (skipMode : String) (s : Vmem) (curLine : List Char) (addrBits endMark : Nat)
    (lineBytes : Nat) : Option Vmem :=
  let addrChars := addrBits / 4
  let dataChars : Int := lineBytes * 2 - addrChars - 2
  let lineAddr := slice curLine 4 (4 + addrChars)
  let lineData := slice curLine (4 + addrChars) (4 + addrChars + dataChars).toNat
  match intHex lineAddr with
  | none => none
  | some lineAddr =>
      let baseAddr := s.baseAddr.getD lineAddr
      let curMemAddr := (lineAddr - baseAddr).tdiv 4
      let prevMemAddr := if s.prevMemAddr = -1 then curMemAddr else s.prevMemAddr
      some
        { endMark := some endMark
          baseAddr := some baseAddr
          prevMemAddr := curMemAddr + 4
          ofile := s.ofile ++ fillGap skipMode prevMemAddr curMemAddr
            ++ writeRun curMemAddr 4 (memData lineData dataChars) }

/-- The loop of `hex2vmem` over the lines. -/
def hex2vmem (skipMode : String) : List (List Char) → Vmem → Ending × Vmem
  | [], s => (.ended, s)
  | curLine :: lines, s =>
      match matchRecord curLine with
      | none => (.exited, s)
      | some (recordType, count) =>
          match intHex count with
          | none => (.raised, s)
          | some lineBytes =>
              let next (addrBits endMark : Nat) : Ending × Vmem :=
                match dataRecord skipMode s curLine addrBits endMark lineBytes with
                | none => (.raised, s)
                | some s => hex2vmem skipMode lines s
              if recordType = 0 then hex2vmem skipMode lines s
              else if recordType = 1 then next 16 9
              else if recordType = 2 then next 24 8
              else if recordType = 3 then next 32 7
              else if recordType < 7 then (.exited, s)
              else
                match s.endMark with
                | none => (.raised, s)
                | some endMark => if recordType ≠ endMark then (.exited, s) else (.closed, s)

end Srec

end Tools

end Wujian100
