import Wujian100.Core.Bytes

/-!
# Building the Flash Image

`rsa_sign` writes a signature as text, two hexadecimal digits a byte, and
`mkflash` puts two firmware files and two such texts into one image. The image
has no header: every position in it follows from the order and the lengths of
the writes, the padding of a firmware being whatever is left of its megabyte.

`fscanf02X` is one call of `fscanf` with `"%02X"`, as C defines it: white space
is skipped, then the longest prefix of at most two characters that can still
become a hexadecimal number is taken, with its sign and its `0x`, and the call
fails if what was taken is not one.

The files are taken to be there and readable, and the host to be
little-endian. `buf` is not initialized by `main`, so its first content is an
argument; a text that is too short would leave part of it in the image.

## Main definitions

* `rsaSignText`: The file `rsa_sign` writes.
* `fscanf02X`: One number of a signature text.
* `readSign`: The loop that reads a signature.
* `mkflash`: The image.
-/

namespace Wujian100

namespace Tools

/-- A digit as `printf` writes it for `%X`. -/
def upperHexDigit (v : Nat) : Char :=
  if v < 10 then Char.ofNat (48 + v) else Char.ofNat (55 + v)

/-- `"%02X%s"` for byte `i`: a line ends after sixteen of them. -/
def rsaSignByte (i : Nat) (b : UInt8) : List Char :=
  [upperHexDigit (b.toNat / 16), upperHexDigit (b.toNat % 16)] ++
    (if (i + 1) % 16 = 0 then ['\r', '\n'] else [' '])

/-- The loop of `rsa_sign` from byte `i` on. -/
def rsaSignText (i : Nat) : List UInt8 → List Char
  | [] => []
  | b :: rest => rsaSignByte i b ++ rsaSignText (i + 1) rest

/-- `isspace`. -/
def isSpace (c : Char) : Bool :=
  c == ' ' || c == '\t' || c == '\n' || c == '\x0b' || c == '\x0c' || c == '\r'

/-- The value of a hexadecimal digit, of either case. -/
def hexDigit (c : Char) : Option Nat :=
  if 48 ≤ c.toNat ∧ c.toNat ≤ 57 then some (c.toNat - 48)
  else if 65 ≤ c.toNat ∧ c.toNat ≤ 70 then some (c.toNat - 55)
  else if 97 ≤ c.toNat ∧ c.toNat ≤ 102 then some (c.toNat - 87)
  else none

/-- The conversion of `%02X`, white space skipped: the value and the rest of
    the text, or a failure. -/
def scanHex : List Char → Option (Nat × List Char)
  | [] => none
  | c :: rest =>
      if c = '+' ∨ c = '-' then
        match rest with
        | [] => none
        | d :: rest =>
            match hexDigit d with
            | none => none
            | some v => some (if c = '-' then (2 ^ 32 - v) % 2 ^ 32 else v, rest)
      else
        match hexDigit c with
        | none => none
        | some hi =>
            match rest with
            | [] => some (hi, [])
            | d :: rest =>
                -- Two characters of `0x` are a prefix of a number, not one.
                if c = '0' ∧ (d = 'x' ∨ d = 'X') then none
                else
                  match hexDigit d with
                  | none => some (hi, d :: rest)
                  | some lo => some (16 * hi + lo, rest)

/-- `fscanf(f, "%02X", &c)`, with the value it stores; `none` stands for every
    result that is not positive. -/
def fscanf02X (text : List Char) : Option (Nat × List Char) := scanHex (text.dropWhile isSpace)

/-- The loop over `buf`, with `room` bytes of it left: the scan comes before
    the test of `i`, so one more number is taken from a text that has it. -/
def readSign : Nat → List Char → List UInt8 → List UInt8
  | room, text, buf =>
      match fscanf02X text with
      | none => buf
      | some (c, rest) =>
          match room with
          | 0 => buf
          | room + 1 => readSign room rest (buf.set (buf.length - (room + 1)) (UInt8.ofNat c))

def firmwareSizeApp0Padding : Nat := 0x00100000
def firmwareSizeApp1Padding : Nat := 0x00100000

/-- A difference of file sizes stored in a `uint32_t`. -/
def paddingSize (total stSize : Nat) : Nat :=
  (((total : Int) - stSize - 4 - 256) % 2 ^ 32).toNat

/-- Everything `main` writes for one firmware before its signature. -/
def firmwarePart (total : Nat) (data : List UInt8) : List UInt8 :=
  let size := data.length % 2 ^ 32
  data.take size ++ List.replicate (paddingSize total data.length) 0 ++ leBytes 4 size

/-- `main` of `mkflash`: the output file. `buf` is one variable, so the second
    signature is read over the first. -/
def mkflash (buf fw0Data : List UInt8) (fw0Sign : List Char) (fw1Data : List UInt8)
    (fw1Sign : List Char) : List UInt8 :=
  let buf0 := readSign buf.length fw0Sign buf
  let buf1 := readSign buf0.length fw1Sign buf0
  firmwarePart firmwareSizeApp0Padding fw0Data ++ buf0 ++
    (firmwarePart firmwareSizeApp1Padding fw1Data ++ buf1)

end Tools

end Wujian100
