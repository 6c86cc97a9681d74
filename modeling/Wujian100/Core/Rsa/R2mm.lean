import Mathlib.Tactic.Ring

/-!
# The Radix-2 Multiplier and its Models

`mm_r2mm_2n` multiplies two bits of `x` a clock: two `mm_r2mm` in series behind
the accumulator `s_sid_r`. `python/montgomery_mul_hd.py` has three models it was
checked against: the bit-serial `mont_r2mm`, its variant with fixed widths
`mont_r2mm_hd`, and the word-serial `mont_iddmm`.

Python's integers are unbounded, and so are the numbers here; what the wires of
the unit cut off is written out. A Python list that is indexed is a function of
the index. `mont_iddmm` divides by `n` and negates what `mod_inv` returns, which
fail for `n == 0` and for `None`: it is `none` there. What it prints is left out.

## Main definitions

* `montR2mm`, `montR2mmHd`: The bit-serial models.
* `modInv`, `montIddmm`: The word-serial model.
* `mmR2mm`, `R2mm2n.step`: The unit, clock by clock.
-/

namespace Wujian100

namespace Rsa

/-! ## The bit-serial models -/

/-- `mm`: the low `k` bits. -/
def mm (x k : Nat) : Nat :=
  x &&& (2 ^ k - 1)

/-- The body of `mont_r2mm`'s loop. -/
def montR2mmBit (xx yy m : Nat) (s i : Nat) : Nat :=
  let a := s + (if (xx >>> i) &&& 1 = 1 then 1 else 0) * yy
  if a % 2 = 0 then a / 2 else (a + m) / 2

/-- `mont_r2mm`'s `s` after the rounds below `i`. -/
def montR2mmLoop (xx yy m i : Nat) : Nat :=
  (List.range i).foldl (montR2mmBit xx yy m) 0

def montR2mm (xx yy m k : Nat) : Nat :=
  let s := montR2mmLoop xx yy m k
  if s ≥ m then s - m else s

/-- `a` in `mont_r2mm_hd`. -/
def hdSum (xx yy k : Nat) (s i : Nat) : Nat :=
  mm s (k + 1) + (if (xx >>> i) &&& 1 = 1 then 1 else 0) * mm yy k

/-- The body of `mont_r2mm_hd`'s loop. -/
def montR2mmHdBit (xx yy m k : Nat) (s i : Nat) : Nat :=
  let a := hdSum xx yy k s i
  if a &&& 1 = 0 then a >>> 1
  else mm ((mm a (k + 2) + mm m k) >>> 1) (k + 2)

/-- `mont_r2mm_hd`'s `s` after the rounds below `i`. -/
def montR2mmHdLoop (xx yy m k i : Nat) : Nat :=
  (List.range i).foldl (montR2mmHdBit xx yy m k) 0

def montR2mmHd (xx yy m k : Nat) : Nat :=
  let s := montR2mmHdLoop xx yy m k k
  if s ≥ m then s - m else s

/-! ## The word-serial model -/

/-- `mod_inv`'s loop, from `u1`, `u2`, `u3` and `v1`, `v2`, `v3` on. -/
def modInvLoop (u1 u2 : Int) (u3 : Nat) (v1 v2 : Int) (v3 : Nat) : Int :=
  if _h : v3 ≠ 0 then
    let q := u3 / v3
    modInvLoop v1 v2 v3 (u1 - q * v1) (u2 - q * v2) (u3 - q * v3)
  else u1
termination_by v3
decreasing_by
  have hmod := Nat.mod_add_div u3 v3
  have hlt := Nat.mod_lt u3 (Nat.pos_of_ne_zero _h)
  rw [Nat.mul_comm] at hmod
  omega

/-- `mod_inv`: `none` is `None`. -/
def modInv (a m : Nat) : Option Nat :=
  if Nat.gcd a m ≠ 1 then none
  else some (modInvLoop 1 0 a 0 1 m % m).toNat

/-- What `mont_iddmm`'s inner loop changes. -/
structure Iddmm where
  a : Nat → Nat
  c : Nat
  q : Nat

/-- The body of the inner loop. -/
def iddmmColumn (k n : Nat) (x p : Nat → Nat) (yi p1 carry : Nat) (t : Iddmm) (j : Nat) : Iddmm :=
  let s := mm (t.a j + x j * yi) (2 * k)
  let q := if j = 0 then mm s k * mm p1 k % 2 ^ k else t.q
  let s := if j = n then s + carry else s
  let r := q * p j
  let buf0 := s + r + t.c
  let u := mm buf0 k
  { a := if j > 0 then Function.update t.a (j - 1) u else t.a
    c := buf0 >>> k
    q := q }

/-- The body of the outer loop: `a` and `carry`. -/
def iddmmRow (k n : Nat) (x y p : Nat → Nat) (p1 : Nat) (w : (Nat → Nat) × Nat) (i : Nat) :
    (Nat → Nat) × Nat :=
  let t := (List.range (n + 1)).foldl (iddmmColumn k n x p (y i) p1 w.2) ⟨w.1, 0, 0⟩
  (t.a, t.c &&& 1)

/-- `x_`, `y_` and `p_`: the words of a number, and 0 above them. -/
def words (k n v : Nat) (i : Nat) : Nat :=
  if i < n then mm (v >>> (i * k)) k else 0

def montIddmm (xx yy p nbit n : Nat) : Option Nat :=
  if n = 0 then none
  else
    let k := nbit / n
    let beta := 2 ^ k
    if Nat.gcd p beta ≠ 1 then some 0
    else do
      let inv ← modInv p beta
      let p1 := ((-1 * (inv : Int)) % beta).toNat
      let w := (List.range n).foldl
        (iddmmRow k n (words k n xx) (words k n yy) (words k n p) p1) (fun _ => 0, 0)
      let a := Function.update w.1 n w.2
      let su := (List.range (n + 1)).foldl (fun su i => su + a i * beta ^ i) 0
      if su ≥ p then some (su - p) else some su

/-! ## The unit -/

/-- `mm_r2mm`. -/
def mmR2mm (K : Nat) (xi : Bool) (y m si : Nat) : Nat :=
  let ximuly := if xi = true then y else 0
  let a := (si + ximuly) % 2 ^ (K + 2)
  let buf0 := if a % 2 = 1 then (m + a) % 2 ^ (K + 2) else a
  buf0 / 2 % 2 ^ (K + 1)

/-- `mm_r2mm_2n`'s inputs. -/
structure R2mmIn where
  x : Nat
  y : Nat
  m : Nat
  req : Bool

/-- The registers of `mm_r2mm_2n`. -/
structure R2mm2n where
  sSidR : Nat
  sel : Nat
  buf0 : Nat
  res : Nat
  val : Bool

namespace R2mm2n

/-- After `rst_n`. -/
def reset : R2mm2n where
  sSidR := 0
  sel := 0
  buf0 := 0
  res := 0
  val := false

def reqPp (s : R2mm2n) : Bool := s.buf0 == 1

/-- `s_mid_w`. -/
def sMidW (K : Nat) (s : R2mm2n) (i : R2mmIn) : Nat :=
  mmR2mm K (i.x.testBit s.sel) i.y i.m s.sSidR

/-- `s_sid_w`. -/
def sSidW (K : Nat) (s : R2mm2n) (i : R2mmIn) : Nat :=
  mmR2mm K (i.x.testBit (s.sel + 1)) i.y i.m (s.sMidW K i)

/-- One clock. -/
def step (K : Nat) (s : R2mm2n) (i : R2mmIn) : R2mm2n :=
  let s' := { s with buf0 := 2 * (s.buf0 % 2) + i.req.toNat }
  let w := s.sSidW K i
  if s.reqPp = true ∧ s.sel = 0 then
    { s' with sel := (s.sel + 2) % 2 ^ 13, sSidR := w }
  else if s.sel > 0 then
    if s.sel = K - 2 then
      { s' with res := (if w ≥ i.m then w - i.m else w) % 2 ^ K, val := true, sel := 0 }
    else { s' with sel := (s.sel + 2) % 2 ^ 13, sSidR := w }
  else { s' with val := false, sSidR := 0 }

/-- Several clocks. -/
def run (K : Nat) (s : R2mm2n) (is : List R2mmIn) : R2mm2n :=
  is.foldl (step K) s

end R2mm2n

end Rsa

end Wujian100
