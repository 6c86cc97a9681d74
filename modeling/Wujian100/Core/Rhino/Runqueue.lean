import Mathlib.Data.List.Rotate
import Mathlib.Logic.Function.Basic
import Mathlib.Tactic.Ring

/-!
# The Run Queue

`k_bitmap.h` and the ready lists of `k_sched.c`, for one processor. A ready list is
a ring that is entered at `cur_list_item`: a list whose head is that item, and the
empty list where it is `NULL`.

## Main definitions

* `Bitmap`: `task_bit_map`.
* `findFirstBit`: `krhino_find_first_bit`.
* `Runqueue`: `runqueue_t`.
* `Runqueue.addTail`, `Runqueue.addHead`, `Runqueue.rm`, `Runqueue.headToTail`: The
  operations on the ready lists.
-/

namespace Wujian100

namespace Rhino

/-- `RHINO_CONFIG_PRI_MAX`. -/
def priMax : Nat := 62

/-- `RHINO_IDLE_PRI`. -/
def idlePri : Nat := priMax - 1

/-- `NUM_WORDS`. -/
def numWords : Nat := (priMax + 31) / 32

/-! ## The bitmap -/

/-- The words of a bitmap. -/
abbrev Bitmap := Nat → BitVec 32

/-- `BITMAP_MASK`. -/
def bitmapMask (nr : Nat) : BitVec 32 :=
  1#32 <<< (31 - nr % 32)

/-- `krhino_bitmap_set`. -/
def bitmapSet (b : Bitmap) (nr : Nat) : Bitmap :=
  Function.update b (nr / 32) (b (nr / 32) ||| bitmapMask nr)

/-- `krhino_bitmap_clear`. -/
def bitmapClear (b : Bitmap) (nr : Nat) : Bitmap :=
  Function.update b (nr / 32) (b (nr / 32) &&& ~~~bitmapMask nr)

/-- One test of `krhino_find_first_bit`: without a bit under the mask, the word and
    the count move on. -/
def skipClear (mask : BitVec 32) (shift : Nat) (s : BitVec 32 × Nat) : BitVec 32 × Nat :=
  if s.1 &&& mask = 0#32 then (s.1 <<< shift, s.2 + shift) else s

/-- The position of the first bit of a word, as the tests find it. -/
def firstBitOf (w : BitVec 32) : Nat :=
  let s := skipClear 0xFFFF0000#32 16 (w, 0)
  let s := skipClear 0xFF000000#32 8 s
  let s := skipClear 0xF0000000#32 4 s
  let s := skipClear 0xC0000000#32 2 s
  (skipClear 0x80000000#32 1 s).2

/-- `krhino_find_first_bit`; nothing is found once the words run out. -/
def findFirstBit (b : Bitmap) : Option Nat :=
  ((List.range numWords).find? fun i => b i ≠ 0#32).map fun i => i * 32 + firstBitOf (b i)

/-! ## The ready lists -/

/-- `runqueue_t`. -/
structure Runqueue (T : Type) where
  list : Nat → List T
  taskBitMap : Bitmap
  highestPri : Nat

namespace Runqueue

variable {T : Type} [DecidableEq T]

/-- `runqueue_init`, on a queue that starts as zeros. -/
def init : Runqueue T where
  list := fun _ => []
  taskBitMap := fun _ => 0#32
  highestPri := priMax

/-- `ready_list_init`. -/
def listInit (rq : Runqueue T) (prio : Nat) (t : T) : Runqueue T where
  list := Function.update rq.list prio [t]
  taskBitMap := bitmapSet rq.taskBitMap prio
  highestPri := if prio < rq.highestPri then prio else rq.highestPri

/-- `ready_list_add_tail`. -/
def addTail (rq : Runqueue T) (prio : Nat) (t : T) : Runqueue T :=
  if rq.list prio = [] then rq.listInit prio t
  else { rq with list := Function.update rq.list prio (rq.list prio ++ [t]) }

/-- `ready_list_add_head`. -/
def addHead (rq : Runqueue T) (prio : Nat) (t : T) : Runqueue T :=
  if rq.list prio = [] then rq.listInit prio t
  else { rq with list := Function.update rq.list prio (t :: rq.list prio) }

/-- `ready_list_rm`. Nothing comes of it where the list is `NULL`, or where no bit
    is left to be found. -/
def rm (rq : Runqueue T) (prio : Nat) (t : T) : Option (Runqueue T) :=
  match rq.list prio with
  | [] => none
  | [_] =>
      -- The only item goes, whichever it is.
      let bits := bitmapClear rq.taskBitMap prio
      let list := Function.update rq.list prio []
      if prio ≠ rq.highestPri then some { rq with list := list, taskBitMap := bits }
      else (findFirstBit bits).map fun i => { list := list, taskBitMap := bits, highestPri := i }
  | l => some { rq with list := Function.update rq.list prio (l.erase t) }

/-- `ready_list_head_to_tail`. -/
def headToTail (rq : Runqueue T) (prio : Nat) : Option (Runqueue T) :=
  if rq.list prio = [] then none
  else some { rq with list := Function.update rq.list prio ((rq.list prio).rotate 1) }

/-- The task `preferred_cpu_ready_task_get` takes. -/
def preferred (rq : Runqueue T) : Option T :=
  (rq.list rq.highestPri).head?

end Runqueue

end Rhino

end Wujian100
