import Wujian100.Core.Rhino.Kernel

/-!
# Semaphores of the CSI

`csi_kernel_sem_*`, with what of `k_sem.c` they call. The semaphore is what the kernel keeps of
it: the tokens and the tasks that wait, in the order of their priorities, which may be any. A
task that waits leaves the list when it gets a token, and otherwise when its time is out, at any
moment.

## Main definitions

* `Ksem`: `ksem_t`.
* `Ksem.give`, `Ksem.take`: `sem_give` and `krhino_sem_take`.
* `csiKernelSemNew`, `Ksem.post`, `Ksem.wait`, `Ksem.getCount`: The functions of the CSI.
* `SemLedger`: A semaphore, with the posts that were accepted and the waits that succeeded.
-/

namespace Wujian100

namespace Rhino

/-- `ksem_t`. -/
structure Ksem (T : Type) where
  count : Nat
  peakCount : Nat
  blkList : List T
deriving DecidableEq, Repr

/-- The semaphore in an object of the kernel. -/
def Kobj.ksem {T O : Type} (x : Kobj T O) : Ksem T := ⟨x.count, x.peakCount, x.blkList⟩

/-- `csi_kernel_sem_new`, where there is room for a semaphore or not. -/
def csiKernelSemNew {T : Type} (room : Bool) (maxCount initialCount : BitVec 32) :
    Option (Ksem T) :=
  if maxCount.toInt ≤ 0 ∨ initialCount.toInt < 0 then none
  else if maxCount.toInt < initialCount.toInt then none
  else if room = true then some ⟨initialCount.toNat, initialCount.toNat, []⟩
  else none

namespace Ksem

variable {T : Type}

/-- `sem_give` of one token. -/
def give (s : Ksem T) : Kstat × Ksem T :=
  match s.blkList with
  | [] =>
      if s.count = 2 ^ 32 - 1 then (.semOvf, s)
      else (.success, { s with count := s.count + 1, peakCount := max s.peakCount (s.count + 1) })
  | _ :: rest => (.success, { s with blkList := rest })

/-- `krhino_sem_take`, in an interrupt or not and with the scheduler suspended or not. It
    returns nothing yet where the task has to wait, behind so many others. -/
def take (s : Ksem T) (t : T) (ticks : Nat) (intrpt locked : Bool) (pos : Nat) :
    Option Kstat × Ksem T :=
  if intrpt = true then (some .notCalledByIntrpt, s)
  else if s.count > 0 then (some .success, { s with count := s.count - 1 })
  else if ticks = 0 then (some .noPendWait, s)
  else if locked = true then (some .schedDisable, s)
  else (none, { s with blkList := s.blkList.insertIdx (min pos s.blkList.length) t })

/-- `csi_kernel_sem_post`. -/
def post (s : Ksem T) : Int × Ksem T :=
  let p := s.give
  (if p.1 = .success then 0 else -1, p.2)

/-- `csi_kernel_sem_wait`, up to where it waits. -/
def wait (s : Ksem T) (t : T) (timeout : BitVec 32) (intrpt locked : Bool) (pos : Nat) :
    Option Int × Ksem T :=
  let ticks := if timeout.toInt < 0 then waitForever else timeout.toNat
  let p := s.take t ticks intrpt locked pos
  (p.1.map fun r => if r = .success then 0 else if r = .blkTimeout then -110 else -1, p.2)

/-- `csi_kernel_sem_get_count`. -/
def getCount (s : Ksem T) : Int := (BitVec.ofNat 32 s.count).toInt

end Ksem

/-- What happens to a semaphore: it is posted, waited for, or a task that waits does so no
    more. -/
inductive SemAct (T : Type) where
  | post
  | wait (t : T) (timeout : BitVec 32) (intrpt locked : Bool) (pos : Nat)
  | leave (t : T)
deriving DecidableEq, Repr

/-- A semaphore, the posts that were accepted and the waits that got a token. -/
structure SemLedger (T : Type) where
  sem : Ksem T
  posts : Nat
  takes : Nat

/-- One step. A task that waits calls nothing. -/
def SemLedger.step {T : Type} [DecidableEq T] (s : SemLedger T) : SemAct T → Option (SemLedger T)
  | .post =>
      let p := s.sem.post
      -- A task that waits gets the token at once.
      some {
        sem := p.2
        posts := s.posts + if p.1 = 0 then 1 else 0
        takes := s.takes + if s.sem.blkList ≠ [] then 1 else 0 }
  | .wait t timeout intrpt locked pos =>
      if t ∈ s.sem.blkList ∧ intrpt = false then none
      else
        let p := s.sem.wait t timeout intrpt locked pos
        some { s with sem := p.2, takes := s.takes + if p.1 = some 0 then 1 else 0 }
  | .leave t =>
      if t ∈ s.sem.blkList then
        some { s with sem := { s.sem with blkList := s.sem.blkList.erase t } }
      else none

end Rhino

end Wujian100
