import Wujian100.Core.Mbox.Driver

/-!
# The Two Applications

`main` of the two applications, as far as it uses the mailboxes: `mbox_init`,
the release of core 1 by core 0, the first message, and the loop that reads an
acknowledgement, sends the next message, reads a message and acknowledges it.
The two programs differ in the release, in the first value of `loop`, and in
the text of their messages.

A place of `main` is a `Pc`; while a driver function runs, the place is the one
that called it. What `main` does with a result touches its own variables only,
so it is one step with the access that ends the call. The accesses of
`mbox_init` are steps of their own.

The display, the patterns and the delays of the loop are left out: they are
time between two accesses, and any schedule may put time there.

## Main definitions

* `App`, `Sys`: The variables of `main`, and both cores with them.
* `mailText`: The text of a message.
* `App.resume`: What `main` does with a result.
* `appStep`: A step of `main` outside the driver.
* `sysStep`: A step of either core.
* `Sys.powerOn`, `Sys.initialized`: Where the runs begin.
-/

namespace Wujian100

namespace Mbox

/-- Where `main` is. -/
inductive Pc where
  | held
  | initCtrl0
  | initCtrl1
  | initIrq
  | release
  | firstSend
  | loopTop
  | checkAcked
  | sendMsg
  | checkPending
  | sendAck
deriving DecidableEq, Repr

/-- The variables of `main`. -/
structure App where
  pc : Pc
  sendMsg : Bool
  sendAck : Bool
  sendMsgId : BitVec 8
  sendAckId : BitVec 8
  loop : BitVec 8

structure Sys where
  mbox : State
  app : CoreId → App

/-- `%u` of a `uint8_t`. -/
def decimal (n : BitVec 8) : List UInt8 :=
  (Nat.toDigits 10 n.toNat).map (fun ch => UInt8.ofNat ch.toNat)

/-- The literal part of a message. -/
def mailGreeting : CoreId → String
  | .core0 => "Hello from core 0! The message id is "
  | .core1 => "Hello from core 1! The message id is "

/-- `snprintf` into `mail_buff`, up to its `strlen`. -/
def mailText (c : CoreId) (id : BitVec 8) : List UInt8 :=
  (mailGreeting c).toList.map (fun ch => UInt8.ofNat ch.toNat) ++ decimal id

/-- `sizeof(mail_buff)`. -/
def mailBuffSize : Nat := 1024

def loopInit : CoreId → BitVec 8
  | .core0 => 100
  | .core1 => 197

/-- Leaving the place of a call with its result. -/
def App.resume (a : App) : Ret → App
  | .status v =>
      match a.pc with
      | .firstSend =>
          if v ≥ 0 then { a with pc := .loopTop }
          else { a with sendMsgId := a.loop, sendMsg := true, pc := .loopTop }
      | .sendMsg =>
          if v ≥ 0 then { a with sendMsg := false, pc := .checkPending }
          else { a with pc := .checkPending }
      | .checkPending => { a with pc := .sendAck }
      | .sendAck =>
          if v ≥ 0 then { a with sendAck := false, pc := .loopTop } else { a with pc := .loopTop }
      | _ => a
  | .ack _ => { a with sendMsgId := a.loop, sendMsg := true, pc := .sendMsg }
  | .message m => { a with sendAckId := m.tag, sendAck := true, pc := .sendAck }

/-- `main` of core `c` moves on to `pc`. -/
def Sys.setPc (s : Sys) (c : CoreId) (pc : Pc) : Sys :=
  { s with app := Function.update s.app c { s.app c with pc := pc } }

/-- `main` of core `c` calls the driver. -/
def Sys.call (s : Sys) (c : CoreId) (op : Op) : Sys := { s with mbox := s.mbox.goto c op.entry }

/-- A step of `main` outside the driver. -/
def appStep (c : CoreId) (s : Sys) : Option Sys :=
  let a := s.app c
  let cpu := s.mbox.cpu c
  let box := s.mbox.box c
  match a.pc with
  | .held => none
  | .initCtrl0 => some ({ s with mbox := s.mbox.setBox c { box with ctrl0 := 0 } }.setPc c .initCtrl1)
  | .initCtrl1 => some ({ s with mbox := s.mbox.setBox c { box with ctrl1 := 0 } }.setPc c .initIrq)
  | .initIrq =>
      some ({ s with mbox := s.mbox.setCpu c { cpu with irqEnabled := true } }.setPc c
        (match c with | .core0 => .release | .core1 => .firstSend))
  -- `pmu_set_reset(1)`, in the program of core 0.
  | .release => some ((s.setPc .core1 .initCtrl0).setPc c .firstSend)
  | .firstSend => some (s.call c (.sendMessage a.loop (mailText c a.loop)))
  | .loopTop =>
      some { s with app := Function.update s.app c { a with loop := a.loop + 1, pc := .checkAcked } }
  | .checkAcked => if cpu.mailAcked then some (s.call c .readAck) else some (s.setPc c .sendMsg)
  | .sendMsg =>
      if a.sendMsg then some (s.call c (.sendMessage a.loop (mailText c a.sendMsgId)))
      else some (s.setPc c .checkPending)
  | .checkPending =>
      if cpu.mailPending then some (s.call c (.readMessage mailBuffSize))
      else some (s.setPc c .sendAck)
  | .sendAck =>
      if a.sendAck then some (s.call c (.sendAck a.sendAckId)) else some (s.setPc c .loopTop)

/-- Which thread moves next. -/
inductive Turn where
  | main (c : CoreId)
  | irq (c : CoreId)
  | handler (c : CoreId)
deriving DecidableEq, Repr

/-- One access by one thread of one core. -/
def sysStep (s : Sys) : Turn → Option Sys
  | .main c =>
      match (s.mbox.cpu c).irq, (s.mbox.cpu c).main with
      | some _, _ => none
      | none, none => appStep c s
      | none, some p =>
          match callStep c s.mbox p with
          | (t, none) => some { s with mbox := t }
          | (t, some v) => some ⟨t, Function.update s.app c ((s.app c).resume v)⟩
  | .irq c =>
      if (s.mbox.cpu c).irq.isNone && (s.mbox.cpu c).irqEnabled then
        some { s with mbox := s.mbox.gotoIrq c (some .check1) }
      else none
  | .handler c =>
      match (s.mbox.cpu c).irq with
      | some h => some { s with mbox := handlerStep c s.mbox h }
      | none => none

/-- The first values of the variables. -/
def App.start (c : CoreId) (pc : Pc) : App where
  pc := pc
  sendMsg := false
  sendAck := false
  sendMsgId := 0
  sendAckId := 0
  loop := loopInit c

/-- Core 0 is about to initialize its mailbox and core 1 is held in reset. The
    mailboxes hold anything. -/
def Sys.powerOn (box : CoreId → Mailbox) : Sys where
  mbox := { box := box, cpu := fun _ => { Cpu.start with irqEnabled := false } }
  app := fun c => App.start c (match c with | .core0 => .initCtrl0 | .core1 => .held)

/-- Both cores have completed `mbox_init` and nothing has been sent. -/
def Sys.initialized (data : CoreId → Nat → UInt8) : Sys where
  mbox := .start data
  app := fun c => App.start c .firstSend

end Mbox

end Wujian100
