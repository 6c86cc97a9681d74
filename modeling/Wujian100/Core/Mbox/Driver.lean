import Wujian100.Library.Slot

/-!
# The Mailbox Driver

The two mailboxes and the driver each core runs on them, one register or memory
access a step. A core's own mailbox is its `MBOX_L_*` registers and the other
core's `MBOX_R_*` registers.

A `Call` is a place inside one of the four driver functions and a `Handler` a
place inside `mbox_irq_handler`; both carry the values the compiled code holds
in registers there. The handler interrupts the main line of its own core and
of no other: while it runs, `main` stands still.

`memcpy` moves one byte a step. A wider access is several of these steps with
nothing in between.

The lists of messages and acknowledgements are a record of what the driver did:
`sentMsg` grows with the control word that makes `mbox_send_message` succeed,
`readMsg` with the store that ends a successful `mbox_read_message`.

## Main definitions

* `mboxIntrBit`, `mboxFullBit`, `messageWord`, `ackWord`: The control words.
* `Mailbox`, `Cpu`, `State`: The two mailboxes and the two cores.
* `Call`, `callStep`: The driver functions.
* `Handler`, `handlerStep`: The interrupt handler.
* `Op`, `Label`, `step`: Two cores that call the driver as they like.
-/

namespace Wujian100

namespace Mbox

open Slot

inductive CoreId where
  | core0
  | core1
deriving DecidableEq, Repr

def CoreId.other : CoreId → CoreId
  | .core0 => .core1
  | .core1 => .core0

/-- `MBOX_RAM_SIZE`. -/
def mboxRamSize : Nat := 32 * 1024

/-- `MBOX_INTR_BIT`. -/
def mboxIntrBit : BitVec 32 := 0x80000000

/-- `MBOX_FULL_BIT`. -/
def mboxFullBit : BitVec 32 := 0x40000000

/-- `reg & MBOX_FULL_BIT`, as a condition. -/
def isFull (w : BitVec 32) : Bool := w &&& mboxFullBit != 0

/-- `reg & MBOX_INTR_BIT`, as a condition. -/
def isIntr (w : BitVec 32) : Bool := w &&& mboxIntrBit != 0

/-- `reg & 0xff`, in a `uint8_t`. -/
def wordId (w : BitVec 32) : BitVec 8 := (w &&& 0xff).setWidth 8

/-- `(reg & 0x7fff00) >> 8`, in a `uint16_t`. -/
def wordSize (w : BitVec 32) : Nat := (((w &&& 0x7fff00) >>> 8).setWidth 16).toNat

/-- `id | (len << 8) | MBOX_FULL_BIT | MBOX_INTR_BIT`. -/
def messageWord (id : BitVec 8) (len : Nat) : BitVec 32 :=
  id.setWidth 32 ||| (BitVec.ofNat 32 len <<< 8) ||| mboxFullBit ||| mboxIntrBit

/-- `id | MBOX_FULL_BIT | MBOX_INTR_BIT`. -/
def ackWord (id : BitVec 8) : BitVec 32 := id.setWidth 32 ||| mboxFullBit ||| mboxIntrBit

/-- One mailbox: `CTRL_0` for messages, `CTRL_1` for acknowledgements, and the
    data memory. -/
structure Mailbox where
  ctrl0 : BitVec 32
  ctrl1 : BitVec 32
  data : Nat → UInt8

abbrev Message := Msg (BitVec 8) UInt8

/-- A place inside a driver function. -/
inductive Call where
  | sendMessageCheck (id : BitVec 8) (buff : List UInt8)
  | sendMessageCopy (id : BitVec 8) (buff : List UInt8) (k : Nat)
  | sendMessageCtrl (id : BitVec 8) (buff : List UInt8)
  | readMessageSize (buffSize : Nat)
  | readMessageId (size : Nat)
  | readMessageCopy (id : BitVec 8) (size : Nat) (buff : List UInt8)
  | readMessagePending (m : Message)
  | readMessageLoad (m : Message)
  | readMessageStore (m : Message) (w : BitVec 32)
  | sendAckCheck (id : BitVec 8)
  | sendAckCtrl (id : BitVec 8)
  | readAckId
  | readAckAcked (id : BitVec 8)
  | readAckLoad (id : BitVec 8)
  | readAckStore (id : BitVec 8) (w : BitVec 32)

/-- A place inside `mbox_irq_handler`. -/
inductive Handler where
  | check1
  | load1
  | store1 (w : BitVec 32)
  | acked
  | check0
  | load0
  | store0 (w : BitVec 32)
  | pending

/-- What a driver function returns: a status, or the message or the
    acknowledgement it has read. -/
inductive Ret where
  | status (value : Int)
  | message (m : Message)
  | ack (id : BitVec 8)

/-- One core: the flags of the driver, the interrupt enable, where the handler
    and the main line are, and the record. -/
structure Cpu where
  mailAcked : Bool
  mailPending : Bool
  irqEnabled : Bool
  irq : Option Handler
  main : Option Call
  sentMsg : List Message
  readMsg : List Message
  sentAck : List (BitVec 8)
  readAck : List (BitVec 8)

structure State where
  box : CoreId → Mailbox
  cpu : CoreId → Cpu

def State.setBox (s : State) (c : CoreId) (b : Mailbox) : State :=
  { s with box := Function.update s.box c b }

def State.setCpu (s : State) (c : CoreId) (p : Cpu) : State :=
  { s with cpu := Function.update s.cpu c p }

/-- The main line of `c` goes on inside the driver. -/
def State.goto (s : State) (c : CoreId) (p : Call) : State :=
  s.setCpu c { s.cpu c with main := some p }

/-- The main line of `c` leaves the driver. -/
def State.leave (s : State) (c : CoreId) : State := s.setCpu c { s.cpu c with main := none }

/-- The handler of `c` goes on to `h`, or returns. -/
def State.gotoIrq (s : State) (c : CoreId) (h : Option Handler) : State :=
  s.setCpu c { s.cpu c with irq := h }

/-- One access of the main line of `c`, with what the function returns if it
    ends there. -/
def callStep (c : CoreId) (s : State) : Call → State × Option Ret
  | .sendMessageCheck id buff =>
      if isFull (s.box c.other).ctrl0 then (s.leave c, some (.status (-1)))
      else if buff.length > mboxRamSize then (s.leave c, some (.status (-2)))
      else (s.goto c (.sendMessageCopy id buff 0), none)
  | .sendMessageCopy id buff k =>
      match buff[k]? with
      | some b =>
          let box := s.box c.other
          ((s.setBox c.other { box with data := fun a => if a = k then b else box.data a }).goto c
            (.sendMessageCopy id buff (k + 1)), none)
      | none => (s.goto c (.sendMessageCtrl id buff), none)
  | .sendMessageCtrl id buff =>
      let cpu := s.cpu c
      ((s.setBox c.other { s.box c.other with ctrl0 := messageWord id buff.length }).setCpu c
          { cpu with main := none, sentMsg := cpu.sentMsg ++ [⟨id, buff.length, buff⟩] },
        some (.status buff.length))
  | .readMessageSize buffSize =>
      let size := wordSize (s.box c).ctrl0
      if size > buffSize then (s.leave c, some (.status (-1)))
      else (s.goto c (.readMessageId size), none)
  | .readMessageId size => (s.goto c (.readMessageCopy (wordId (s.box c).ctrl0) size []), none)
  | .readMessageCopy id size buff =>
      if buff.length < size then
        (s.goto c (.readMessageCopy id size (buff ++ [(s.box c).data buff.length])), none)
      else (s.goto c (.readMessagePending ⟨id, size, buff⟩), none)
  | .readMessagePending m =>
      (s.setCpu c { s.cpu c with mailPending := false, main := some (.readMessageLoad m) }, none)
  | .readMessageLoad m => (s.goto c (.readMessageStore m (s.box c).ctrl0), none)
  | .readMessageStore m w =>
      let cpu := s.cpu c
      ((s.setBox c { s.box c with ctrl0 := w &&& ~~~mboxFullBit }).setCpu c
          { cpu with main := none, readMsg := cpu.readMsg ++ [m] },
        some (.message m))
  | .sendAckCheck id =>
      if isFull (s.box c.other).ctrl1 then (s.leave c, some (.status (-1)))
      else (s.goto c (.sendAckCtrl id), none)
  | .sendAckCtrl id =>
      let cpu := s.cpu c
      ((s.setBox c.other { s.box c.other with ctrl1 := ackWord id }).setCpu c
          { cpu with main := none, sentAck := cpu.sentAck ++ [id] },
        some (.status 0))
  | .readAckId => (s.goto c (.readAckAcked (wordId (s.box c).ctrl1)), none)
  | .readAckAcked id =>
      (s.setCpu c { s.cpu c with mailAcked := false, main := some (.readAckLoad id) }, none)
  | .readAckLoad id => (s.goto c (.readAckStore id (s.box c).ctrl1), none)
  | .readAckStore id w =>
      let cpu := s.cpu c
      ((s.setBox c { s.box c with ctrl1 := w &&& ~~~mboxFullBit }).setCpu c
          { cpu with main := none, readAck := cpu.readAck ++ [id] },
        some (.ack id))

/-- One access of the handler of `c`. -/
def handlerStep (c : CoreId) (s : State) : Handler → State
  | .check1 =>
      if isIntr (s.box c).ctrl1 then s.gotoIrq c (some .load1) else s.gotoIrq c (some .check0)
  | .load1 => s.gotoIrq c (some (.store1 (s.box c).ctrl1))
  | .store1 w =>
      (s.setBox c { s.box c with ctrl1 := w &&& ~~~mboxIntrBit }).gotoIrq c (some .acked)
  | .acked => s.setCpu c { s.cpu c with mailAcked := true, irq := some .check0 }
  | .check0 =>
      if isIntr (s.box c).ctrl0 then s.gotoIrq c (some .load0) else s.gotoIrq c none
  | .load0 => s.gotoIrq c (some (.store0 (s.box c).ctrl0))
  | .store0 w =>
      (s.setBox c { s.box c with ctrl0 := w &&& ~~~mboxIntrBit }).gotoIrq c (some .pending)
  | .pending => s.setCpu c { s.cpu c with mailPending := true, irq := none }

/-- A call of the driver. -/
inductive Op where
  | sendMessage (id : BitVec 8) (buff : List UInt8)
  | readMessage (buffSize : Nat)
  | sendAck (id : BitVec 8)
  | readAck

/-- The first place of a call. -/
def Op.entry : Op → Call
  | .sendMessage id buff => .sendMessageCheck id buff
  | .readMessage buffSize => .readMessageSize buffSize
  | .sendAck id => .sendAckCheck id
  | .readAck => .readAckId

/-- The two reading functions are called behind `mbox_check_pending` and
    `mbox_check_acked`. -/
def Op.allowed (p : Cpu) : Op → Bool
  | .readMessage _ => p.mailPending
  | .readAck => p.mailAcked
  | _ => true

/-- Which thread moves next, and what a main line outside the driver calls. -/
inductive Label where
  | call (c : CoreId) (op : Op)
  | main (c : CoreId)
  | irq (c : CoreId)
  | handler (c : CoreId)

/-- One access by one thread of one core, the main lines calling the driver as
    they like. -/
def step (s : State) : Label → Option State
  | .call c op =>
      if (s.cpu c).irq.isNone && (s.cpu c).main.isNone && op.allowed (s.cpu c) then
        some (s.goto c op.entry)
      else none
  | .main c =>
      match (s.cpu c).irq, (s.cpu c).main with
      | none, some p => some (callStep c s p).1
      | _, _ => none
  | .irq c =>
      if (s.cpu c).irq.isNone && (s.cpu c).irqEnabled then some (s.gotoIrq c (some .check1))
      else none
  | .handler c =>
      match (s.cpu c).irq with
      | some h => some (handlerStep c s h)
      | none => none

/-- A core that has just come out of `mbox_init`. -/
def Cpu.start : Cpu where
  mailAcked := false
  mailPending := false
  irqEnabled := true
  irq := none
  main := none
  sentMsg := []
  readMsg := []
  sentAck := []
  readAck := []

/-- Both cores have completed `mbox_init`. The data memory holds anything. -/
def State.start (data : CoreId → Nat → UInt8) : State where
  box := fun c => { ctrl0 := 0, ctrl1 := 0, data := data c }
  cpu := fun _ => .start

end Mbox

end Wujian100
