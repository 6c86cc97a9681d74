import Mathlib.Tactic.Ring
import Wujian100.Core.Mbox.Driver

/-!
# The Mailboxes Are Channels

Each mailbox is two one-place channels, one for messages in `CTRL_0` and the
data memory, one for acknowledgements in `CTRL_1`. The word layouts agree: an
acknowledgement is a message of length zero.

The channels are views of the state. Every access of the driver is an access of
each of the four channels, or leaves it as it is; which of the two, and which
access, depends on whether the core that moves is the reading or the writing
end. The sixteen places of the driver and the eight of the handler are gone
through once for each of these ends, and what the invariants of the channels say
is then true of the driver.

## Main definitions

* `wordLayout`: The control word as a layout.
* `messageChan`, `ackChan`: The channels that end at a core.
* `Fits`: No message as long as the data memory is let in.

## Theorems

* `wordId_messageWord`, `wordSize_messageWord`: What a posted word reads as.
* `messageChan_writer`, `messageChan_reader`, `ackChan_writer`,
  `ackChan_reader`: The driver's accesses as channel accesses.
* `messageChan_handler`, `ackChan_handler`: The handler's.
-/

namespace Wujian100

namespace Mbox

open Slot Relation

theorem isFull_eq (w : BitVec 32) : isFull w = w.getLsbD 30 := by
  have hbit : mboxFullBit = BitVec.twoPow 32 30 := by decide
  rw [isFull, hbit, BitVec.and_twoPow]
  cases w.getLsbD 30 <;> decide

theorem isIntr_eq (w : BitVec 32) : isIntr w = w.getLsbD 31 := by
  have hbit : mboxIntrBit = BitVec.twoPow 32 31 := by decide
  rw [isIntr, hbit, BitVec.and_twoPow]
  cases w.getLsbD 31 <;> decide

theorem wordId_eq (w : BitVec 32) : wordId w = w.setWidth 8 := by
  have hones : (0xff : BitVec 32).setWidth 8 = BitVec.allOnes 8 := by decide
  rw [wordId, BitVec.setWidth_and, hones, BitVec.and_allOnes]

theorem wordSize_eq (w : BitVec 32) : wordSize w = w.toNat >>> 8 &&& 0x7fff := by
  have hsplit : (w.toNat &&& 0x7fff00) >>> 8 = w.toNat >>> 8 &&& 0x7fff := by
    rw [Nat.shiftRight_and_distrib]
    rfl
  have hle : w.toNat >>> 8 &&& 0x7fff ≤ 0x7fff := Nat.and_le_right
  have hmask : (0x7fff00 : BitVec 32).toNat = 0x7fff00 := rfl
  rw [wordSize, BitVec.toNat_setWidth, BitVec.toNat_ushiftRight, BitVec.toNat_and, hmask, hsplit]
  exact Nat.mod_eq_of_lt (by omega)

theorem wordId_messageWord (id : BitVec 8) (len : Nat) : wordId (messageWord id len) = id := by
  have hfull : mboxFullBit = BitVec.twoPow 32 30 := by decide
  have hintr : mboxIntrBit = BitVec.twoPow 32 31 := by decide
  rw [wordId_eq, messageWord, hfull, hintr]
  refine BitVec.eq_of_getLsbD_eq (fun i hi => ?_)
  have h30 : ¬ (30 = i) := by omega
  have h31 : ¬ (31 = i) := by omega
  simp [hi, h30, h31]

/-- A length is read back modulo `0x8000`: the mask of `mbox_read_message` has
    fifteen bits. -/
theorem wordSize_messageWord (id : BitVec 8) (len : Nat) (hlen : len < 2 ^ 24) :
    wordSize (messageWord id len) = len % 32768 := by
  have hid : id.toNat >>> 8 = 0 := by
    have := id.isLt
    rw [Nat.shiftRight_eq_div_pow]
    omega
  have hshift : (len <<< 8 % 2 ^ 32) >>> 8 = len := by
    rw [Nat.shiftRight_eq_div_pow, Nat.shiftLeft_eq]
    omega
  have hfull : mboxFullBit.toNat >>> 8 &&& 0x7fff = 0 := by decide
  have hintr : mboxIntrBit.toNat >>> 8 &&& 0x7fff = 0 := by decide
  rw [wordSize_eq, messageWord]
  simp only [BitVec.toNat_or, BitVec.toNat_shiftLeft, BitVec.toNat_ofNat, BitVec.toNat_setWidth]
  rw [Nat.mod_eq_of_lt (show len < 2 ^ 32 by omega),
    Nat.mod_eq_of_lt (show id.toNat < 2 ^ 32 by omega)]
  simp only [Nat.shiftRight_or_distrib, Nat.and_or_distrib_right, hid, hshift, hfull, hintr]
  rw [Nat.zero_and, Nat.zero_or, Nat.or_zero, Nat.or_zero]
  exact Nat.and_two_pow_sub_one_eq_mod len 15

/-- An acknowledgement is a message of length zero. -/
theorem ackWord_eq (id : BitVec 8) : ackWord id = messageWord id 0 := by
  simp [ackWord, messageWord]

/-- The control word of a mailbox. -/
def wordLayout : Layout (BitVec 32) (BitVec 8) where
  full := isFull
  intr := isIntr
  tag := wordId
  size := wordSize
  clearFull := fun w => w &&& ~~~mboxFullBit
  clearIntr := fun w => w &&& ~~~mboxIntrBit
  zero := 0
  post := messageWord
  limit := 32767
  full_zero := rfl
  intr_zero := rfl
  full_post := fun id len => by rw [isFull_eq]; simp [messageWord, mboxFullBit]
  intr_post := fun id len => by rw [isIntr_eq]; simp [messageWord, mboxIntrBit]
  tag_post := wordId_messageWord
  size_post := fun id len hlen => by rw [wordSize_messageWord id len (by omega)]; omega
  full_clearIntr := fun w => by simp [isFull_eq, mboxIntrBit]
  intr_clearIntr := fun w => by simp [isIntr_eq, mboxIntrBit]
  tag_clearIntr := fun w => by rw [wordId, BitVec.and_assoc]; rfl
  size_clearIntr := fun w => by rw [wordSize, BitVec.and_assoc]; rfl
  full_clearFull := fun w => by simp [isFull_eq, mboxFullBit]
  intr_clearFull := fun w => by simp [isIntr_eq, mboxFullBit]

/-- Where the sender of a message is. -/
def writerOf : Option Call → Slot.Writer (BitVec 8) UInt8
  | some (.sendMessageCopy id buff k) => .copying id buff k
  | some (.sendMessageCtrl id buff) => .posting id buff
  | _ => .away

/-- Where the receiver of a message is. -/
def readerOf : Option Call → Reader (BitVec 32) (BitVec 8) UInt8
  | some (.readMessageSize buffSize) => .sizing buffSize
  | some (.readMessageId size) => .tagging size
  | some (.readMessageCopy id size buff) => .copying id size buff
  | some (.readMessagePending m) => .lowering m
  | some (.readMessageLoad m) => .loading m
  | some (.readMessageStore m w) => .storing m w
  | _ => .away

/-- Where the handler is with `CTRL_0`. -/
def irqOf : Option Handler → Irq (BitVec 32)
  | some .load0 => .loading
  | some (.store0 w) => .storing w
  | some .pending => .raising
  | _ => .away

/-- The messages to core `r`. -/
def messageChan (r : CoreId) (s : State) : Chan (BitVec 32) (BitVec 8) UInt8 where
  word := (s.box r).ctrl0
  ram := (s.box r).data
  flag := (s.cpu r).mailPending
  writer := writerOf (s.cpu r.other).main
  reader := readerOf (s.cpu r).main
  irq := irqOf (s.cpu r).irq
  sent := (s.cpu r.other).sentMsg
  read := (s.cpu r).readMsg

/-- An acknowledgement as a message. -/
def ackMsg (id : BitVec 8) : Message := ⟨id, 0, []⟩

theorem ackMsg_injective : Function.Injective ackMsg := by
  intro a b h
  exact congrArg Msg.tag h

/-- Where the sender of an acknowledgement is. -/
def ackWriterOf : Option Call → Slot.Writer (BitVec 8) UInt8
  | some (.sendAckCtrl id) => .posting id []
  | _ => .away

/-- Where the receiver of an acknowledgement is. -/
def ackReaderOf : Option Call → Reader (BitVec 32) (BitVec 8) UInt8
  | some .readAckId => .sizing 0
  | some (.readAckAcked id) => .lowering (ackMsg id)
  | some (.readAckLoad id) => .loading (ackMsg id)
  | some (.readAckStore id w) => .storing (ackMsg id) w
  | _ => .away

/-- Where the handler is with `CTRL_1`. -/
def ackIrqOf : Option Handler → Irq (BitVec 32)
  | some .load1 => .loading
  | some (.store1 w) => .storing w
  | some .acked => .raising
  | _ => .away

/-- The acknowledgements to core `r`. They use no data memory. -/
def ackChan (r : CoreId) (s : State) : Chan (BitVec 32) (BitVec 8) UInt8 where
  word := (s.box r).ctrl1
  ram := fun _ => 0
  flag := (s.cpu r).mailAcked
  writer := ackWriterOf (s.cpu r.other).main
  reader := ackReaderOf (s.cpu r).main
  irq := ackIrqOf (s.cpu r).irq
  sent := (s.cpu r.other).sentAck.map ackMsg
  read := (s.cpu r).readAck.map ackMsg

@[simp] theorem CoreId.other_other (c : CoreId) : c.other.other = c := by
  cases c <;> rfl

@[simp] theorem CoreId.other_ne (c : CoreId) : c.other ≠ c := by
  cases c <;> nofun

@[simp] theorem CoreId.ne_other (c : CoreId) : c ≠ c.other := by
  cases c <;> nofun

/-- The driver function a place belongs to. -/
inductive Fn where
  | sendMessage
  | readMessage
  | sendAck
  | readAck
deriving DecidableEq

def Call.fn : Call → Fn
  | .sendMessageCheck _ _ => .sendMessage
  | .sendMessageCopy _ _ _ => .sendMessage
  | .sendMessageCtrl _ _ => .sendMessage
  | .readMessageSize _ => .readMessage
  | .readMessageId _ => .readMessage
  | .readMessageCopy _ _ _ => .readMessage
  | .readMessagePending _ => .readMessage
  | .readMessageLoad _ => .readMessage
  | .readMessageStore _ _ => .readMessage
  | .sendAckCheck _ => .sendAck
  | .sendAckCtrl _ => .sendAck
  | .readAckId => .readAck
  | .readAckAcked _ => .readAck
  | .readAckLoad _ => .readAck
  | .readAckStore _ _ => .readAck

/-- A message as long as the data memory. -/
def Call.fills : Call → Bool
  | .sendMessageCheck _ buff => buff.length == mboxRamSize
  | _ => false

/-- If core `c` is about to send a message as long as the data memory, it will
    be turned away. -/
def Fits (c : CoreId) (s : State) : Prop :=
  (s.cpu c).main.any Call.fills = true → isFull (s.box c.other).ctrl0 = true

instance (c : CoreId) (s : State) : Decidable (Fits c s) :=
  inferInstanceAs (Decidable (_ → _))

section Views

variable {s : State} {c : CoreId}

@[simp] theorem setBox_cpu (b : Mailbox) : (s.setBox c b).cpu = s.cpu := rfl
@[simp] theorem setCpu_box (p : Cpu) : (s.setCpu c p).box = s.box := rfl
@[simp] theorem setBox_self (b : Mailbox) : (s.setBox c b).box c = b := by simp [State.setBox]
@[simp] theorem setCpu_self (p : Cpu) : (s.setCpu c p).cpu c = p := by simp [State.setCpu]
@[simp] theorem setBox_other (b : Mailbox) : (s.setBox c b).box c.other = s.box c.other := by
  simp [State.setBox]
@[simp] theorem setCpu_other (p : Cpu) : (s.setCpu c p).cpu c.other = s.cpu c.other := by
  simp [State.setCpu]
@[simp] theorem setBox_of_other (b : Mailbox) : (s.setBox c.other b).box c = s.box c := by
  simp [State.setBox]

/-- A channel that an access leaves as it is. -/
theorem steps_of_eq {W T B : Type} {R : Chan W T B → Chan W T B → Prop} {v v' : Chan W T B}
    (h : v' = v) : ReflTransGen R v v' := by
  rw [h]

/-- Only `mbox_send_message` moves the writing end of the messages. -/
theorem messageChan_writer_frame (p : Call) (hmain : (s.cpu c).main = some p)
    (hfn : p.fn ≠ .sendMessage) :
    messageChan c.other (callStep c s p).1 = messageChan c.other s := by
  cases p <;> simp only [callStep] <;> (try split_ifs) <;>
    first
    | exact absurd rfl hfn
    | simp [messageChan, hmain, State.goto, State.leave, writerOf]

/-- Only `mbox_read_message` moves the reading end of the messages. -/
theorem messageChan_reader_frame (p : Call) (hmain : (s.cpu c).main = some p)
    (hfn : p.fn ≠ .readMessage) : messageChan c (callStep c s p).1 = messageChan c s := by
  cases p <;> simp only [callStep] <;> (try split_ifs) <;> (try split) <;>
    first
    | exact absurd rfl hfn
    | simp [messageChan, hmain, State.goto, State.leave, readerOf]

/-- Only `mbox_send_ack` moves the writing end of the acknowledgements. -/
theorem ackChan_writer_frame (p : Call) (hmain : (s.cpu c).main = some p)
    (hfn : p.fn ≠ .sendAck) : ackChan c.other (callStep c s p).1 = ackChan c.other s := by
  cases p <;> simp only [callStep] <;> (try split_ifs) <;> (try split) <;>
    first
    | exact absurd rfl hfn
    | simp [ackChan, hmain, State.goto, State.leave, ackWriterOf]

/-- Only `mbox_read_ack` moves the reading end of the acknowledgements. -/
theorem ackChan_reader_frame (p : Call) (hmain : (s.cpu c).main = some p)
    (hfn : p.fn ≠ .readAck) : ackChan c (callStep c s p).1 = ackChan c s := by
  cases p <;> simp only [callStep] <;> (try split_ifs) <;> (try split) <;>
    first
    | exact absurd rfl hfn
    | simp [ackChan, hmain, State.goto, State.leave, ackReaderOf]

/-- The writing end of the messages, up to the control word. -/
theorem messageChan_writer (p : Call) (hmain : (s.cpu c).main = some p) (hfits : Fits c s)
    (hctrl : ∀ id buff, p ≠ .sendMessageCtrl id buff) :
    ReflTransGen (Prepare wordLayout) (messageChan c.other s)
      (messageChan c.other (callStep c s p).1) := by
  by_cases hfn : p.fn = .sendMessage
  · cases p with
    | sendMessageCheck id buff =>
        simp only [callStep]
        split_ifs with hfull hlen
        · exact steps_of_eq (by simp [messageChan, hmain, State.leave, writerOf])
        · exact steps_of_eq (by simp [messageChan, hmain, State.leave, writerOf])
        · -- The length is at most the size of the memory, and not equal to it.
          have hlimit : buff.length ≤ wordLayout.limit := by
            have hne : buff.length ≠ 32 * 1024 := by
              intro heq
              refine hfull (hfits ?_)
              simp [hmain, Call.fills, heq, mboxRamSize]
            have hle : ¬ buff.length > 32 * 1024 := hlen
            simp only [wordLayout]
            omega
          have hstep := Prepare.check (L := wordLayout) (messageChan c.other s) id buff
            (by simp [messageChan, hmain, writerOf]) (Bool.not_eq_true _ ▸ hfull) hlimit
          refine .single ?_
          convert hstep using 1
          simp [messageChan, State.goto, writerOf]
    | sendMessageCopy id buff k =>
        simp only [callStep]
        cases hb : buff[k]? with
        | some b =>
            have hstep := Prepare.copy (L := wordLayout) (messageChan c.other s) id buff k b
              (by simp [messageChan, hmain, writerOf]) hb
            refine .single ?_
            convert hstep using 1
            simp [messageChan, State.goto, writerOf]
        | none =>
            have hstep := Prepare.copied (L := wordLayout) (messageChan c.other s) id buff k
              (by simp [messageChan, hmain, writerOf]) (List.getElem?_eq_none_iff.mp hb)
            refine .single ?_
            convert hstep using 1
            simp [messageChan, State.goto, writerOf]
    | sendMessageCtrl id buff => exact absurd rfl (hctrl id buff)
    | _ => cases hfn
  · exact steps_of_eq (messageChan_writer_frame p hmain hfn)

/-- The control word of `mbox_send_message`. -/
theorem messageChan_post (id : BitVec 8) (buff : List UInt8)
    (hmain : (s.cpu c).main = some (.sendMessageCtrl id buff)) :
    Slot.Step wordLayout (messageChan c.other s)
      (messageChan c.other (callStep c s (.sendMessageCtrl id buff)).1) := by
  have hstep := Slot.Step.post (L := wordLayout) (messageChan c.other s) id buff
    (by simp [messageChan, hmain, writerOf])
  convert hstep using 1
  simp [callStep, messageChan, writerOf, wordLayout]

/-- The reading end of the messages. -/
theorem messageChan_reader (p : Call) (hmain : (s.cpu c).main = some p) :
    ReflTransGen (Slot.Step wordLayout) (messageChan c s)
      (messageChan c (callStep c s p).1) := by
  have hreader : (messageChan c s).reader = readerOf (some p) := by simp [messageChan, hmain]
  by_cases hfn : p.fn = .readMessage
  · cases p with
    | readMessageSize buffSize =>
        simp only [callStep]
        split_ifs
        · refine .single ?_
          convert Slot.Step.refuse (L := wordLayout) _ buffSize hreader using 1
          simp [messageChan, State.leave, readerOf]
        · refine .single ?_
          convert Slot.Step.size (L := wordLayout) _ buffSize hreader using 1
          simp [messageChan, State.goto, readerOf, wordLayout]
    | readMessageId size =>
        refine .single ?_
        convert Slot.Step.tag (L := wordLayout) _ size hreader using 1
        simp [callStep, messageChan, State.goto, readerOf, wordLayout]
    | readMessageCopy id size buff =>
        simp only [callStep]
        split_ifs with hlt
        · refine .single ?_
          convert Slot.Step.byte (L := wordLayout) _ id size buff hreader hlt using 1
          simp [messageChan, State.goto, readerOf]
        · refine .single ?_
          convert Slot.Step.whole (L := wordLayout) _ id size buff hreader (Nat.not_lt.mp hlt)
            using 1
          simp [messageChan, State.goto, readerOf]
    | readMessagePending m =>
        refine .single ?_
        convert Slot.Step.lower (L := wordLayout) _ m hreader using 1
        simp [callStep, messageChan, readerOf]
    | readMessageLoad m =>
        refine .single ?_
        convert Slot.Step.load (L := wordLayout) _ m hreader using 1
        simp [callStep, messageChan, State.goto, readerOf]
    | readMessageStore m w =>
        refine .single ?_
        convert Slot.Step.store (L := wordLayout) _ m w hreader using 1
        simp [callStep, messageChan, readerOf, wordLayout]
    | _ => cases hfn
  · exact steps_of_eq (messageChan_reader_frame p hmain hfn)

/-- The writing end of the acknowledgements, up to the control word. -/
theorem ackChan_writer (p : Call) (hmain : (s.cpu c).main = some p)
    (hctrl : ∀ id, p ≠ .sendAckCtrl id) :
    ReflTransGen (Prepare wordLayout) (ackChan c.other s) (ackChan c.other (callStep c s p).1) := by
  by_cases hfn : p.fn = .sendAck
  · cases p with
    | sendAckCheck id =>
        simp only [callStep]
        split_ifs with hfull
        · exact steps_of_eq (by simp [ackChan, hmain, State.leave, ackWriterOf])
        · -- There is nothing to copy, so the check goes straight to the post.
          have hcheck := Prepare.check (L := wordLayout) (ackChan c.other s) id []
            (by simp [ackChan, hmain, ackWriterOf]) (Bool.not_eq_true _ ▸ hfull)
            (Nat.zero_le _)
          have hcopied := Prepare.copied (L := wordLayout)
            { ackChan c.other s with writer := .copying id [] 0 } id [] 0 rfl (Nat.le_refl _)
          refine (ReflTransGen.single hcheck).tail ?_
          convert hcopied using 1
          simp [ackChan, State.goto, ackWriterOf]
    | sendAckCtrl id => exact absurd rfl (hctrl id)
    | _ => cases hfn
  · exact steps_of_eq (ackChan_writer_frame p hmain hfn)

/-- The control word of `mbox_send_ack`. -/
theorem ackChan_post (id : BitVec 8) (hmain : (s.cpu c).main = some (.sendAckCtrl id)) :
    Slot.Step wordLayout (ackChan c.other s)
      (ackChan c.other (callStep c s (.sendAckCtrl id)).1) := by
  have hstep := Slot.Step.post (L := wordLayout) (ackChan c.other s) id []
    (by simp [ackChan, hmain, ackWriterOf])
  convert hstep using 1
  simp [callStep, ackChan, ackWriterOf, wordLayout, ackMsg, ackWord_eq]

/-- The reading end of the acknowledgements. `mbox_read_ack` reads no length,
    which is as good as reading zero. -/
theorem ackChan_reader (p : Call) (hmain : (s.cpu c).main = some p)
    (hinv : Inv wordLayout (ackChan c s)) :
    ReflTransGen (Slot.Step wordLayout) (ackChan c s) (ackChan c (callStep c s p).1) := by
  have hreader : (ackChan c s).reader = ackReaderOf (some p) := by simp [ackChan, hmain]
  by_cases hfn : p.fn = .readAck
  · cases p with
    | readAckId =>
        rcases full_of_reader hinv (by rw [hreader]; nofun) with ⟨m, hfull⟩
        have hsize : wordLayout.size (ackChan c s).word = 0 := by
          have hmem : m ∈ (s.cpu c.other).sentAck.map ackMsg := by
            have hsent : (s.cpu c.other).sentAck.map ackMsg = _ ++ [m] := hfull.sent
            rw [hsent]
            exact List.mem_append_right _ (List.mem_singleton_self m)
          rcases List.mem_map.mp hmem with ⟨id, _, rfl⟩
          exact hfull.size
        have hstep1 := Slot.Step.size (L := wordLayout) _ 0 hreader
        rw [hsize] at hstep1
        have hstep2 := Slot.Step.tag (L := wordLayout)
          { ackChan c s with reader := .tagging 0 } 0 rfl
        have hstep3 := Slot.Step.whole (L := wordLayout)
          { ackChan c s with
            reader := .copying (wordLayout.tag (ackChan c s).word) 0 [] } _ 0 [] rfl (Nat.le_refl _)
        refine ((ReflTransGen.single hstep1).tail hstep2).tail ?_
        convert hstep3 using 1
        simp [callStep, ackChan, State.goto, ackReaderOf, wordLayout, ackMsg]
    | readAckAcked id =>
        refine .single ?_
        convert Slot.Step.lower (L := wordLayout) _ (ackMsg id) hreader using 1
        simp [callStep, ackChan, ackReaderOf]
    | readAckLoad id =>
        refine .single ?_
        convert Slot.Step.load (L := wordLayout) _ (ackMsg id) hreader using 1
        simp [callStep, ackChan, State.goto, ackReaderOf]
    | readAckStore id w =>
        refine .single ?_
        convert Slot.Step.store (L := wordLayout) _ (ackMsg id) w hreader using 1
        simp [callStep, ackChan, ackReaderOf, wordLayout]
    | _ => cases hfn
  · exact steps_of_eq (ackChan_reader_frame p hmain hfn)

/-- The handler at the messages of its own core. -/
theorem messageChan_handler (h : Handler) (hirq : (s.cpu c).irq = some h) :
    ReflTransGen (Slot.Step wordLayout) (messageChan c s) (messageChan c (handlerStep c s h)) := by
  have hwhere : (messageChan c s).irq = irqOf (some h) := by simp [messageChan, hirq]
  cases h with
  | check0 =>
      simp only [handlerStep]
      split_ifs with hintr
      · refine .single ?_
        convert Slot.Step.irqSee (L := wordLayout) _ hwhere hintr using 1
        simp [messageChan, State.gotoIrq, irqOf]
      · exact steps_of_eq (by simp [messageChan, hirq, State.gotoIrq, irqOf])
  | load0 =>
      refine .single ?_
      convert Slot.Step.irqLoad (L := wordLayout) _ hwhere using 1
      simp [handlerStep, messageChan, State.gotoIrq, irqOf]
  | store0 w =>
      refine .single ?_
      convert Slot.Step.irqStore (L := wordLayout) _ w hwhere using 1
      simp [handlerStep, messageChan, State.gotoIrq, irqOf, wordLayout]
  | pending =>
      refine .single ?_
      convert Slot.Step.irqRaise (L := wordLayout) _ hwhere using 1
      simp [handlerStep, messageChan, irqOf]
  | check1 =>
      simp only [handlerStep]
      split_ifs
      · exact steps_of_eq (by simp [messageChan, hirq, State.gotoIrq, irqOf])
      · exact steps_of_eq (by simp [messageChan, hirq, State.gotoIrq, irqOf])
  | load1 => exact steps_of_eq (by simp [handlerStep, messageChan, hirq, State.gotoIrq, irqOf])
  | store1 w => exact steps_of_eq (by simp [handlerStep, messageChan, hirq, State.gotoIrq, irqOf])
  | acked => exact steps_of_eq (by simp [handlerStep, messageChan, hirq, irqOf])

/-- The handler at the acknowledgements of its own core. -/
theorem ackChan_handler (h : Handler) (hirq : (s.cpu c).irq = some h) :
    ReflTransGen (Slot.Step wordLayout) (ackChan c s) (ackChan c (handlerStep c s h)) := by
  have hwhere : (ackChan c s).irq = ackIrqOf (some h) := by simp [ackChan, hirq]
  cases h with
  | check1 =>
      simp only [handlerStep]
      split_ifs with hintr
      · refine .single ?_
        convert Slot.Step.irqSee (L := wordLayout) _ hwhere hintr using 1
        simp [ackChan, State.gotoIrq, ackIrqOf]
      · exact steps_of_eq (by simp [ackChan, hirq, State.gotoIrq, ackIrqOf])
  | load1 =>
      refine .single ?_
      convert Slot.Step.irqLoad (L := wordLayout) _ hwhere using 1
      simp [handlerStep, ackChan, State.gotoIrq, ackIrqOf]
  | store1 w =>
      refine .single ?_
      convert Slot.Step.irqStore (L := wordLayout) _ w hwhere using 1
      simp [handlerStep, ackChan, State.gotoIrq, ackIrqOf, wordLayout]
  | acked =>
      refine .single ?_
      convert Slot.Step.irqRaise (L := wordLayout) _ hwhere using 1
      simp [handlerStep, ackChan, ackIrqOf]
  | check0 =>
      simp only [handlerStep]
      split_ifs
      · exact steps_of_eq (by simp [ackChan, hirq, State.gotoIrq, ackIrqOf])
      · exact steps_of_eq (by simp [ackChan, hirq, State.gotoIrq, ackIrqOf])
  | load0 => exact steps_of_eq (by simp [handlerStep, ackChan, hirq, State.gotoIrq, ackIrqOf])
  | store0 w => exact steps_of_eq (by simp [handlerStep, ackChan, hirq, State.gotoIrq, ackIrqOf])
  | pending => exact steps_of_eq (by simp [handlerStep, ackChan, hirq, ackIrqOf])

/-- The handler does not touch what its core writes to. -/
theorem messageChan_handler_other (h : Handler) :
    messageChan c.other (handlerStep c s h) = messageChan c.other s := by
  cases h <;> simp only [handlerStep] <;> (try split_ifs) <;> simp [messageChan, State.gotoIrq]

theorem ackChan_handler_other (h : Handler) :
    ackChan c.other (handlerStep c s h) = ackChan c.other s := by
  cases h <;> simp only [handlerStep] <;> (try split_ifs) <;> simp [ackChan, State.gotoIrq]

end Views

end Mbox

end Wujian100
