import Wujian100.Library.Run
import Wujian100.Theory.Mbox.Channel

/-!
# Messages Arrive, but for One Length

Two cores call the driver in any order and their handlers run at any time. Each
of the four channels keeps its invariant, so what a core has read is what the
other has sent, but for at most one message that is still in its mailbox.

One message has to be left out. `mbox_send_message` accepts `MBOX_RAM_SIZE`
bytes, and the mask of `mbox_read_message` has room for lengths below it only:
a full mailbox is read as an empty message. `full_message_torn` is such a run.

## Main definitions

* `Wired`: The four channels keep their invariants.
* `FitsLabel`: A step does not let a message of full length in.
* `fullBuff`, `fullSend`, `fullRead`: A message of full length, and its journey.

## Theorems

* `wired_call`, `wired_main`, `wired_irq`, `wired_handler`: What each thread
  keeps.
* `step_wired`: What a step keeps.
* `messages_delivered`: What has been read is what has been sent, but for one.
* `full_message_torn`: A message of full length is read as an empty one.
-/

namespace Wujian100

namespace Mbox

open Slot Relation Run

/-- All four channels keep their invariants. -/
structure Wired (s : State) : Prop where
  message : ∀ r, Inv wordLayout (messageChan r s)
  ack : ∀ r, Inv wordLayout (ackChan r s)

/-- There are two cores. -/
theorem eq_or_other (c r : CoreId) : r = c ∨ r = c.other := by
  cases c <;> cases r
  · exact Or.inl rfl
  · exact Or.inr rfl
  · exact Or.inr rfl
  · exact Or.inl rfl

theorem forall_core {P : CoreId → Prop} (c : CoreId) (hself : P c) (hother : P c.other) :
    ∀ r, P r := by
  intro r
  rcases eq_or_other c r with rfl | rfl
  · exact hself
  · exact hother

section Threads

variable {s : State} {c : CoreId}

/-- Entering the driver is the start of a read or nothing. -/
theorem messageChan_entry (op : Op) (hmain : (s.cpu c).main = none)
    (hop : op.allowed (s.cpu c) = true) :
    ReflTransGen (Slot.Step wordLayout) (messageChan c s) (messageChan c (s.goto c op.entry)) := by
  cases op with
  | readMessage buffSize =>
      refine .single ?_
      convert Slot.Step.start (L := wordLayout) (messageChan c s) buffSize
        (by simp [messageChan, hmain, readerOf]) hop using 1
      simp [messageChan, State.goto, Op.entry, readerOf]
  | _ => exact steps_of_eq (by simp [messageChan, hmain, State.goto, Op.entry, readerOf])

theorem ackChan_entry (op : Op) (hmain : (s.cpu c).main = none)
    (hop : op.allowed (s.cpu c) = true) :
    ReflTransGen (Slot.Step wordLayout) (ackChan c s) (ackChan c (s.goto c op.entry)) := by
  cases op with
  | readAck =>
      refine .single ?_
      convert Slot.Step.start (L := wordLayout) (ackChan c s) 0
        (by simp [ackChan, hmain, ackReaderOf]) hop using 1
      simp [ackChan, State.goto, Op.entry, ackReaderOf]
  | _ => exact steps_of_eq (by simp [ackChan, hmain, State.goto, Op.entry, ackReaderOf])

theorem messageChan_entry_other (op : Op) (hmain : (s.cpu c).main = none) :
    messageChan c.other (s.goto c op.entry) = messageChan c.other s := by
  cases op <;> simp [messageChan, hmain, State.goto, Op.entry, writerOf]

theorem ackChan_entry_other (op : Op) (hmain : (s.cpu c).main = none) :
    ackChan c.other (s.goto c op.entry) = ackChan c.other s := by
  cases op <;> simp [ackChan, hmain, State.goto, Op.entry, ackWriterOf]

/-- A core enters the driver. -/
theorem wired_call (h : Wired s) (op : Op) (hmain : (s.cpu c).main = none)
    (hop : op.allowed (s.cpu c) = true) : Wired (s.goto c op.entry) := by
  refine ⟨forall_core c ?_ ?_, forall_core c ?_ ?_⟩
  · exact inv_steps (h.message c) (messageChan_entry op hmain hop)
  · rw [messageChan_entry_other op hmain]
    exact h.message c.other
  · exact inv_steps (h.ack c) (ackChan_entry op hmain hop)
  · rw [ackChan_entry_other op hmain]
    exact h.ack c.other

/-- The writing end of the messages, the control word included. -/
theorem messageChan_main (p : Call) (hmain : (s.cpu c).main = some p) (hfits : Fits c s) :
    ReflTransGen (Slot.Step wordLayout) (messageChan c.other s)
      (messageChan c.other (callStep c s p).1) := by
  by_cases hctrl : ∃ id buff, p = .sendMessageCtrl id buff
  · rcases hctrl with ⟨id, buff, rfl⟩
    exact .single (messageChan_post id buff hmain)
  · refine ReflTransGen.mono Slot.Step.prepare _ _ (messageChan_writer p hmain hfits ?_)
    intro id buff hp
    exact hctrl ⟨id, buff, hp⟩

/-- The writing end of the acknowledgements, the control word included. -/
theorem ackChan_main (p : Call) (hmain : (s.cpu c).main = some p) :
    ReflTransGen (Slot.Step wordLayout) (ackChan c.other s)
      (ackChan c.other (callStep c s p).1) := by
  by_cases hctrl : ∃ id, p = .sendAckCtrl id
  · rcases hctrl with ⟨id, rfl⟩
    exact .single (ackChan_post id hmain)
  · refine ReflTransGen.mono Slot.Step.prepare _ _ (ackChan_writer p hmain ?_)
    intro id hp
    exact hctrl ⟨id, hp⟩

/-- A core goes on inside the driver. -/
theorem wired_main (h : Wired s) (p : Call) (hmain : (s.cpu c).main = some p)
    (hfits : Fits c s) : Wired (callStep c s p).1 :=
  ⟨forall_core c (inv_steps (h.message c) (messageChan_reader p hmain))
      (inv_steps (h.message c.other) (messageChan_main p hmain hfits)),
    forall_core c (inv_steps (h.ack c) (ackChan_reader p hmain (h.ack c)))
      (inv_steps (h.ack c.other) (ackChan_main p hmain))⟩

/-- The first place of the handler is away from both words. -/
theorem messageChan_irq (hirq : (s.cpu c).irq = none) :
    ∀ r, messageChan r (s.gotoIrq c (some .check1)) = messageChan r s :=
  forall_core c (by simp [messageChan, State.gotoIrq, hirq, irqOf])
    (by simp [messageChan, State.gotoIrq])

theorem ackChan_irq (hirq : (s.cpu c).irq = none) :
    ∀ r, ackChan r (s.gotoIrq c (some .check1)) = ackChan r s :=
  forall_core c (by simp [ackChan, State.gotoIrq, hirq, ackIrqOf])
    (by simp [ackChan, State.gotoIrq])

/-- A core is interrupted. -/
theorem wired_irq (h : Wired s) (hirq : (s.cpu c).irq = none) :
    Wired (s.gotoIrq c (some .check1)) := by
  refine ⟨fun r => ?_, fun r => ?_⟩
  · rw [messageChan_irq hirq r]
    exact h.message r
  · rw [ackChan_irq hirq r]
    exact h.ack r

/-- The handler goes on. -/
theorem wired_handler (h : Wired s) (p : Handler) (hirq : (s.cpu c).irq = some p) :
    Wired (handlerStep c s p) := by
  refine ⟨forall_core c ?_ ?_, forall_core c ?_ ?_⟩
  · exact inv_steps (h.message c) (messageChan_handler p hirq)
  · rw [messageChan_handler_other p]
    exact h.message c.other
  · exact inv_steps (h.ack c) (ackChan_handler p hirq)
  · rw [ackChan_handler_other p]
    exact h.ack c.other

end Threads

/-- A step does not let a message of full length into an empty mailbox. -/
def FitsLabel (s : State) : Label → Prop
  | .main c => Fits c s
  | _ => True

instance (s : State) : ∀ l, Decidable (FitsLabel s l)
  | .main c => inferInstanceAs (Decidable (Fits c s))
  | .call _ _ => isTrue trivial
  | .irq _ => isTrue trivial
  | .handler _ => isTrue trivial

theorem step_wired (s : State) (l : Label) (t : State) (h : Wired s) (hfits : FitsLabel s l)
    (hstep : step s l = some t) : Wired t := by
  cases l with
  | call c op =>
      simp only [step] at hstep
      split_ifs at hstep with hguard
      · simp only [Bool.and_eq_true, Option.isNone_iff_eq_none] at hguard
        rw [← Option.some.inj hstep]
        exact wired_call h op hguard.1.2 hguard.2
  | main c =>
      simp only [step] at hstep
      cases hirq : (s.cpu c).irq with
      | some p =>
          rw [hirq] at hstep
          cases hstep
      | none =>
          -- The main loop of a core steps only outside its handler, and inside a call.
          cases hmain : (s.cpu c).main with
          | none =>
              rw [hirq, hmain] at hstep
              cases hstep
          | some p =>
              rw [hirq, hmain] at hstep
              rw [← Option.some.inj hstep]
              exact wired_main h p hmain hfits
  | irq c =>
      simp only [step] at hstep
      split_ifs at hstep with hguard
      · simp only [Bool.and_eq_true, Option.isNone_iff_eq_none] at hguard
        rw [← Option.some.inj hstep]
        exact wired_irq h hguard.1
  | handler c =>
      simp only [step] at hstep
      cases hirq : (s.cpu c).irq with
      | none =>
          rw [hirq] at hstep
          cases hstep
      | some p =>
          rw [hirq] at hstep
          rw [← Option.some.inj hstep]
          exact wired_handler h p hirq

/-- After `mbox_init` nothing is posted. -/
theorem start_wired (data : CoreId → Nat → UInt8) : Wired (.start data) :=
  ⟨fun _ => Or.inl ⟨wordLayout.full_zero, wordLayout.intr_zero, rfl, rfl, rfl, rfl, trivial⟩,
    fun _ => Or.inl ⟨wordLayout.full_zero, wordLayout.intr_zero, rfl, rfl, rfl, rfl, trivial⟩⟩

/-- In every run that lets no message of full length in, a core has read what
    the other has sent, in order and untorn, but for at most one message; and
    a read that has begun finds that message and refuses it only for want of
    room. -/
theorem messages_delivered (data : CoreId → Nat → UInt8) (ls : List Label) (s : State)
    (hrun : run step (.start data) ls = some s)
    (hfits : Along step FitsLabel (.start data) ls) (r : CoreId) :
    ((s.cpu r.other).sentMsg = (s.cpu r).readMsg ∨
        ∃ m, (s.cpu r.other).sentMsg = (s.cpu r).readMsg ++ [m]) ∧
      ∀ buffSize, (s.cpu r).main = some (.readMessageSize buffSize) →
        ∃ m, (s.cpu r.other).sentMsg = (s.cpu r).readMsg ++ [m] ∧
          ((callStep r s (.readMessageSize buffSize)).2 = some (.status (-1))
            ↔ buffSize < m.len) := by
  have hwired : Wired s := run_inv step_wired ls _ s (start_wired data) hfits hrun
  refine ⟨delivered (hwired.message r), ?_⟩
  intro buffSize hmain
  have hreader : (messageChan r s).reader ≠ .away := by
    simp [messageChan, hmain, readerOf]
  rcases full_of_reader (hwired.message r) hreader with ⟨m, hfull⟩
  have hsize : wordSize (s.box r).ctrl0 = m.len := hfull.size
  refine ⟨m, hfull.sent, ?_⟩
  simp only [callStep, hsize]
  by_cases hlt : m.len > buffSize
  · rw [if_pos hlt]
    exact ⟨fun _ => hlt, fun _ => rfl⟩
  · rw [if_neg hlt]
    exact ⟨(by simp), fun h => absurd h hlt⟩

/-- Both mailboxes after `mbox_init`, the data memories cleared. -/
def zeroed : State := .start fun _ _ => 0

/-- A two-byte message from core 0 to core 1. -/
def shortRun : List Label :=
  [.call .core0 (.sendMessage 7 [0x68, 0x69])] ++ List.replicate 5 (.main .core0) ++
    [.irq .core1] ++ List.replicate 5 (.handler .core1) ++
    [.call .core1 (.readMessage 16)] ++ List.replicate 8 (.main .core1)

/-- It arrives. -/
theorem messages_delivered_short :
    ∃ s, run step zeroed shortRun = some s ∧
      (s.cpu .core1).readMsg = [⟨7, 2, [0x68, 0x69]⟩] ∧
      ((s.cpu .core0).sentMsg = (s.cpu .core1).readMsg ∨
        ∃ m, (s.cpu .core0).sentMsg = (s.cpu .core1).readMsg ++ [m]) := by
  have hread : (run step zeroed shortRun).map (fun s => (s.cpu .core1).readMsg)
      = some [⟨7, 2, [0x68, 0x69]⟩] := by decide +kernel
  rcases Option.map_eq_some_iff.mp hread with ⟨s, hrun, hs⟩
  refine ⟨s, hrun, hs, ?_⟩
  exact (messages_delivered (fun _ _ => 0) shortRun _ hrun (by decide +kernel) .core1).1

/-- As many bytes as the data memory has. -/
def fullBuff : List UInt8 := List.replicate mboxRamSize 0

/-- Core 0 copying `fullBuff`, at byte `k`. -/
def fullCopying (k : Nat) : State := zeroed.goto .core0 (.sendMessageCopy 1 fullBuff k)

/-- `fullBuff` is posted. -/
def fullPosted : State :=
  (zeroed.setBox .core1
      { ctrl0 := messageWord 1 32768, ctrl1 := 0, data := fun _ => 0 }).setCpu .core0
    { Cpu.start with sentMsg := [⟨1, 32768, fullBuff⟩] }

theorem length_fullBuff : fullBuff.length = 32768 := by
  rw [fullBuff, List.length_replicate]
  rfl

/-- Zeros copied over zeros. -/
theorem step_fullCopying (k : Nat) (hk : k < 32768) :
    step (fullCopying k) (.main .core0) = some (fullCopying (k + 1)) := by
  have hb : fullBuff[k]? = some 0 := by
    rw [fullBuff, List.getElem?_replicate]
    exact if_pos hk
  have hstep : step (fullCopying k) (.main .core0)
      = some (callStep .core0 (fullCopying k) (.sendMessageCopy 1 fullBuff k)).1 := rfl
  rw [hstep, callStep, hb]
  refine congrArg some (congrArg₂ State.mk ?_ ?_)
  · funext c
    cases c with
    | core0 => rfl
    | core1 =>
        refine congrArg (Mailbox.mk 0 0) ?_
        funext a
        exact ite_self 0
  · funext c
    cases c <;> rfl

theorem run_fullCopying (n k : Nat) (hn : k + n = 32768) :
    run step (fullCopying k) (List.replicate n (.main .core0)) = some (fullCopying 32768) := by
  induction n generalizing k with
  | zero => rw [← hn]; rfl
  | succ j ih =>
      rw [List.replicate_succ, run_cons (step_fullCopying k (by omega))]
      exact ih (k + 1) (by omega)

/-- Core 0 sends `fullBuff`. -/
def fullSend : List Label :=
  [.call .core0 (.sendMessage 1 fullBuff), .main .core0] ++
    (List.replicate 32768 (.main .core0) ++ [.main .core0, .main .core0])

/-- Core 1 is interrupted, and reads with room for everything. -/
def fullRead : List Label :=
  [.irq .core1] ++ List.replicate 5 (.handler .core1) ++
    [.call .core1 (.readMessage mboxRamSize)] ++ List.replicate 6 (.main .core1)

/-- Going on twice is going on to the last place. -/
theorem goto_goto (s : State) (c : CoreId) (p q : Call) : (s.goto c p).goto c q = s.goto c q := by
  simp [State.goto, State.setCpu]

/-- The check lets `fullBuff` in: its length is not above the limit. -/
theorem run_fullCheck :
    run step zeroed [.call .core0 (.sendMessage 1 fullBuff), .main .core0]
      = some (fullCopying 0) := by
  have hlen : ¬ fullBuff.length > mboxRamSize := by
    rw [length_fullBuff]
    exact Nat.lt_irrefl _
  have hentry : step zeroed (.call .core0 (.sendMessage 1 fullBuff))
      = some (zeroed.goto .core0 (.sendMessageCheck 1 fullBuff)) := rfl
  have hmain : step (zeroed.goto .core0 (.sendMessageCheck 1 fullBuff)) (.main .core0)
      = some (fullCopying 0) := by
    have hcall : step (zeroed.goto .core0 (.sendMessageCheck 1 fullBuff)) (.main .core0)
        = some (callStep .core0 (zeroed.goto .core0 (.sendMessageCheck 1 fullBuff))
          (.sendMessageCheck 1 fullBuff)).1 := rfl
    rw [hcall, callStep, if_neg (by decide), if_neg hlen, goto_goto]
    rfl
  rw [run_cons hentry, run_cons hmain]
  rfl

/-- The control word carries the whole length. -/
theorem run_fullCtrl :
    run step (fullCopying 32768) [.main .core0, .main .core0] = some fullPosted := by
  have hcopied : step (fullCopying 32768) (.main .core0)
      = some (zeroed.goto .core0 (.sendMessageCtrl 1 fullBuff)) := by
    have hnone : fullBuff[32768]? = none :=
      List.getElem?_eq_none_iff.mpr (Nat.le_of_eq length_fullBuff)
    have hcall : step (fullCopying 32768) (.main .core0)
        = some (callStep .core0 (fullCopying 32768) (.sendMessageCopy 1 fullBuff 32768)).1 := rfl
    rw [hcall, callStep, hnone]
    exact congrArg some (goto_goto _ _ _ _)
  have hpost : step (zeroed.goto .core0 (.sendMessageCtrl 1 fullBuff)) (.main .core0)
      = some fullPosted := by
    have hcall : step (zeroed.goto .core0 (.sendMessageCtrl 1 fullBuff)) (.main .core0)
        = some (callStep .core0 (zeroed.goto .core0 (.sendMessageCtrl 1 fullBuff))
          (.sendMessageCtrl 1 fullBuff)).1 := rfl
    rw [hcall, callStep, length_fullBuff]
    refine congrArg some (congrArg₂ State.mk ?_ ?_)
    · funext c
      cases c <;> rfl
    · funext c
      cases c <;> rfl
  rw [run_cons hcopied, run_cons hpost]
  rfl

theorem run_fullSend : run step zeroed fullSend = some fullPosted := by
  rw [fullSend, run_append run_fullCheck, run_append (run_fullCopying 32768 0 rfl), run_fullCtrl]

/-- A message of full length is accepted, and read as an empty one. -/
theorem full_message_torn :
    ∃ s, run step zeroed (fullSend ++ fullRead) = some s ∧
      (s.cpu .core0).sentMsg = [⟨1, 32768, fullBuff⟩] ∧
      (s.cpu .core1).readMsg = [⟨1, 0, []⟩] ∧
      ¬ ((s.cpu .core0).sentMsg = (s.cpu .core1).readMsg ∨
        ∃ m, (s.cpu .core0).sentMsg = (s.cpu .core1).readMsg ++ [m]) := by
  have hread : (run step fullPosted fullRead).map (fun s => (s.cpu .core1).readMsg)
      = some [⟨1, 0, []⟩] := by decide +kernel
  rcases Option.map_eq_some_iff.mp hread with ⟨s, hrun, hs⟩
  have hsent : (s.cpu .core0).sentMsg = [⟨1, 32768, fullBuff⟩] := by
    have hmap : (run step fullPosted fullRead).map (fun s => (s.cpu .core0).sentMsg)
        = some [⟨1, 32768, fullBuff⟩] := rfl
    rw [hrun] at hmap
    exact Option.some.inj hmap
  refine ⟨s, ?_, hsent, hs, ?_⟩
  · rw [run_append run_fullSend, hrun]
  · rw [hsent, hs]
    rintro (h | ⟨m, h⟩)
    · simp at h
    · simp at h

end Mbox

end Wujian100
