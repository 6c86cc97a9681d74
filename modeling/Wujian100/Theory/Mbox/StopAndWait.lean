import Wujian100.Theory.Mbox.App

/-!
# The Applications Stop and Wait

Each core sends a message, waits for its acknowledgement, and sends the next.
What keeps the loop of the other core from acknowledging twice, or from
overwriting an acknowledgement it still owes, is a count: a core has sent as
many messages as it has read acknowledgements, and one more if it is not about
to send. A message in the mailbox of a core that owes an acknowledgement would
put its sender two ahead.

The count closes a circle. Messages read are at most the messages sent;
acknowledgements sent are the messages read, but for the one owed;
acknowledgements read are at most those sent; and messages sent are at most one
more than those.

## Main definitions

* `wants`, `due`: A message to be sent, an acknowledgement owed.
* `CoreOk`: What one core keeps.
* `StopAndWait`: What the system keeps.

## Theorems

* `coreOk_call`: A driver call keeps it, given the two counts.
* `not_due_of_reading`, `not_wanted_of_acked`: The two counts.
* `sysStep_stopAndWait`: A step keeps it.
* `acks_in_order`: Acknowledgements come back in the order of the messages,
  each after its message has been read, and one at a time.
-/

namespace Wujian100

namespace Mbox

open Slot Run

/-- One if `main` is going to send a message. -/
def wants (a : App) : Nat := if a.pc = .firstSend ∨ a.sendMsg = true then 1 else 0

/-- The acknowledgement `main` owes. -/
def due (a : App) : List (BitVec 8) := if a.sendAck = true then [a.sendAckId] else []

/-- What one core keeps: its variables agree with its call and with its
    records. -/
structure CoreOk (a : App) (p : Cpu) : Prop where
  started : a.pc.started = true
  app : AppOk a p
  budget : p.sentMsg.length + wants a = p.readAck.length + 1
  owed : p.readMsg.map Msg.tag = p.sentAck ++ due a

/-- Both cores keep that, and the mailboxes are channels. -/
structure StopAndWait (s : Sys) : Prop where
  wired : Wired s.mbox
  core : ∀ c, CoreOk (s.app c) (s.mbox.cpu c)

/-- A status that is not negative, seen from the place of a sending call. -/
theorem resume_sent (a : App) (n : Nat) (hfn : a.pc.fn = some .sendMessage)
    (hfirst : a.pc = .firstSend → a.sendMsg = false)
    (hmsg : a.pc = .sendMsg → a.sendMsg = true) :
    (a.resume (.status n)).pc.started = true ∧ wants a = 1 ∧ wants (a.resume (.status n)) = 0 ∧
      due (a.resume (.status n)) = due a := by
  cases hp : a.pc <;> simp_all [App.resume, Pc.fn, Pc.started, wants, due]

/-- A negative status changes nothing but the place. -/
theorem resume_refused (a : App) (v : Int) (hv : v < 0) (f : Fn) (hfn : a.pc.fn = some f)
    (hf : f ≠ .readAck) (hfirst : a.pc = .firstSend → a.sendMsg = false) :
    (a.resume (.status v)).pc.started = true ∧ wants (a.resume (.status v)) = wants a ∧
      due (a.resume (.status v)) = due a := by
  have hneg : ¬ v ≥ 0 := by omega
  cases hp : a.pc <;> simp only [App.resume, hp, if_neg hneg] <;>
    simp_all [Pc.fn, Pc.started, wants, due]

/-- A driver call keeps the core in order, given that it reads a message only
    when it owes nothing and an acknowledgement only when it wants nothing. -/
theorem coreOk_call {a : App} {cpu cpu' : Cpu} {p : Call} {r : Option Ret} (h : CoreOk a cpu)
    (hmain : cpu.main = some p) (ho : Outcome p cpu cpu' r)
    (hreading : p.fn = .readMessage → a.sendAck = false)
    (hacked : p.fn = .readAck → wants a = 0) : CoreOk (a.after r) cpu' := by
  have hok := appOk_call h.app hmain ho
  have hfn := h.app.fn p hmain
  have hbudget := h.budget
  have howed := h.owed
  cases ho with
  | going q _ _ _ _ hlog =>
      simp only [Cpu.log, Prod.mk.injEq] at hlog
      rcases hlog with ⟨hsm, hrm, hsa, hra⟩
      refine ⟨h.started, hok, ?_, ?_⟩
      · rw [hsm, hra]
        exact hbudget
      · rw [hrm, hsa]
        exact howed
  | refused v hv hf _ hlog =>
      simp only [Cpu.log, Prod.mk.injEq] at hlog
      rcases hlog with ⟨hsm, hrm, hsa, hra⟩
      rcases resume_refused a v hv _ hfn hf h.app.first with ⟨hstarted, hwants, hdue⟩
      refine ⟨hstarted, hok, ?_, ?_⟩
      · rw [hsm, hra, App.after, hwants]
        exact hbudget
      · rw [hrm, hsa, App.after, hdue]
        exact howed
  | sent m hf _ hlog n =>
      simp only [Cpu.log, Prod.mk.injEq] at hlog
      rcases hlog with ⟨hsm, hrm, hsa, hra⟩
      rw [hf] at hfn
      rcases resume_sent a n hfn h.app.first (h.app.msg (by rw [hmain]; simp)) with
        ⟨hstarted, hone, hzero, hdue⟩
      refine ⟨hstarted, hok, ?_, ?_⟩
      · rw [hsm, hra, App.after, hzero, List.length_append, List.length_singleton]
        omega
      · rw [hrm, hsa, App.after, hdue]
        exact howed
  | read m hf _ hlog =>
      simp only [Cpu.log, Prod.mk.injEq] at hlog
      rcases hlog with ⟨hsm, hrm, hsa, hra⟩
      rw [hf] at hfn
      -- A message is read when nothing is owed, and owes its acknowledgement.
      have hnone := hreading hf
      refine ⟨rfl, hok, ?_, ?_⟩
      · have hpc : a.pc ≠ .firstSend := by
          intro hpc
          rw [hpc] at hfn
          cases hfn
        have hwants : wants (a.after (some (.message m))) = wants a := by
          simp [App.after, App.resume, wants, hpc]
        rw [hsm, hra, hwants]
        exact hbudget
      · have hdue : due a = [] := by simp [due, hnone]
        have hdue' : due (a.after (some (.message m))) = [m.tag] := by
          simp [App.after, App.resume, due]
        rw [hdue, List.append_nil] at howed
        rw [hrm, hsa, hdue', List.map_append, howed]
        rfl
  | acked id hid hf _ hlog =>
      simp only [Cpu.log, Prod.mk.injEq] at hlog
      rcases hlog with ⟨hsm, hrm, hsa, hra⟩
      rw [hf] at hfn
      -- The acknowledgement that is owed is the one sent.
      have hpc : a.pc = .sendAck := by
        cases hp : a.pc <;> rw [hp] at hfn <;> simp_all [Pc.fn]
      rcases h.app.ack p hmain hpc with ⟨hsend, hid'⟩
      rw [hid] at hid'
      refine ⟨by simp [App.after, App.resume, hpc, Pc.started], hok, ?_, ?_⟩
      · have hwants : wants (a.after (some (.status 0))) = wants a := by
          simp [App.after, App.resume, wants, hpc]
        rw [hsm, hra, hwants]
        exact hbudget
      · have hdue : due a = [id] := by simp [due, hsend, Option.some.inj hid']
        have hdue' : due (a.after (some (.status 0))) = [] := by
          simp [App.after, App.resume, due, hpc]
        rw [hrm, hsa, hdue', howed, hdue, List.append_nil]
  | ackRead id hf _ hlog =>
      simp only [Cpu.log, Prod.mk.injEq] at hlog
      rcases hlog with ⟨hsm, hrm, hsa, hra⟩
      -- An acknowledgement allows one more message.
      have hzero := hacked hf
      refine ⟨rfl, hok, ?_, ?_⟩
      · have hone : wants (a.after (some (.ack id))) = 1 := by
          simp [App.after, App.resume, wants]
        rw [hsm, hra, hone, List.length_append, List.length_singleton]
        omega
      · have hdue : due (a.after (some (.ack id))) = due a := rfl
        rw [hrm, hsa, hdue]
        exact howed

section Counts

variable {s : Sys} {c : CoreId}

/-- What has been read is a beginning of what has been sent. -/
theorem readMsg_isPrefix (h : Wired s.mbox) (r : CoreId) :
    (s.mbox.cpu r).readMsg <+: (s.mbox.cpu r.other).sentMsg := by
  rcases delivered (h.message r) with heq | ⟨m, heq⟩
  · exact ⟨[], by rw [List.append_nil]; exact heq.symm⟩
  · exact ⟨[m], heq.symm⟩

theorem readAck_isPrefix (h : Wired s.mbox) (r : CoreId) :
    (s.mbox.cpu r).readAck <+: (s.mbox.cpu r.other).sentAck := by
  rw [← List.prefix_map_iff_of_injective ackMsg_injective]
  rcases delivered (h.ack r) with heq | ⟨m, heq⟩
  · exact ⟨[], by rw [List.append_nil]; exact heq.symm⟩
  · exact ⟨[m], heq.symm⟩

/-- A core that is reading a message owes no acknowledgement: its peer has sent
    this message because it has read an acknowledgement for every other. -/
theorem not_due_of_reading (h : StopAndWait s) {p : Call}
    (hmain : (s.mbox.cpu c).main = some p) (hfn : p.fn = .readMessage) :
    (s.app c).sendAck = false := by
  have hreader : (messageChan c s.mbox).reader ≠ .away := by
    cases p <;> simp_all [messageChan, readerOf, Call.fn]
  rcases full_of_reader (h.wired.message c) hreader with ⟨m, hfull⟩
  have hsent : (s.mbox.cpu c.other).sentMsg = (s.mbox.cpu c).readMsg ++ [m] := hfull.sent
  have hlen := congrArg List.length hsent
  have hacks := (readAck_isPrefix h.wired c.other).length_le
  have hbudget := (h.core c.other).budget
  have howed := congrArg List.length (h.core c).owed
  rw [CoreId.other_other] at hacks
  rw [List.length_append, List.length_singleton] at hlen
  rw [List.length_map, List.length_append] at howed
  cases hsend : (s.app c).sendAck with
  | false => rfl
  | true =>
      have hone : (due (s.app c)).length = 1 := by simp [due, hsend]
      omega

/-- A core that is reading an acknowledgement has no message to send: the one
    that is acknowledged is the last it has sent. -/
theorem not_wanted_of_acked (h : StopAndWait s) {p : Call}
    (hmain : (s.mbox.cpu c).main = some p) (hfn : p.fn = .readAck) : wants (s.app c) = 0 := by
  have hreader : (ackChan c s.mbox).reader ≠ .away := by
    cases p <;> simp_all [ackChan, ackReaderOf, Call.fn]
  rcases full_of_reader (h.wired.ack c) hreader with ⟨m, hfull⟩
  have hsent : (s.mbox.cpu c.other).sentAck.map ackMsg
      = (s.mbox.cpu c).readAck.map ackMsg ++ [m] := hfull.sent
  have hlen := congrArg List.length hsent
  have hread := (readMsg_isPrefix h.wired c.other).length_le
  have hbudget := (h.core c).budget
  have howed := congrArg List.length (h.core c.other).owed
  rw [CoreId.other_other] at hread
  rw [List.length_append, List.length_singleton, List.length_map, List.length_map] at hlen
  rw [List.length_map, List.length_append] at howed
  omega

end Counts

/-- Moving on outside the driver. -/
theorem coreOk_move {a a' : App} {p : Cpu} (h : CoreOk a p) (hmain : p.main = none)
    (hmove : Moves a a') : CoreOk a' p := by
  have hwants : wants a' = wants a := by
    simp [wants, hmove.first, hmove.first', hmove.sendMsg]
  have hdue : due a' = due a := by simp [due, hmove.sendAck, hmove.sendAckId]
  refine ⟨hmove.started, appOk_move h.app hmain hmove, ?_, ?_⟩
  · rw [hwants]
    exact h.budget
  · rw [hdue]
    exact h.owed

/-- The records and the call are all a core's order depends on. -/
theorem coreOk_congr {a : App} {p p' : Cpu} (h : CoreOk a p) (hmain : p'.main = p.main)
    (hlog : p'.log = p.log) : CoreOk a p' := by
  simp only [Cpu.log, Prod.mk.injEq] at hlog
  rcases hlog with ⟨hsm, hrm, hsa, hra⟩
  refine ⟨h.started, appOk_congr h.app hmain hrm, ?_, ?_⟩
  · rw [hsm, hra]
    exact h.budget
  · rw [hrm, hsa]
    exact h.owed

/-- A step keeps the order. -/
theorem sysStep_stopAndWait (s : Sys) (l : Turn) (t : Sys) (h : StopAndWait s)
    (hstep : sysStep s l = some t) : StopAndWait t := by
  rcases sysStep_cases hstep with ⟨c, _, _, hmain, happ⟩ | ⟨c, p, _, _, hmain, rfl⟩ |
    ⟨c, _, hirq, _, rfl⟩ | ⟨c, p, _, hirq, rfl⟩
  · rcases appStep_started (h.core c).started happ with ⟨op, rfl, henter⟩ | ⟨a', rfl, hmove⟩
    · refine ⟨wired_call h.wired op hmain henter.allowed, forall_core c ?_ ?_⟩
      · have hcore := h.core c
        simp only [Sys.call, goto_cpu_self]
        exact ⟨hcore.started, appOk_enter hcore.app henter, hcore.budget, hcore.owed⟩
      · simp only [Sys.call, State.goto, setCpu_other]
        exact h.core c.other
    · refine ⟨h.wired, forall_core c ?_ ?_⟩
      · simp only [Function.update_self]
        exact coreOk_move (h.core c) hmain hmove
      · simp only [Function.update_of_ne c.other_ne]
        exact h.core c.other
  · have hframe := callStep_frame (s := s.mbox) (c := c) p
    refine ⟨wired_main h.wired p hmain (fits_of_appOk (h.core c).app), forall_core c ?_ ?_⟩
    · simp only [Function.update_self]
      exact coreOk_call (h.core c) hmain (callStep_outcome p)
        (not_due_of_reading h hmain) (not_wanted_of_acked h hmain)
    · simp only [Function.update_of_ne c.other_ne, hframe.1]
      exact h.core c.other
  · refine ⟨wired_irq h.wired hirq, forall_core c ?_ ?_⟩
    · refine coreOk_congr (h.core c) ?_ ?_
      · simp [State.gotoIrq]
      · simp [State.gotoIrq, Cpu.log]
    · simp only [State.gotoIrq, setCpu_other]
      exact h.core c.other
  · rcases handlerStep_frame (s := s.mbox) (c := c) p with ⟨hother, hsame, hlog, _⟩
    refine ⟨wired_handler h.wired p hirq, forall_core c ?_ ?_⟩
    · exact coreOk_congr (h.core c) hsame hlog
    · simp only [hother]
      exact h.core c.other

theorem initialized_stopAndWait (data : CoreId → Nat → UInt8) :
    StopAndWait (.initialized data) := by
  refine ⟨start_wired data, fun c => ⟨rfl, ?_, rfl, rfl⟩⟩
  exact ⟨nofun, nofun, fun hne => absurd rfl hne, nofun, fun _ => rfl, nofun⟩

/-- Acknowledgements come back in the order of the messages, each after its
    message has been read by the peer, and there is never more than one message
    without an acknowledgement. -/
theorem acks_in_order (data : CoreId → Nat → UInt8) (ls : List Turn) (s : Sys)
    (hrun : run sysStep (.initialized data) ls = some s) (c : CoreId) :
    (s.mbox.cpu c).readAck <+: (s.mbox.cpu c).sentMsg.map Msg.tag ∧
      (s.mbox.cpu c).sentMsg.length ≤ (s.mbox.cpu c).readAck.length + 1 ∧
      (s.mbox.cpu c.other).sentAck <+: (s.mbox.cpu c.other).readMsg.map Msg.tag ∧
      (s.mbox.cpu c).readAck <+: (s.mbox.cpu c.other).readMsg.map Msg.tag := by
  have h : StopAndWait s :=
    run_inv (P := fun _ _ => True) (fun u l t hu _ ht => sysStep_stopAndWait u l t hu ht) ls _ s
      (initialized_stopAndWait data) (along_of_forall (fun _ _ => trivial) ls _) hrun
  have hread := readMsg_isPrefix h.wired c.other
  rw [CoreId.other_other] at hread
  have hsent : (s.mbox.cpu c.other).sentAck <+: (s.mbox.cpu c.other).readMsg.map Msg.tag :=
    ⟨_, (h.core c.other).owed.symm⟩
  have hback := (readAck_isPrefix h.wired c).trans hsent
  have hbudget := (h.core c).budget
  exact ⟨hback.trans (hread.map _), by omega, hsent, hback⟩

/-- Core 0's first message, up to its acknowledgement. Both cores send first;
    core 1 is interrupted, reads and acknowledges; core 0 is interrupted and
    reads the acknowledgement. -/
def roundTrip : List Turn :=
  List.replicate 44 (.main .core0) ++ List.replicate 44 (.main .core1) ++
    [.irq .core1] ++ List.replicate 5 (.handler .core1) ++ List.replicate 53 (.main .core1) ++
    [.irq .core0] ++ List.replicate 8 (.handler .core0) ++ List.replicate 6 (.main .core0)

/-- Message 100 comes back acknowledged. -/
theorem acks_in_order_roundTrip :
    ∃ s, run sysStep (.initialized fun _ _ => 0) roundTrip = some s ∧
      (s.mbox.cpu .core0).readAck = [100] ∧
      (s.mbox.cpu .core0).readAck <+: (s.mbox.cpu .core0).sentMsg.map Msg.tag ∧
      (s.mbox.cpu .core0).sentMsg.length ≤ (s.mbox.cpu .core0).readAck.length + 1 := by
  have hread : (run sysStep (.initialized fun _ _ => 0) roundTrip).map
      (fun s => (s.mbox.cpu .core0).readAck) = some [100] := by decide +kernel
  rcases Option.map_eq_some_iff.mp hread with ⟨s, hrun, hs⟩
  rcases acks_in_order (fun _ _ => 0) roundTrip s hrun .core0 with ⟨horder, hone, _⟩
  exact ⟨s, hrun, hs, horder, hone⟩

end Mbox

end Wujian100
