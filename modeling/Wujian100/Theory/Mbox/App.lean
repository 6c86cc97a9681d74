import Wujian100.Core.Mbox.App
import Wujian100.Theory.Mbox.Transport

/-!
# The Applications as Clients of the Driver

What the two claims about the applications share: how a step of the whole
system looks, what a driver function has done when it returns, and what `main`
knows about the call it is in.

A call goes on, is refused, or ends with one entry in one of the four records;
`Outcome` lists these ends with the results that go with them. `AppOk` says
that the call in progress belongs to the place of `main`, and that `main` makes
it for the reason it has.

## Main definitions

* `Cpu.log`: The four records of a core.
* `Outcome`: How one access leaves a call.
* `Pc.fn`, `Pc.started`: The function a place calls, and the places behind
  `mbox_init`.
* `AppOk`: What `main` knows about its call.
* `Enters`, `Moves`: The two kinds of step outside the driver.

## Theorems

* `callStep_outcome`: Every access has one of these outcomes.
* `sysStep_cases`: The four kinds of step.
* `appStep_started`: The steps of `main` behind `mbox_init`.
* `appOk_call`, `appOk_enter`, `appOk_move`: What they keep.
-/

namespace Wujian100

namespace Mbox

open Slot Run

/-- What a core has sent and read. -/
def Cpu.log (p : Cpu) :
    List Message × List Message × List (BitVec 8) × List (BitVec 8) :=
  (p.sentMsg, p.readMsg, p.sentAck, p.readAck)

/-- The id of the acknowledgement a call sends. -/
def Call.ackId : Call → Option (BitVec 8)
  | .sendAckCheck id => some id
  | .sendAckCtrl id => some id
  | _ => none

/-- How one access leaves a call, from the core as it was to the core as it
    is. -/
inductive Outcome (p : Call) (cpu cpu' : Cpu) : Option Ret → Prop
  | going (q : Call) (hmain : cpu'.main = some q) (hfn : q.fn = p.fn) (hfills : q.fills = false)
      (hack : q.ackId = p.ackId) (hlog : cpu'.log = cpu.log) : Outcome p cpu cpu' none
  | refused (v : Int) (hv : v < 0) (hfn : p.fn ≠ .readAck) (hmain : cpu'.main = none)
      (hlog : cpu'.log = cpu.log) : Outcome p cpu cpu' (some (.status v))
  | sent (m : Message) (hfn : p.fn = .sendMessage) (hmain : cpu'.main = none)
      (hlog : cpu'.log = (cpu.sentMsg ++ [m], cpu.readMsg, cpu.sentAck, cpu.readAck)) (n : Nat) :
      Outcome p cpu cpu' (some (.status n))
  | read (m : Message) (hfn : p.fn = .readMessage) (hmain : cpu'.main = none)
      (hlog : cpu'.log = (cpu.sentMsg, cpu.readMsg ++ [m], cpu.sentAck, cpu.readAck)) :
      Outcome p cpu cpu' (some (.message m))
  | acked (id : BitVec 8) (hid : p.ackId = some id) (hfn : p.fn = .sendAck)
      (hmain : cpu'.main = none)
      (hlog : cpu'.log = (cpu.sentMsg, cpu.readMsg, cpu.sentAck ++ [id], cpu.readAck)) :
      Outcome p cpu cpu' (some (.status 0))
  | ackRead (id : BitVec 8) (hfn : p.fn = .readAck) (hmain : cpu'.main = none)
      (hlog : cpu'.log = (cpu.sentMsg, cpu.readMsg, cpu.sentAck, cpu.readAck ++ [id])) :
      Outcome p cpu cpu' (some (.ack id))

section Driver

variable {s : State} {c : CoreId}

@[simp] theorem goto_cpu_self (p : Call) :
    (s.goto c p).cpu c = { s.cpu c with main := some p } := by
  simp [State.goto]

@[simp] theorem leave_cpu_self : (s.leave c).cpu c = { s.cpu c with main := none } := by
  simp [State.leave]

theorem callStep_outcome (p : Call) :
    Outcome p (s.cpu c) ((callStep c s p).1.cpu c) (callStep c s p).2 := by
  cases p with
  | sendMessageCheck id buff =>
      -- Most accesses go on to the next; each function ends in one that writes its log.
      simp only [callStep]
      split_ifs
      · exact .refused (-1) (by decide) (by simp [Call.fn]) (by simp) (by simp [Cpu.log])
      · exact .refused (-2) (by decide) (by simp [Call.fn]) (by simp) (by simp [Cpu.log])
      · exact .going (.sendMessageCopy id buff 0) (by simp) rfl rfl rfl (by simp [Cpu.log])
  | sendMessageCopy id buff k =>
      simp only [callStep]
      cases buff[k]? with
      | none => exact .going (.sendMessageCtrl id buff) (by simp) rfl rfl rfl (by simp [Cpu.log])
      | some b =>
          exact .going (.sendMessageCopy id buff (k + 1)) (by simp) rfl rfl rfl
            (by simp [Cpu.log])
  | sendMessageCtrl id buff =>
      exact .sent ⟨id, buff.length, buff⟩ rfl (by simp [callStep]) (by simp [callStep, Cpu.log])
        buff.length
  | readMessageSize buffSize =>
      simp only [callStep]
      split_ifs
      · exact .refused (-1) (by decide) (by simp [Call.fn]) (by simp) (by simp [Cpu.log])
      · exact .going (.readMessageId (wordSize (s.box c).ctrl0)) (by simp) rfl rfl rfl (by simp [Cpu.log])
  | readMessageId size =>
      exact .going (.readMessageCopy (wordId (s.box c).ctrl0) size []) (by simp [callStep]) rfl rfl
        rfl (by simp [callStep, Cpu.log])
  | readMessageCopy id size buff =>
      simp only [callStep]
      split_ifs
      · exact .going (.readMessageCopy id size (buff ++ [(s.box c).data buff.length])) (by simp) rfl
          rfl rfl (by simp [Cpu.log])
      · exact .going (.readMessagePending ⟨id, size, buff⟩) (by simp) rfl rfl rfl
          (by simp [Cpu.log])
  | readMessagePending m =>
      exact .going (.readMessageLoad m) (by simp [callStep]) rfl rfl rfl
        (by simp [callStep, Cpu.log])
  | readMessageLoad m =>
      exact .going (.readMessageStore m (s.box c).ctrl0) (by simp [callStep]) rfl rfl rfl
        (by simp [callStep, Cpu.log])
  | readMessageStore m w =>
      exact .read m rfl (by simp [callStep]) (by simp [callStep, Cpu.log])
  | sendAckCheck id =>
      simp only [callStep]
      split_ifs
      · exact .refused (-1) (by decide) (by simp [Call.fn]) (by simp) (by simp [Cpu.log])
      · exact .going (.sendAckCtrl id) (by simp) rfl rfl rfl (by simp [Cpu.log])
  | sendAckCtrl id =>
      exact .acked id rfl rfl (by simp [callStep]) (by simp [callStep, Cpu.log])
  | readAckId =>
      exact .going (.readAckAcked (wordId (s.box c).ctrl1)) (by simp [callStep]) rfl rfl rfl
        (by simp [callStep, Cpu.log])
  | readAckAcked id =>
      exact .going (.readAckLoad id) (by simp [callStep]) rfl rfl rfl (by simp [callStep, Cpu.log])
  | readAckLoad id =>
      exact .going (.readAckStore id (s.box c).ctrl1) (by simp [callStep]) rfl rfl rfl
        (by simp [callStep, Cpu.log])
  | readAckStore id w =>
      exact .ackRead id rfl (by simp [callStep]) (by simp [callStep, Cpu.log])

/-- The driver of one core leaves the other core alone, and its own interrupt
    enable and handler. -/
theorem callStep_frame (p : Call) :
    (callStep c s p).1.cpu c.other = s.cpu c.other ∧
      ((callStep c s p).1.cpu c).irq = (s.cpu c).irq ∧
      ((callStep c s p).1.cpu c).irqEnabled = (s.cpu c).irqEnabled := by
  cases p <;> simp only [callStep] <;> (try split_ifs) <;> (try split) <;>
    simp [State.goto, State.leave]

/-- The handler leaves the other core, its own main line and the records
    alone. -/
theorem handlerStep_frame (h : Handler) :
    (handlerStep c s h).cpu c.other = s.cpu c.other ∧
      ((handlerStep c s h).cpu c).main = (s.cpu c).main ∧
      ((handlerStep c s h).cpu c).log = (s.cpu c).log ∧
      ((handlerStep c s h).cpu c).irqEnabled = (s.cpu c).irqEnabled := by
  cases h <;> simp only [handlerStep] <;> (try split_ifs) <;> simp [State.gotoIrq, Cpu.log]

end Driver

/-- The function a place of `main` calls. -/
def Pc.fn : Pc → Option Fn
  | .firstSend => some .sendMessage
  | .checkAcked => some .readAck
  | .sendMsg => some .sendMessage
  | .checkPending => some .readMessage
  | .sendAck => some .sendAck
  | _ => none

/-- The places behind `mbox_init` and the release. -/
def Pc.started : Pc → Bool
  | .firstSend => true
  | .loopTop => true
  | .checkAcked => true
  | .sendMsg => true
  | .checkPending => true
  | .sendAck => true
  | _ => false

/-- What `main` knows about the call it is in and about its own flags. -/
structure AppOk (a : App) (p : Cpu) : Prop where
  fn : ∀ q, p.main = some q → a.pc.fn = some q.fn
  fits : ∀ q, p.main = some q → q.fills = false
  msg : p.main ≠ none → a.pc = .sendMsg → a.sendMsg = true
  ack : ∀ q, p.main = some q → a.pc = .sendAck → a.sendAck = true ∧ q.ackId = some a.sendAckId
  first : a.pc = .firstSend → a.sendMsg = false
  read : a.sendAck = true → p.readMsg ≠ []

/-- What `main` does when an access has ended a call, or has not. -/
def App.after (a : App) : Option Ret → App
  | none => a
  | some v => a.resume v

/-- The four kinds of step. -/
theorem sysStep_cases {s t : Sys} {l : Turn} (h : sysStep s l = some t) :
    (∃ c, l = .main c ∧ (s.mbox.cpu c).irq = none ∧ (s.mbox.cpu c).main = none ∧
        appStep c s = some t) ∨
      (∃ c p, l = .main c ∧ (s.mbox.cpu c).irq = none ∧ (s.mbox.cpu c).main = some p ∧
        t = ⟨(callStep c s.mbox p).1,
          Function.update s.app c ((s.app c).after (callStep c s.mbox p).2)⟩) ∨
      (∃ c, l = .irq c ∧ (s.mbox.cpu c).irq = none ∧ (s.mbox.cpu c).irqEnabled = true ∧
        t = { s with mbox := s.mbox.gotoIrq c (some .check1) }) ∨
      (∃ c p, l = .handler c ∧ (s.mbox.cpu c).irq = some p ∧
        t = { s with mbox := handlerStep c s.mbox p }) := by
  cases l with
  | main c =>
      simp only [sysStep] at h
      cases hirq : (s.mbox.cpu c).irq with
      | some p =>
          rw [hirq] at h
          cases h
      | none =>
          -- With no driver call under way the core runs its own loop, else the call.
          cases hmain : (s.mbox.cpu c).main with
          | none =>
              rw [hirq, hmain] at h
              exact Or.inl ⟨c, rfl, hirq, hmain, h⟩
          | some p =>
              refine Or.inr (Or.inl ⟨c, p, rfl, hirq, hmain, ?_⟩)
              rw [hirq, hmain] at h
              simp only at h
              cases hcall : callStep c s.mbox p with
              | mk u r =>
                  rw [hcall] at h
                  cases r with
                  | none =>
                      rw [← Option.some.inj h]
                      simp [App.after]
                  | some v => exact (Option.some.inj h).symm
  | irq c =>
      simp only [sysStep] at h
      split_ifs at h with hguard
      · simp only [Bool.and_eq_true, Option.isNone_iff_eq_none] at hguard
        exact Or.inr (Or.inr (Or.inl ⟨c, rfl, hguard.1, hguard.2, (Option.some.inj h).symm⟩))
  | handler c =>
      simp only [sysStep] at h
      cases hirq : (s.mbox.cpu c).irq with
      | none =>
          rw [hirq] at h
          cases h
      | some p =>
          rw [hirq] at h
          exact Or.inr (Or.inr (Or.inr ⟨c, p, rfl, hirq, (Option.some.inj h).symm⟩))

/-- `main` enters the driver from its place, for its reason. -/
structure Enters (a : App) (p : Cpu) (op : Op) : Prop where
  allowed : op.allowed p = true
  fn : a.pc.fn = some op.entry.fn
  fits : op.entry.fills = false
  msg : a.pc = .sendMsg → a.sendMsg = true
  ack : a.pc = .sendAck → a.sendAck = true ∧ op.entry.ackId = some a.sendAckId

/-- `main` moves on with its flags as they are. -/
structure Moves (a a' : App) : Prop where
  started : a'.pc.started = true
  first : a.pc ≠ .firstSend
  first' : a'.pc ≠ .firstSend
  sendMsg : a'.sendMsg = a.sendMsg
  sendAck : a'.sendAck = a.sendAck
  sendAckId : a'.sendAckId = a.sendAckId

theorem length_decimal : ∀ n : BitVec 8, (decimal n).length ≤ 3 := by
  decide +kernel

/-- A message of the applications is far from filling the memory. -/
theorem length_mailText (c : CoreId) (id : BitVec 8) : (mailText c id).length ≤ 40 := by
  have hdec := length_decimal id
  have hgreeting : (mailGreeting c).toList.length = 37 := by cases c <;> decide
  rw [mailText, List.length_append, List.length_map, hgreeting]
  omega

theorem fills_mailText (c : CoreId) (n id : BitVec 8) :
    (Call.sendMessageCheck n (mailText c id)).fills = false := by
  have hlen := length_mailText c id
  simp only [Call.fills, mboxRamSize, beq_eq_false_iff_ne]
  omega

/-- Behind `mbox_init`, `main` enters the driver or moves on. -/
theorem appStep_started {s t : Sys} {c : CoreId} (hpc : (s.app c).pc.started = true)
    (h : appStep c s = some t) :
    (∃ op, t = s.call c op ∧ Enters (s.app c) (s.mbox.cpu c) op) ∨
      ∃ a', t = { s with app := Function.update s.app c a' } ∧ Moves (s.app c) a' := by
  simp only [appStep] at h
  -- Each place of the loop calls the driver, or goes on to the next.
  cases hp : (s.app c).pc with
  | firstSend =>
      rw [hp] at h
      exact Or.inl ⟨_, (Option.some.inj h).symm, rfl, by rw [hp]; rfl, fills_mailText _ _ _,
        fun h' => absurd (hp.symm.trans h') (by simp), fun h' => absurd (hp.symm.trans h') (by simp)⟩
  | loopTop =>
      rw [hp] at h
      exact Or.inr ⟨_, (Option.some.inj h).symm, rfl, by rw [hp]; simp, by simp, rfl, rfl, rfl⟩
  | checkAcked =>
      rw [hp] at h
      simp only at h
      split_ifs at h with hacked
      · exact Or.inl ⟨_, (Option.some.inj h).symm, hacked, by rw [hp]; rfl, rfl,
          fun h' => absurd (hp.symm.trans h') (by simp), fun h' => absurd (hp.symm.trans h') (by simp)⟩
      · exact Or.inr ⟨_, (Option.some.inj h).symm, rfl, by rw [hp]; simp, by simp, rfl, rfl, rfl⟩
  | sendMsg =>
      rw [hp] at h
      simp only at h
      split_ifs at h with hmsg
      · exact Or.inl ⟨_, (Option.some.inj h).symm, rfl, by rw [hp]; rfl, fills_mailText _ _ _,
          fun _ => hmsg, fun h' => absurd (hp.symm.trans h') (by simp)⟩
      · exact Or.inr ⟨_, (Option.some.inj h).symm, rfl, by rw [hp]; simp, by simp, rfl, rfl, rfl⟩
  | checkPending =>
      rw [hp] at h
      simp only at h
      split_ifs at h with hpending
      · exact Or.inl ⟨_, (Option.some.inj h).symm, hpending, by rw [hp]; rfl, rfl,
          fun h' => absurd (hp.symm.trans h') (by simp), fun h' => absurd (hp.symm.trans h') (by simp)⟩
      · exact Or.inr ⟨_, (Option.some.inj h).symm, rfl, by rw [hp]; simp, by simp, rfl, rfl, rfl⟩
  | sendAck =>
      rw [hp] at h
      simp only at h
      split_ifs at h with hack
      · exact Or.inl ⟨_, (Option.some.inj h).symm, rfl, by rw [hp]; rfl, rfl,
          fun h' => absurd (hp.symm.trans h') (by simp), fun _ => ⟨hack, rfl⟩⟩
      · exact Or.inr ⟨_, (Option.some.inj h).symm, rfl, by rw [hp]; simp, by simp, rfl, rfl, rfl⟩
  | _ =>
      rw [hp] at hpc
      cases hpc

/-- Where a status takes `main`, and what it leaves of the flags. -/
theorem resume_status (a : App) (v : Int) (f : Fn) (hfn : a.pc.fn = some f) :
    (a.resume (.status v)).pc ≠ .firstSend ∧
      ((a.resume (.status v)).sendAck = true → a.sendAck = true) := by
  cases hp : a.pc <;> simp only [App.resume, hp] <;> (try split_ifs) <;>
    simp_all [Pc.fn]

/-- Outside the driver there is nothing to say about a call. -/
theorem appOk_outside {a : App} {p : Cpu} (hmain : p.main = none) (hfirst : a.pc ≠ .firstSend)
    (hread : a.sendAck = true → p.readMsg ≠ []) : AppOk a p := by
  refine ⟨?_, ?_, fun hne => absurd hmain hne, ?_, fun hf => absurd hf hfirst, hread⟩
  · intro q hq
    rw [hmain] at hq
    cases hq
  · intro q hq
    rw [hmain] at hq
    cases hq
  · intro q hq
    rw [hmain] at hq
    cases hq

/-- A call that is going on or over leaves `main` knowing what it should. -/
theorem appOk_call {a : App} {cpu cpu' : Cpu} {p : Call} {r : Option Ret} (h : AppOk a cpu)
    (hmain : cpu.main = some p) (ho : Outcome p cpu cpu' r) : AppOk (a.after r) cpu' := by
  have hfn := h.fn p hmain
  cases ho with
  | going q hq hqfn hfills hack hlog =>
      have hread : cpu'.readMsg = cpu.readMsg := congrArg (fun l => l.2.1) hlog
      refine ⟨?_, ?_, ?_, ?_, h.first, ?_⟩
      · intro q' hq'
        rw [hq] at hq'
        rw [← Option.some.inj hq', hqfn]
        exact hfn
      · intro q' hq'
        rw [hq] at hq'
        rw [← Option.some.inj hq', hfills]
      · intro _ hpc
        exact h.msg (by rw [hmain]; simp) hpc
      · intro q' hq' hpc
        rw [hq] at hq'
        rw [← Option.some.inj hq', hack]
        exact h.ack p hmain hpc
      · intro hsend
        rw [hread]
        exact h.read hsend
  | refused v _ _ hnone hlog =>
      have hread : cpu'.readMsg = cpu.readMsg := congrArg (fun l => l.2.1) hlog
      rcases resume_status a v _ hfn with ⟨hpc, hack⟩
      refine appOk_outside hnone hpc (fun hsend => ?_)
      rw [hread]
      exact h.read (hack hsend)
  | sent m _ hnone hlog n =>
      have hread : cpu'.readMsg = cpu.readMsg := congrArg (fun l => l.2.1) hlog
      rcases resume_status a n _ hfn with ⟨hpc, hack⟩
      refine appOk_outside hnone hpc (fun hsend => ?_)
      rw [hread]
      exact h.read (hack hsend)
  | read m _ hnone hlog =>
      have hread : cpu'.readMsg = cpu.readMsg ++ [m] := congrArg (fun l => l.2.1) hlog
      refine appOk_outside hnone (by simp [App.after, App.resume]) (fun _ => ?_)
      rw [hread]
      simp
  | acked id _ _ hnone hlog =>
      have hread : cpu'.readMsg = cpu.readMsg := congrArg (fun l => l.2.1) hlog
      rcases resume_status a 0 _ hfn with ⟨hpc, hack⟩
      refine appOk_outside hnone hpc (fun hsend => ?_)
      rw [hread]
      exact h.read (hack hsend)
  | ackRead id _ hnone hlog =>
      have hread : cpu'.readMsg = cpu.readMsg := congrArg (fun l => l.2.1) hlog
      refine appOk_outside hnone (by simp [App.after, App.resume]) (fun hsend => ?_)
      rw [hread]
      exact h.read hsend

/-- Entering the driver. -/
theorem appOk_enter {a : App} {p : Cpu} {op : Op} (h : AppOk a p) (henter : Enters a p op) :
    AppOk a { p with main := some op.entry } := by
  refine ⟨?_, ?_, fun _ => henter.msg, ?_, h.first, h.read⟩
  · intro q hq
    rw [← Option.some.inj hq]
    exact henter.fn
  · intro q hq
    rw [← Option.some.inj hq]
    exact henter.fits
  · intro q hq hpc
    rw [← Option.some.inj hq]
    exact henter.ack hpc

/-- Moving on outside the driver. -/
theorem appOk_move {a a' : App} {p : Cpu} (h : AppOk a p) (hmain : p.main = none)
    (hmove : Moves a a') : AppOk a' p := by
  refine appOk_outside hmain hmove.first' (fun hsend => ?_)
  rw [hmove.sendAck] at hsend
  exact h.read hsend

/-- What `main` knows depends on the call and on what has been read only. -/
theorem appOk_congr {a : App} {p p' : Cpu} (h : AppOk a p) (hmain : p'.main = p.main)
    (hread : p'.readMsg = p.readMsg) : AppOk a p' :=
  ⟨by rw [hmain]; exact h.fn, by rw [hmain]; exact h.fits, by rw [hmain]; exact h.msg,
    by rw [hmain]; exact h.ack, h.first, by rw [hread]; exact h.read⟩

/-- A call made by an application fits. -/
theorem fits_of_appOk {a : App} {s : State} {c : CoreId} (h : AppOk a (s.cpu c)) : Fits c s := by
  intro hany
  cases hmain : (s.cpu c).main with
  | none =>
      rw [hmain] at hany
      cases hany
  | some q =>
      rw [hmain, Option.any_some, h.fits q hmain] at hany
      cases hany

end Mbox

end Wujian100
