import Wujian100.Theory.Mbox.App

/-!
# Starting the Two Cores

`mbox_init` clears the control words of its own mailbox. Core 0 has done so
before it releases core 1, so nothing core 1 sends can be lost to it. But core 0
does not wait: it releases core 1 and sends, and if its control word is written
before core 1 clears that word, the message is gone although
`mbox_send_message` has returned its length. `first_message_lost` is such a run.

In every other run nothing is lost. Until core 1 has cleared a word, the channel
behind it is raw: core 0 may be preparing a message, and for acknowledgements
not even that, since it has read none to acknowledge. Clearing makes it a
channel, and from then on the invariant of the driver holds.

## Main definitions

* `Pc.cleared0`, `Pc.cleared1`, `Pc.enabled`: How far `mbox_init` has come.
* `Startup`: What both cores keep from power-on.
* `ClearedFirst`: Core 0 posts no message into a word that core 1 is going to
  clear.
* `hastyRun`: Core 0 sends before core 1 has come out of reset.

## Theorems

* `sysStep_startup`: A step that meets the condition keeps the invariant.
* `sysStep_log`: Who writes a record.
* `startup_no_discard`: What was sent has been read or is in the mailbox, and a
  full mark goes away only with the read that takes the message.
* `first_message_lost`: The first message of core 0 can be cleared away.
-/

namespace Wujian100

namespace Mbox

open Slot Run

/-- `mbox_init` has cleared `CTRL_0`. -/
def Pc.cleared0 : Pc → Bool
  | .held => false
  | .initCtrl0 => false
  | _ => true

/-- `mbox_init` has cleared `CTRL_1`. -/
def Pc.cleared1 : Pc → Bool
  | .held => false
  | .initCtrl0 => false
  | .initCtrl1 => false
  | _ => true

/-- `mbox_init` has enabled the interrupt. -/
def Pc.enabled : Pc → Bool
  | .held => false
  | .initCtrl0 => false
  | .initCtrl1 => false
  | .initIrq => false
  | _ => true

/-- A channel that has been cleared, or has not. -/
def Channel (cleared : Bool) (v : Chan (BitVec 32) (BitVec 8) UInt8) : Prop :=
  if cleared then Inv wordLayout v else Raw wordLayout v

/-- Where the two cores can be: core 1 leaves its reset once core 0 is behind
    its start. -/
structure Places (app : CoreId → App) : Prop where
  order : (app .core1).pc ≠ .held → (app .core0).pc.started = true
  core0 : (app .core0).pc ≠ .held
  core1 : (app .core1).pc ≠ .release

/-- What both cores keep from power-on. -/
structure Startup (s : Sys) : Prop where
  message : ∀ r, Channel (s.app r).pc.cleared0 (messageChan r s.mbox)
  ack : ∀ r, Channel (s.app r).pc.cleared1 (ackChan r s.mbox)
  app : ∀ c, AppOk (s.app c) (s.mbox.cpu c)
  quiet : ∀ c, (s.app c).pc.enabled = false →
    (s.mbox.cpu c).irqEnabled = false ∧ (s.mbox.cpu c).irq = none
  fresh : ∀ c, (s.app c).pc.started = false →
    (s.app c).sendMsg = false ∧ (s.app c).sendAck = false ∧ (s.mbox.cpu c).sentMsg = []
  places : Places s.app

theorem started_of_fn {pc : Pc} {f : Fn} (h : pc.fn = some f) : pc.started = true := by
  cases pc <;> first | rfl | cases h

theorem cleared_of_started {pc : Pc} (h : pc.started = true) :
    pc.cleared0 = true ∧ pc.cleared1 = true ∧ pc.enabled = true := by
  cases pc <;> first | exact ⟨rfl, rfl, rfl⟩ | cases h

theorem cleared_of_enabled {pc : Pc} (h : pc.enabled = true) :
    pc.cleared0 = true ∧ pc.cleared1 = true := by
  cases pc <;> first | exact ⟨rfl, rfl⟩ | cases h

/-- A call that writes the control word of a message. -/
def Call.posts : Call → Bool
  | .sendMessageCtrl _ _ => true
  | _ => false

/-- Core 0 posts no message into a word that core 1 is going to clear. -/
def ClearedFirst (s : Sys) : Turn → Prop
  | .main .core0 =>
      (s.mbox.cpu .core0).main.any Call.posts = true → (s.app .core1).pc.cleared0 = true
  | _ => True

instance (s : Sys) : ∀ l, Decidable (ClearedFirst s l)
  | .main .core0 => inferInstanceAs (Decidable (_ → _))
  | .main .core1 => isTrue trivial
  | .irq _ => isTrue trivial
  | .handler _ => isTrue trivial

section Driver

variable {s : Sys} {c : CoreId}

/-- A core whose peer has not been started is core 0. -/
theorem core0_of_unstarted (h : Startup s) (hc : (s.app c).pc.started = true)
    (ho : (s.app c.other).pc.started = false) : c = .core0 := by
  cases c with
  | core0 => rfl
  | core1 =>
      have hne : (s.app .core1).pc ≠ .held := by
        intro hheld
        rw [hheld] at hc
        cases hc
      have hstarted : (s.app .core0).pc.started = true := h.places.order hne
      rw [show (s.app CoreId.core1.other).pc = (s.app .core0).pc from rfl, hstarted] at ho
      cases ho

theorem unstarted_of_uncleared {pc : Pc} (h : pc.cleared0 = false ∨ pc.cleared1 = false) :
    pc.started = false := by
  cases hs : pc.started with
  | false => rfl
  | true =>
      rcases cleared_of_started hs with ⟨h0, h1, _⟩
      rw [h0, h1] at h
      rcases h with h | h <;> cases h

/-- The messages of core `c` to its peer, while `c` is inside the driver. -/
theorem startup_message_other (h : Startup s) {p : Call} {l : Turn} (hl : l = .main c)
    (hmain : (s.mbox.cpu c).main = some p) (hcond : ClearedFirst s l) :
    Channel (s.app c.other).pc.cleared0 (messageChan c.other (callStep c s.mbox p).1) := by
  have hchan := h.message c.other
  have hfits := fits_of_appOk (h.app c)
  unfold Channel at hchan ⊢
  cases hcl : (s.app c.other).pc.cleared0 with
  | true =>
      rw [hcl] at hchan
      exact inv_steps hchan (messageChan_main p hmain hfits)
  | false =>
      rw [hcl] at hchan
      have hcore : c = .core0 := core0_of_unstarted h (started_of_fn ((h.app c).fn p hmain))
        (unstarted_of_uncleared (Or.inl hcl))
      subst hcore
      refine raw_prepares hchan (messageChan_writer p hmain hfits ?_)
      -- A post is ruled out by the condition.
      rintro id buff rfl
      rw [hl] at hcond
      have hdone : (s.app .core1).pc.cleared0 = true := hcond (by rw [hmain]; rfl)
      rw [show (s.app CoreId.core0.other).pc = (s.app .core1).pc from rfl, hdone] at hcl
      cases hcl

/-- The acknowledgements of core `c` to its peer. A peer that has not cleared
    its word has sent nothing, so there is nothing to acknowledge. -/
theorem startup_ack_other (h : Startup s) {p : Call} (hmain : (s.mbox.cpu c).main = some p) :
    Channel (s.app c.other).pc.cleared1 (ackChan c.other (callStep c s.mbox p).1) := by
  have hchan := h.ack c.other
  unfold Channel at hchan ⊢
  cases hcl : (s.app c.other).pc.cleared1 with
  | true =>
      rw [hcl] at hchan
      exact inv_steps hchan (ackChan_main p hmain)
  | false =>
      rw [hcl] at hchan
      refine raw_prepares hchan (ackChan_writer p hmain ?_)
      rintro id rfl
      have hfn := (h.app c).fn _ hmain
      have hpc : (s.app c).pc = .sendAck := by
        cases hp : (s.app c).pc <;> rw [hp] at hfn <;> first | rfl | cases hfn
      have hread := (h.app c).read ((h.app c).ack _ hmain hpc).1
      have hsent := (h.fresh c.other (unstarted_of_uncleared (Or.inr hcl))).2.2
      have hinv : Inv wordLayout (messageChan c s.mbox) := by
        have hmsg := h.message c
        rwa [(cleared_of_started (started_of_fn hfn)).1] at hmsg
      refine hread ?_
      rcases delivered hinv with heq | ⟨m, heq⟩
      · exact heq.symm.trans hsent
      · have hnil : (messageChan c s.mbox).sent = [] := hsent
        rw [hnil] at heq
        simp at heq

theorem ne_held_of_started {pc : Pc} (h : pc.started = true) : pc ≠ .held := by
  rintro rfl
  cases h

theorem ne_release_of_started {pc : Pc} (h : pc.started = true) : pc ≠ .release := by
  rintro rfl
  cases h

/-- Behind its start a core may go where it likes. -/
theorem places_update (h : Startup s) (hc : (s.app c).pc.started = true) {a : App}
    (ha : a.pc.started = true) : Places (Function.update s.app c a) := by
  have hplaces := h.places
  cases c with
  | core0 =>
      refine ⟨fun _ => ?_, ?_, ?_⟩
      · rw [Function.update_self]
        exact ha
      · rw [Function.update_self]
        exact ne_held_of_started ha
      · rw [Function.update_of_ne (by decide)]
        exact hplaces.core1
  | core1 =>
      refine ⟨fun _ => ?_, ?_, ?_⟩
      · rw [Function.update_of_ne (by decide)]
        exact hplaces.order (ne_held_of_started hc)
      · rw [Function.update_of_ne (by decide)]
        exact hplaces.core0
      · rw [Function.update_self]
        exact ne_release_of_started ha

/-- Inside `mbox_init` of core 0, core 1 is held. -/
theorem places_init (h : Startup s) (hheld : (s.app c).pc ≠ .held)
    (hc : (s.app c).pc.started = false) {a : App} (ha : a.pc ≠ .held)
    (hrelease : c = .core1 → a.pc ≠ .release) : Places (Function.update s.app c a) := by
  have hplaces := h.places
  cases c with
  | core0 =>
      refine ⟨fun hne => ?_, ?_, ?_⟩
      · rw [Function.update_of_ne (by decide)] at hne
        have hstarted := hplaces.order hne
        rw [hc] at hstarted
        cases hstarted
      · rw [Function.update_self]
        exact ha
      · rw [Function.update_of_ne (by decide)]
        exact hplaces.core1
  | core1 =>
      refine ⟨fun _ => ?_, ?_, ?_⟩
      · rw [Function.update_of_ne (by decide)]
        exact hplaces.order hheld
      · rw [Function.update_of_ne (by decide)]
        exact hplaces.core0
      · rw [Function.update_self]
        exact hrelease rfl

/-- `main` is behind its start wherever a call takes it. -/
theorem after_started {a : App} {f : Fn} (hfn : a.pc.fn = some f) (r : Option Ret) :
    (a.after r).pc.started = true := by
  cases r with
  | none => exact started_of_fn hfn
  | some v =>
      cases v with
      | status v =>
          cases hp : a.pc <;> simp only [App.after, App.resume, hp] <;> (try split_ifs) <;>
            first | rfl | (rw [hp] at hfn; cases hfn)
      | message m => rfl
      | ack id => rfl

/-- A channel of a core that has been started. -/
theorem inv_message (h : Startup s) (hc : (s.app c).pc.cleared0 = true) :
    Inv wordLayout (messageChan c s.mbox) := by
  have hmsg := h.message c
  rwa [hc] at hmsg

theorem inv_ack (h : Startup s) (hc : (s.app c).pc.cleared1 = true) :
    Inv wordLayout (ackChan c s.mbox) := by
  have hack := h.ack c
  rwa [hc] at hack

/-- What a step of core `c` has to show: the four channels, its own variables,
    and the places of both cores. -/
theorem startup_of_core (h : Startup s) {t : State} {a : App} (happ : AppOk a (t.cpu c))
    (hother : t.cpu c.other = s.mbox.cpu c.other)
    (hmsg : Channel a.pc.cleared0 (messageChan c t))
    (hmsg' : Channel (s.app c.other).pc.cleared0 (messageChan c.other t))
    (hack : Channel a.pc.cleared1 (ackChan c t))
    (hack' : Channel (s.app c.other).pc.cleared1 (ackChan c.other t))
    (hquiet : a.pc.enabled = false → (t.cpu c).irqEnabled = false ∧ (t.cpu c).irq = none)
    (hfresh : a.pc.started = false →
      a.sendMsg = false ∧ a.sendAck = false ∧ (t.cpu c).sentMsg = [])
    (hplaces : Places (Function.update s.app c a)) :
    Startup ⟨t, Function.update s.app c a⟩ := by
  refine ⟨forall_core c ?_ ?_, forall_core c ?_ ?_, forall_core c ?_ ?_, forall_core c ?_ ?_,
    forall_core c ?_ ?_, hplaces⟩
  · simp only [Function.update_self]
    exact hmsg
  · simp only [Function.update_of_ne c.other_ne]
    exact hmsg'
  · simp only [Function.update_self]
    exact hack
  · simp only [Function.update_of_ne c.other_ne]
    exact hack'
  · simp only [Function.update_self]
    exact happ
  · simp only [Function.update_of_ne c.other_ne, hother]
    exact h.app c.other
  · simp only [Function.update_self]
    exact hquiet
  · simp only [Function.update_of_ne c.other_ne, hother]
    exact h.quiet c.other
  · simp only [Function.update_self]
    exact hfresh
  · simp only [Function.update_of_ne c.other_ne, hother]
    exact h.fresh c.other

/-- The core that moves is behind its start: nothing is asked of its interrupt
    or of what it has sent. -/
theorem startup_of_channels (h : Startup s) (hc : (s.app c).pc.started = true) {t : State} {a : App}
    (ha : a.pc.started = true) (happ : AppOk a (t.cpu c))
    (hother : t.cpu c.other = s.mbox.cpu c.other)
    (hmsg : Inv wordLayout (messageChan c t))
    (hmsg' : Channel (s.app c.other).pc.cleared0 (messageChan c.other t))
    (hack : Inv wordLayout (ackChan c t))
    (hack' : Channel (s.app c.other).pc.cleared1 (ackChan c.other t)) :
    Startup ⟨t, Function.update s.app c a⟩ := by
  rcases cleared_of_started ha with ⟨h0, h1, hen⟩
  refine startup_of_core h happ hother ?_ hmsg' ?_ hack' ?_ ?_ (places_update h hc ha)
  · rw [h0]
    exact hmsg
  · rw [h1]
    exact hack
  · intro hnot
    rw [hen] at hnot
    cases hnot
  · intro hnot
    rw [ha] at hnot
    cases hnot

/-- A core goes on inside the driver. -/
theorem startup_call (h : Startup s) {p : Call} {l : Turn} (hl : l = .main c)
    (hmain : (s.mbox.cpu c).main = some p) (hcond : ClearedFirst s l) :
    Startup ⟨(callStep c s.mbox p).1,
      Function.update s.app c ((s.app c).after (callStep c s.mbox p).2)⟩ := by
  have hfn := (h.app c).fn p hmain
  have hstarted := started_of_fn hfn
  rcases cleared_of_started hstarted with ⟨h0, h1, _⟩
  exact startup_of_channels h hstarted (after_started hfn _)
    (appOk_call (h.app c) hmain (callStep_outcome p)) (callStep_frame p).1
    (inv_steps (inv_message h h0) (messageChan_reader p hmain))
    (startup_message_other h hl hmain hcond)
    (inv_steps (inv_ack h h1) (ackChan_reader p hmain (inv_ack h h1)))
    (startup_ack_other h hmain)

/-- A core behind its start enters the driver or moves on. -/
theorem startup_app (h : Startup s) (hstarted : (s.app c).pc.started = true)
    (hmain : (s.mbox.cpu c).main = none) {t : Sys} (hstep : appStep c s = some t) :
    Startup t := by
  rcases cleared_of_started hstarted with ⟨h0, h1, _⟩
  rcases appStep_started hstarted hstep with ⟨op, rfl, henter⟩ | ⟨a', rfl, hmove⟩
  · have hself : (⟨s.mbox.goto c op.entry, Function.update s.app c (s.app c)⟩ : Sys)
        = s.call c op := by
      rw [Function.update_eq_self]
      rfl
    rw [← hself]
    refine startup_of_channels h hstarted hstarted ?_ ?_ ?_ ?_ ?_ ?_
    · rw [goto_cpu_self]
      exact appOk_enter (h.app c) henter
    · simp only [State.goto, setCpu_other]
    · exact inv_steps (inv_message h h0) (messageChan_entry op hmain henter.allowed)
    · rw [messageChan_entry_other op hmain]
      exact h.message c.other
    · exact inv_steps (inv_ack h h1) (ackChan_entry op hmain henter.allowed)
    · rw [ackChan_entry_other op hmain]
      exact h.ack c.other
  · exact startup_of_channels h hstarted hmove.started (appOk_move (h.app c) hmain hmove) rfl
      (inv_message h h0) (h.message c.other) (inv_ack h h1) (h.ack c.other)

/-- A core that is not started is outside the driver. -/
theorem unstarted_main (h : Startup s) (hc : (s.app c).pc.started = false) :
    (s.mbox.cpu c).main = none := by
  cases hmain : (s.mbox.cpu c).main with
  | none => rfl
  | some p =>
      have hstarted := started_of_fn ((h.app c).fn p hmain)
      rw [hc] at hstarted
      cases hstarted

/-- Inside `mbox_init`, `main` knows as little at one place as at another. -/
theorem appOk_init (h : Startup s) (hc : (s.app c).pc.started = false) (pc : Pc) {p : Cpu}
    (hp : p.main = none) : AppOk { s.app c with pc := pc } p := by
  rcases h.fresh c hc with ⟨hmsg, hack, _⟩
  refine ⟨?_, ?_, fun hne => absurd hp hne, ?_, fun _ => hmsg, ?_⟩
  · intro q hq
    rw [hp] at hq
    cases hq
  · intro q hq
    rw [hp] at hq
    cases hq
  · intro q hq
    rw [hp] at hq
    cases hq
  · intro hsend
    rw [show ({ s.app c with pc := pc } : App).sendAck = (s.app c).sendAck from rfl, hack] at hsend
    cases hsend

/-- `MBOX_L_CTRL_0_REG = 0x00000000`. -/
theorem startup_initCtrl0 (h : Startup s) (hpc : (s.app c).pc = .initCtrl0) :
    Startup ({ s with
      mbox := s.mbox.setBox c { s.mbox.box c with ctrl0 := 0 } }.setPc c .initCtrl1) := by
  have hun : (s.app c).pc.started = false := by rw [hpc]; rfl
  have hmain := unstarted_main h hun
  have hmsg : Raw wordLayout (messageChan c s.mbox) := by
    have hmsg := h.message c
    rwa [hpc] at hmsg
  have hack : Raw wordLayout (ackChan c s.mbox) := by
    have hack := h.ack c
    rwa [hpc] at hack
  set box := { s.mbox.box c with ctrl0 := 0 } with hbox
  have hchan : messageChan c (s.mbox.setBox c box)
      = { messageChan c s.mbox with word := wordLayout.zero } := by
    simp [messageChan, hbox, wordLayout]
  have hother : messageChan c.other (s.mbox.setBox c box) = messageChan c.other s.mbox := by
    simp [messageChan]
  have hackChan : ∀ r, ackChan r (s.mbox.setBox c box) = ackChan r s.mbox :=
    forall_core c (by simp [ackChan, hbox]) (by simp [ackChan])
  refine startup_of_core h (appOk_init h hun _ hmain) rfl ?_ ?_ ?_ ?_
    (fun _ => h.quiet c (by rw [hpc]; rfl)) (fun _ => h.fresh c hun)
    (places_init h (by rw [hpc]; simp) hun (by simp) (by simp))
  · exact hchan ▸ inv_of_raw hmsg
  · exact hother ▸ h.message c.other
  · exact hackChan c ▸ hack
  · exact hackChan c.other ▸ h.ack c.other

/-- `MBOX_L_CTRL_1_REG = 0x00000000`. -/
theorem startup_initCtrl1 (h : Startup s) (hpc : (s.app c).pc = .initCtrl1) :
    Startup ({ s with
      mbox := s.mbox.setBox c { s.mbox.box c with ctrl1 := 0 } }.setPc c .initIrq) := by
  have hun : (s.app c).pc.started = false := by rw [hpc]; rfl
  have hmain := unstarted_main h hun
  have hmsg : Inv wordLayout (messageChan c s.mbox) := inv_message h (by rw [hpc]; rfl)
  have hack : Raw wordLayout (ackChan c s.mbox) := by
    have hack := h.ack c
    rwa [hpc] at hack
  set box := { s.mbox.box c with ctrl1 := 0 } with hbox
  have hchan : ackChan c (s.mbox.setBox c box)
      = { ackChan c s.mbox with word := wordLayout.zero } := by
    simp [ackChan, hbox, wordLayout]
  have hother : ackChan c.other (s.mbox.setBox c box) = ackChan c.other s.mbox := by
    simp [ackChan]
  have hmsgChan : ∀ r, messageChan r (s.mbox.setBox c box) = messageChan r s.mbox :=
    forall_core c (by simp [messageChan, hbox]) (by simp [messageChan])
  refine startup_of_core h (appOk_init h hun _ hmain) rfl ?_ ?_ ?_ ?_
    (fun _ => h.quiet c (by rw [hpc]; rfl)) (fun _ => h.fresh c hun)
    (places_init h (by rw [hpc]; simp) hun (by simp) (by simp))
  · exact hmsgChan c ▸ hmsg
  · exact hmsgChan c.other ▸ h.message c.other
  · exact hchan ▸ inv_of_raw hack
  · exact hother ▸ h.ack c.other

/-- `drv_irq_enable`, and on to the release or to the first message. -/
theorem startup_initIrq (h : Startup s) (hpc : (s.app c).pc = .initIrq) (next : Pc)
    (hnext : next.enabled = true) (hrelease : c = .core1 → next ≠ .release) :
    Startup ({ s with
      mbox := s.mbox.setCpu c { s.mbox.cpu c with irqEnabled := true } }.setPc c next) := by
  have hun : (s.app c).pc.started = false := by rw [hpc]; rfl
  have hmain := unstarted_main h hun
  have hmsg : Inv wordLayout (messageChan c s.mbox) := inv_message h (by rw [hpc]; rfl)
  have hack : Inv wordLayout (ackChan c s.mbox) := inv_ack h (by rw [hpc]; rfl)
  rcases cleared_of_enabled hnext with ⟨h0, h1⟩
  set cpu := { s.mbox.cpu c with irqEnabled := true } with hcpu
  have hmsgChan : ∀ r, messageChan r (s.mbox.setCpu c cpu) = messageChan r s.mbox :=
    forall_core c (by simp [messageChan, hcpu]) (by simp [messageChan, hcpu])
  have hackChan : ∀ r, ackChan r (s.mbox.setCpu c cpu) = ackChan r s.mbox :=
    forall_core c (by simp [ackChan, hcpu]) (by simp [ackChan, hcpu])
  refine startup_of_core h (appOk_init h hun _ ?_) (setCpu_other cpu) ?_ ?_ ?_ ?_ ?_ ?_ ?_
  · rw [setCpu_self]
    exact hmain
  · rw [hmsgChan c]
    exact h0 ▸ hmsg
  · exact hmsgChan c.other ▸ h.message c.other
  · rw [hackChan c]
    exact h1 ▸ hack
  · exact hackChan c.other ▸ h.ack c.other
  · intro hnot
    exact absurd (hnext.symm.trans hnot) (by simp)
  · intro _
    rw [setCpu_self]
    exact h.fresh c hun
  · refine places_init h (by rw [hpc]; simp) hun ?_ hrelease
    rintro rfl
    cases hnext

/-- `pmu_set_reset(1)`: core 0 goes on to its first message, and core 1 comes
    out of reset. -/
theorem startup_release (h : Startup s) (hpc : (s.app .core0).pc = .release) :
    Startup ((s.setPc .core1 .initCtrl0).setPc .core0 .firstSend) := by
  have hun : (s.app .core0).pc.started = false := by rw [hpc]; rfl
  have hheld : (s.app .core1).pc = .held := by
    by_contra hne
    have hstarted := h.places.order hne
    rw [hun] at hstarted
    cases hstarted
  -- The two updates commute; core 0 goes first, so that the order is kept.
  have hfirst : Startup (s.setPc .core0 .firstSend) := by
    refine startup_of_core h (appOk_init h hun _ (unstarted_main h hun)) rfl ?_
      (h.message .core1) ?_ (h.ack .core1) nofun nofun ?_
    · have hmsg := h.message .core0
      rwa [hpc] at hmsg
    · have hack := h.ack .core0
      rwa [hpc] at hack
    · exact places_init h (by rw [hpc]; simp) hun (by simp) (by simp)
  have happ1 : (s.setPc .core0 .firstSend).app .core1 = s.app .core1 := rfl
  have hun1 : ((s.setPc .core0 .firstSend).app .core1).pc.started = false := by
    rw [happ1, hheld]
    rfl
  have hcomm : (s.setPc .core1 .initCtrl0).setPc .core0 .firstSend
      = (s.setPc .core0 .firstSend).setPc .core1 .initCtrl0 := by
    simp only [Sys.setPc]
    rw [Function.update_of_ne (by decide), Function.update_of_ne (by decide),
      Function.update_comm (by decide)]
  rw [hcomm]
  refine startup_of_core hfirst (appOk_init hfirst hun1 _ (unstarted_main hfirst hun1)) rfl ?_
    (hfirst.message .core0) ?_ (hfirst.ack .core0) ?_ (fun _ => hfirst.fresh .core1 hun1) ?_
  · have hmsg := hfirst.message .core1
    rwa [happ1, hheld] at hmsg
  · have hack := hfirst.ack .core1
    rwa [happ1, hheld] at hack
  · intro _
    exact hfirst.quiet .core1 (by rw [happ1, hheld]; rfl)
  · exact ⟨fun _ => rfl, nofun, nofun⟩

/-- A core is interrupted, or its handler goes on: its main line and its
    variables stay as they are. -/
theorem startup_thread (h : Startup s) {t : State} (hc : (s.app c).pc.enabled = true)
    (hother : t.cpu c.other = s.mbox.cpu c.other) (hmain : (t.cpu c).main = (s.mbox.cpu c).main)
    (hlog : (t.cpu c).log = (s.mbox.cpu c).log)
    (hmsg : Inv wordLayout (messageChan c t))
    (hmsg' : messageChan c.other t = messageChan c.other s.mbox)
    (hack : Inv wordLayout (ackChan c t))
    (hack' : ackChan c.other t = ackChan c.other s.mbox) : Startup { s with mbox := t } := by
  rcases cleared_of_enabled hc with ⟨h0, h1⟩
  simp only [Cpu.log, Prod.mk.injEq] at hlog
  have hself : ({ s with mbox := t } : Sys) = ⟨t, Function.update s.app c (s.app c)⟩ := by
    rw [Function.update_eq_self]
  rw [hself]
  refine startup_of_core h (appOk_congr (h.app c) hmain hlog.2.1) hother ?_ ?_ ?_ ?_ ?_ ?_ ?_
  · rw [h0]
    exact hmsg
  · exact hmsg' ▸ h.message c.other
  · rw [h1]
    exact hack
  · exact hack' ▸ h.ack c.other
  · intro hnot
    rw [hc] at hnot
    cases hnot
  · rw [hlog.1]
    exact h.fresh c
  · rw [Function.update_eq_self]
    exact h.places

/-- The interrupt is live only behind its enable. -/
theorem enabled_of_live (h : Startup s)
    (hlive : (s.mbox.cpu c).irqEnabled = true ∨ (s.mbox.cpu c).irq ≠ none) :
    (s.app c).pc.enabled = true := by
  cases hen : (s.app c).pc.enabled with
  | true => rfl
  | false =>
      rcases h.quiet c hen with ⟨hoff, hnone⟩
      rcases hlive with hon | hsome
      · rw [hoff] at hon
        cases hon
      · exact absurd hnone hsome

/-- A step of `main` outside the driver. -/
theorem startup_main (h : Startup s) (hmain : (s.mbox.cpu c).main = none) {t : Sys}
    (hstep : appStep c s = some t) : Startup t := by
  by_cases hstarted : (s.app c).pc.started = true
  · exact startup_app h hstarted hmain hstep
  · simp only [appStep] at hstep
    cases hpc : (s.app c).pc with
    | held =>
        rw [hpc] at hstep
        cases hstep
    | initCtrl0 =>
        rw [hpc] at hstep
        rw [← Option.some.inj hstep]
        exact startup_initCtrl0 h hpc
    | initCtrl1 =>
        rw [hpc] at hstep
        rw [← Option.some.inj hstep]
        exact startup_initCtrl1 h hpc
    | initIrq =>
        rw [hpc] at hstep
        rw [← Option.some.inj hstep]
        cases c with
        | core0 => exact startup_initIrq h hpc .release rfl (by simp)
        | core1 => exact startup_initIrq h hpc .firstSend rfl (by simp)
    | release =>
        rw [hpc] at hstep
        rw [← Option.some.inj hstep]
        cases c with
        | core0 => exact startup_release h hpc
        | core1 => exact absurd hpc h.places.core1
    | _ =>
        rw [hpc] at hstarted
        exact absurd rfl hstarted

end Driver

/-- A step that meets the condition keeps the invariant. -/
theorem sysStep_startup (s : Sys) (l : Turn) (t : Sys) (h : Startup s) (hcond : ClearedFirst s l)
    (hstep : sysStep s l = some t) : Startup t := by
  rcases sysStep_cases hstep with ⟨c, _, _, hmain, happ⟩ | ⟨c, p, hl, _, hmain, rfl⟩ |
    ⟨c, _, hirq, hon, rfl⟩ | ⟨c, p, _, hirq, rfl⟩
  · exact startup_main h hmain happ
  · exact startup_call h hl hmain hcond
  · have hen := enabled_of_live h (Or.inl hon)
    rcases cleared_of_enabled hen with ⟨h0, h1⟩
    refine startup_thread h hen ?_ ?_ ?_ ?_ (messageChan_irq hirq c.other) ?_
      (ackChan_irq hirq c.other)
    · simp [State.gotoIrq]
    · simp [State.gotoIrq]
    · simp [State.gotoIrq, Cpu.log]
    · rw [messageChan_irq hirq c]
      exact inv_message h h0
    · rw [ackChan_irq hirq c]
      exact inv_ack h h1
  · have hen := enabled_of_live h (Or.inr (by rw [hirq]; simp))
    rcases cleared_of_enabled hen with ⟨h0, h1⟩
    rcases handlerStep_frame (s := s.mbox) (c := c) p with ⟨hother, hsame, hlog, _⟩
    exact startup_thread h hen hother hsame hlog
      (inv_steps (inv_message h h0) (messageChan_handler p hirq)) (messageChan_handler_other p)
      (inv_steps (inv_ack h h1) (ackChan_handler p hirq)) (ackChan_handler_other p)

/-- At power-on no word has been cleared and nobody has moved. -/
theorem powerOn_startup (box : CoreId → Mailbox) : Startup (.powerOn box) := by
  have hmsg : ∀ r, Raw wordLayout (messageChan r (Sys.powerOn box).mbox) :=
    fun _ => ⟨rfl, rfl, rfl, rfl, rfl, trivial⟩
  have hack : ∀ r, Raw wordLayout (ackChan r (Sys.powerOn box).mbox) :=
    fun _ => ⟨rfl, rfl, rfl, rfl, rfl, trivial⟩
  refine ⟨forall_core .core0 (hmsg _) (hmsg _), forall_core .core0 (hack _) (hack _), fun c => ?_,
    fun _ _ => ⟨rfl, rfl⟩, fun _ _ => ⟨rfl, rfl, rfl⟩, ?_⟩
  · exact ⟨nofun, nofun, fun hne => absurd rfl hne, nofun, fun _ => rfl, nofun⟩
  · exact ⟨fun hne => absurd rfl hne, nofun, nofun⟩

/-- A step of `main` outside the driver writes no record. -/
theorem appStep_log {s t : Sys} {c : CoreId} (h : appStep c s = some t) (r : CoreId) :
    (t.mbox.cpu r).log = (s.mbox.cpu r).log := by
  -- Entering a call logs nothing.
  have hgoto : ∀ op : Op, ((s.mbox.goto c op.entry).cpu r).log = (s.mbox.cpu r).log := by
    intro op
    rcases eq_or_other c r with rfl | rfl
    · simp [Cpu.log]
    · simp [State.goto]
  simp only [appStep] at h
  split at h
  · cases h
  · rw [← Option.some.inj h]
    rfl
  · rw [← Option.some.inj h]
    rfl
  · rw [← Option.some.inj h]
    simp only [Sys.setPc]
    rcases eq_or_other c r with rfl | rfl
    · simp [Cpu.log]
    · simp
  · rw [← Option.some.inj h]
    rfl
  · rw [← Option.some.inj h]
    exact hgoto _
  · rw [← Option.some.inj h]
  · split_ifs at h
    · rw [← Option.some.inj h]
      exact hgoto _
    · rw [← Option.some.inj h]
      rfl
  · split_ifs at h
    · rw [← Option.some.inj h]
      exact hgoto _
    · rw [← Option.some.inj h]
      rfl
  · split_ifs at h
    · rw [← Option.some.inj h]
      exact hgoto _
    · rw [← Option.some.inj h]
      rfl
  · split_ifs at h
    · rw [← Option.some.inj h]
      exact hgoto _
    · rw [← Option.some.inj h]
      rfl

/-- Only a core's own main line, inside the driver, writes its record. -/
theorem sysStep_log {s t : Sys} {l : Turn} (h : sysStep s l = some t) (r : CoreId) :
    (t.mbox.cpu r).log = (s.mbox.cpu r).log ∨
      ∃ p, l = .main r ∧ (s.mbox.cpu r).main = some p ∧ t.mbox = (callStep r s.mbox p).1 := by
  rcases sysStep_cases h with ⟨c, _, _, _, happ⟩ | ⟨c, p, hl, _, hmain, rfl⟩ |
    ⟨c, _, _, _, rfl⟩ | ⟨c, p, _, _, rfl⟩
  · exact Or.inl (appStep_log happ r)
  · rcases eq_or_other c r with rfl | rfl
    · exact Or.inr ⟨p, hl, hmain, rfl⟩
    · exact Or.inl (by rw [(callStep_frame p).1])
  · refine Or.inl ?_
    rcases eq_or_other c r with rfl | rfl
    · simp [State.gotoIrq, Cpu.log]
    · simp [State.gotoIrq]
  · rcases handlerStep_frame (s := s.mbox) (c := c) p with ⟨hother, _, hlog, _⟩
    refine Or.inl ?_
    rcases eq_or_other c r with rfl | rfl
    · exact hlog
    · rw [hother]

/-- Records only grow. -/
theorem sysStep_sent {s t : Sys} {l : Turn} (h : sysStep s l = some t) (r : CoreId) :
    (s.mbox.cpu r).sentMsg <+: (t.mbox.cpu r).sentMsg ∧
      (s.mbox.cpu r).sentAck <+: (t.mbox.cpu r).sentAck := by
  rcases sysStep_log h r with hlog | ⟨p, _, _, ht⟩
  · simp only [Cpu.log, Prod.mk.injEq] at hlog
    rw [hlog.1, hlog.2.2.1]
    exact ⟨List.prefix_refl _, List.prefix_refl _⟩
  · have ho := callStep_outcome (s := s.mbox) (c := r) p
    rw [← ht] at ho
    generalize (callStep r s.mbox p).2 = ret at ho
    cases ho with
    | going q _ _ _ _ hlog =>
        simp only [Cpu.log, Prod.mk.injEq] at hlog
        rw [hlog.1, hlog.2.2.1]
        exact ⟨List.prefix_refl _, List.prefix_refl _⟩
    | refused v _ _ _ hlog =>
        simp only [Cpu.log, Prod.mk.injEq] at hlog
        rw [hlog.1, hlog.2.2.1]
        exact ⟨List.prefix_refl _, List.prefix_refl _⟩
    | sent m _ _ hlog _ =>
        simp only [Cpu.log, Prod.mk.injEq] at hlog
        rw [hlog.1, hlog.2.2.1]
        exact ⟨List.prefix_append _ _, List.prefix_refl _⟩
    | read m _ _ hlog =>
        simp only [Cpu.log, Prod.mk.injEq] at hlog
        rw [hlog.1, hlog.2.2.1]
        exact ⟨List.prefix_refl _, List.prefix_refl _⟩
    | acked id _ _ _ hlog =>
        simp only [Cpu.log, Prod.mk.injEq] at hlog
        rw [hlog.1, hlog.2.2.1]
        exact ⟨List.prefix_refl _, List.prefix_append _ _⟩
    | ackRead id _ _ hlog =>
        simp only [Cpu.log, Prod.mk.injEq] at hlog
        rw [hlog.1, hlog.2.2.1]
        exact ⟨List.prefix_refl _, List.prefix_refl _⟩

/-- The last access of `mbox_read_message` is the one that records a message,
    and the last of `mbox_read_ack` the one that records an acknowledgement. -/
theorem callStep_read (s : State) (c : CoreId) (p : Call) :
    (((callStep c s p).1.cpu c).readMsg = (s.cpu c).readMsg ∨
        ∃ m w, p = .readMessageStore m w ∧
          ((callStep c s p).1.cpu c).readMsg = (s.cpu c).readMsg ++ [m]) ∧
      (((callStep c s p).1.cpu c).readAck = (s.cpu c).readAck ∨
        ∃ id w, p = .readAckStore id w ∧
          ((callStep c s p).1.cpu c).readAck = (s.cpu c).readAck ++ [id]) := by
  cases p <;> simp only [callStep] <;> (try split_ifs) <;> (try split) <;> simp

/-- If the full mark of a channel with an unread message has gone, the message
    has been read. -/
theorem read_of_unmarked {b b' : Bool} {v v' : Chan (BitVec 32) (BitVec 8) UInt8}
    (hv : Channel b v) (hv' : Channel b' v') (hne : v.sent ≠ v.read)
    (hfull : isFull v'.word = false) (hmono : v.sent <+: v'.sent) :
    v'.read = v'.sent ∧ v'.read ≠ v.read := by
  have hinv : Inv wordLayout v := by
    cases b with
    | true => exact hv
    | false =>
        have hraw : Raw wordLayout v := hv
        exact absurd (hraw.sent.trans hraw.read.symm) hne
  rcases hinv with hempty | ⟨m, hm⟩
  · exact absurd hempty.read.symm hne
  · have hlen := hmono.length_le
    rw [hm.sent, List.length_append, List.length_singleton] at hlen
    have hempty : Empty wordLayout v' := by
      cases b' with
      | true =>
          rcases hv' with hempty | ⟨m', hm'⟩
          · exact hempty
          · have hmark : isFull v'.word = true := hm'.full
            rw [hfull] at hmark
            cases hmark
      | false =>
          have hraw : Raw wordLayout v' := hv'
          rw [hraw.sent, List.length_nil] at hlen
          omega
    refine ⟨hempty.read, fun heq => ?_⟩
    rw [← hempty.read, heq] at hlen
    omega

/-- What the other core has sent has been read by core `r`, or is the one
    message, and the one acknowledgement, that its mailbox holds. -/
structure Kept (s : Sys) (r : CoreId) : Prop where
  message : (s.mbox.cpu r.other).sentMsg = (s.mbox.cpu r).readMsg ∨
    ∃ m, (s.mbox.cpu r.other).sentMsg = (s.mbox.cpu r).readMsg ++ [m] ∧
      isFull (s.mbox.box r).ctrl0 = true ∧ wordId (s.mbox.box r).ctrl0 = m.tag ∧
      wordSize (s.mbox.box r).ctrl0 = m.payload.length ∧
      ∀ i b, m.payload[i]? = some b → (s.mbox.box r).data i = b
  ack : (s.mbox.cpu r.other).sentAck = (s.mbox.cpu r).readAck ∨
    ∃ id, (s.mbox.cpu r.other).sentAck = (s.mbox.cpu r).readAck ++ [id] ∧
      isFull (s.mbox.box r).ctrl1 = true ∧ wordId (s.mbox.box r).ctrl1 = id

/-- A full mark that the other core has set goes away with the access that ends
    the read of what it marks. -/
structure TakenByRead (s : Sys) (l : Turn) (t : Sys) (r : CoreId) : Prop where
  message : (s.mbox.cpu r.other).sentMsg ≠ (s.mbox.cpu r).readMsg →
    isFull (t.mbox.box r).ctrl0 = false →
    l = .main r ∧ ∃ m w, (s.mbox.cpu r).main = some (.readMessageStore m w) ∧
      (s.mbox.cpu r.other).sentMsg = (s.mbox.cpu r).readMsg ++ [m]
  ack : (s.mbox.cpu r.other).sentAck ≠ (s.mbox.cpu r).readAck →
    isFull (t.mbox.box r).ctrl1 = false →
    l = .main r ∧ ∃ id w, (s.mbox.cpu r).main = some (.readAckStore id w) ∧
      (s.mbox.cpu r.other).sentAck = (s.mbox.cpu r).readAck ++ [id]

/-- The messages to core `r` are kept. -/
theorem kept_message {s : Sys} (h : Startup s) (r : CoreId) :
    (s.mbox.cpu r.other).sentMsg = (s.mbox.cpu r).readMsg ∨
      ∃ m, (s.mbox.cpu r.other).sentMsg = (s.mbox.cpu r).readMsg ++ [m] ∧
        isFull (s.mbox.box r).ctrl0 = true ∧ wordId (s.mbox.box r).ctrl0 = m.tag ∧
        wordSize (s.mbox.box r).ctrl0 = m.payload.length ∧
        ∀ i b, m.payload[i]? = some b → (s.mbox.box r).data i = b := by
  have hchan := h.message r
  cases hcl : (s.app r).pc.cleared0 with
  | false =>
      rw [hcl] at hchan
      have hraw : Raw wordLayout (messageChan r s.mbox) := hchan
      exact Or.inl (hraw.sent.trans hraw.read.symm)
  | true =>
      rcases inv_message h hcl with hempty | ⟨m, hfull⟩
      · exact Or.inl hempty.read.symm
      · refine Or.inr ⟨m, hfull.sent, hfull.full, hfull.tag, hfull.size.trans hfull.len, ?_⟩
        intro i b hb
        have hi : i < m.payload.length := by
          by_contra hge
          rw [List.getElem?_eq_none (Nat.not_lt.mp hge)] at hb
          cases hb
        exact hfull.ram i b (hfull.len ▸ hi) hb

/-- The acknowledgements to core `r` are kept. -/
theorem kept_ack {s : Sys} (h : Startup s) (r : CoreId) :
    (s.mbox.cpu r.other).sentAck = (s.mbox.cpu r).readAck ∨
      ∃ id, (s.mbox.cpu r.other).sentAck = (s.mbox.cpu r).readAck ++ [id] ∧
        isFull (s.mbox.box r).ctrl1 = true ∧ wordId (s.mbox.box r).ctrl1 = id := by
  have hinj := List.map_injective_iff.mpr ackMsg_injective
  have hchan := h.ack r
  cases hcl : (s.app r).pc.cleared1 with
  | false =>
      rw [hcl] at hchan
      have hraw : Raw wordLayout (ackChan r s.mbox) := hchan
      exact Or.inl (hinj (hraw.sent.trans hraw.read.symm))
  | true =>
      rcases inv_ack h hcl with hempty | ⟨m, hfull⟩
      · exact Or.inl (hinj hempty.read.symm)
      · have hsent : (s.mbox.cpu r.other).sentAck.map ackMsg
            = (s.mbox.cpu r).readAck.map ackMsg ++ [m] := hfull.sent
        have htag := congrArg (List.map Msg.tag) hsent
        simp only [List.map_append, List.map_map, List.map_cons, List.map_nil] at htag
        have hid : Msg.tag ∘ ackMsg = id := rfl
        rw [hid, List.map_id, List.map_id] at htag
        exact Or.inr ⟨m.tag, htag, hfull.full, hfull.tag⟩

/-- A step takes a full mark away by reading only. -/
theorem step_takenByRead {s t : Sys} {l : Turn} (h : Startup s) (h' : Startup t)
    (hstep : sysStep s l = some t) (r : CoreId) : TakenByRead s l t r := by
  have hmono := sysStep_sent hstep r.other
  refine ⟨fun hne hfull => ?_, fun hne hfull => ?_⟩
  · rcases read_of_unmarked (h.message r) (h'.message r) hne hfull hmono.1 with ⟨hall, hread⟩
    have hall' : (t.mbox.cpu r).readMsg = (t.mbox.cpu r.other).sentMsg := hall
    have hread' : (t.mbox.cpu r).readMsg ≠ (s.mbox.cpu r).readMsg := hread
    rcases sysStep_log hstep r with hlog | ⟨p, hl, hmain, ht⟩
    · exact absurd (congrArg (fun x => x.2.1) hlog) hread'
    · rcases (callStep_read s.mbox r p).1 with hsame | ⟨m, w, rfl, hmore⟩
      · rw [ht] at hread'
        exact absurd hsame hread'
      · refine ⟨hl, m, w, hmain, ?_⟩
        rw [ht, hmore, (callStep_frame _).1] at hall'
        exact hall'.symm
  · have hne' : (ackChan r s.mbox).sent ≠ (ackChan r s.mbox).read :=
      fun heq => hne (List.map_injective_iff.mpr ackMsg_injective heq)
    rcases read_of_unmarked (h.ack r) (h'.ack r) hne' hfull (hmono.2.map _) with ⟨hall, hread⟩
    have hall' : (t.mbox.cpu r).readAck = (t.mbox.cpu r.other).sentAck :=
      List.map_injective_iff.mpr ackMsg_injective hall
    have hread' : (t.mbox.cpu r).readAck ≠ (s.mbox.cpu r).readAck :=
      fun heq => hread (congrArg (List.map ackMsg) heq)
    rcases sysStep_log hstep r with hlog | ⟨p, hl, hmain, ht⟩
    · exact absurd (congrArg (fun x => x.2.2.2) hlog) hread'
    · rcases (callStep_read s.mbox r p).2 with hsame | ⟨id, w, rfl, hmore⟩
      · rw [ht] at hread'
        exact absurd hsame hread'
      · refine ⟨hl, id, w, hmain, ?_⟩
        rw [ht, hmore, (callStep_frame _).1] at hall'
        exact hall'.symm

/-- In every start-up in which core 0 posts no message into a word core 1 is
    going to clear, nothing that was sent is discarded: it has been read or is
    in the mailbox, and what marks it full goes away with its read only. -/
theorem startup_no_discard (box : CoreId → Mailbox) (ls : List Turn) (s : Sys)
    (hrun : run sysStep (.powerOn box) ls = some s)
    (hcond : Along sysStep ClearedFirst (.powerOn box) ls) (r : CoreId) :
    Kept s r ∧
      ∀ l t, ClearedFirst s l → sysStep s l = some t → TakenByRead s l t r := by
  have h : Startup s := run_inv sysStep_startup ls _ s (powerOn_startup box) hcond hrun
  refine ⟨⟨kept_message h r, kept_ack h r⟩, fun l t hl ht => ?_⟩
  exact step_takenByRead h (sysStep_startup s l t h hl ht) ht r

/-- Power-on with cleared mailboxes. -/
def clean : Sys := .powerOn fun _ => { ctrl0 := 0, ctrl1 := 0, data := fun _ => 0 }

/-- Core 0 starts, core 1 initializes its mailbox, core 0 sends. -/
def patientRun : List Turn :=
  List.replicate 4 (.main .core0) ++ List.replicate 3 (.main .core1) ++
    List.replicate 44 (.main .core0)

/-- The message of core 0 is in the mailbox of core 1. -/
theorem startup_no_discard_patient :
    ∃ s, run sysStep clean patientRun = some s ∧
      (s.mbox.cpu .core0).sentMsg.map Msg.tag = [100] ∧ isFull (s.mbox.box .core1).ctrl0 = true ∧
      Kept s .core1 := by
  have hsent : (run sysStep clean patientRun).map
      (fun s => ((s.mbox.cpu .core0).sentMsg.map Msg.tag, isFull (s.mbox.box .core1).ctrl0))
      = some ([100], true) := by decide +kernel
  rcases Option.map_eq_some_iff.mp hsent with ⟨s, hrun, hs⟩
  rw [Prod.mk.injEq] at hs
  refine ⟨s, hrun, hs.1, hs.2, ?_⟩
  exact (startup_no_discard _ patientRun s hrun (by decide +kernel) .core1).1

/-- Core 0 starts and sends, then core 1 clears its first word. -/
def hastyRun : List Turn := List.replicate 48 (.main .core0) ++ [.main .core1]

/-- The message of core 0 was accepted, has not been read, and is gone. -/
theorem first_message_lost :
    ∃ s, run sysStep clean hastyRun = some s ∧
      (s.mbox.cpu .core0).sentMsg.map Msg.tag = [100] ∧ (s.mbox.cpu .core1).readMsg = [] ∧
      isFull (s.mbox.box .core1).ctrl0 = false ∧ ¬ Kept s .core1 := by
  have hsent : (run sysStep clean hastyRun).map
      (fun s => ((s.mbox.cpu .core0).sentMsg.map Msg.tag, (s.mbox.cpu .core1).readMsg,
        isFull (s.mbox.box .core1).ctrl0)) = some ([100], [], false) := by decide +kernel
  rcases Option.map_eq_some_iff.mp hsent with ⟨s, hrun, hs⟩
  rw [Prod.mk.injEq, Prod.mk.injEq] at hs
  rcases hs with ⟨htags, hread, hfull⟩
  refine ⟨s, hrun, htags, hread, hfull, fun hkept => ?_⟩
  rcases hkept.message with heq | ⟨m, _, hmark, _⟩
  · have hnil : (s.mbox.cpu .core0).sentMsg = [] := heq.trans hread
    rw [hnil] at htags
    cases htags
  · rw [hfull] at hmark
    cases hmark

end Mbox

end Wujian100
