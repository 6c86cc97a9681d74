import Wujian100.Theory.Driver.UsiIic

/-!
# I2C Transfers That Get On

A transfer that never goes wrong still has to come to its end. The bus and the interrupts are the
ones to bring that about, and the drivers never leave them without something to do: a handler is
through after a bounded number of accesses, what it finds room for it writes, and it does not
return with all FIFOs empty before the last byte.

## Main definitions

* `IicSend.GetsOn`, `IicReceive.GetsOn`: What drives a transfer on.
* `Sends`, `Receives`: What the transfers should do, in every run that meets a condition.

## Theorems

* `IicSend.Inv.getsOn`, `IicReceive.Inv.getsOn`: The drivers do get on.
* `transfers_right`: Both transfers where no second level leaves too much room and no byte is lost.
* `sends_drained`: Sending, when the interrupt only comes while the FIFO is empty.
* `transfers_wrong`: A run of each where it happens.
-/

namespace Wujian100

namespace Driver

/-! ## Sending -/

/-- An access of the handler. -/
def SendAct.isAccess : SendAct → Bool
  | .access => true
  | _ => false

/-- How many accesses the handler makes at most, once it is here. -/
def SendPc.left : SendPc → Nat
  | .idle => 0
  | .level => 20
  | .again => 19
  | .push _ left => left + 2
  | .check _ => 1

/-- How many accesses it takes to write a word from here. -/
def SendPc.far : SendPc → Nat
  | .level => 3
  | .again => 2
  | _ => 1

namespace IicSend

/-- What drives a transfer on: a handler that is at work can go on, and is through after twenty
    accesses; the interrupt is enabled until a stop is asked for; and when it comes with words
    left and room in the FIFO, a word has been written by the third access. -/
structure GetsOn (data : Nat → BitVec 8) (num : BitVec 32) (s : IicSend) : Prop where
  goes : s.pc ≠ .idle → ∃ t, s.step data .access = some t
  through : ∀ as t, (∀ stat, .irq stat ∉ as) → Run.run (step data) s as = some t →
    as.countP SendAct.isAccess ≤ 20
  enabled : s.stop = false → s.txEmptyEn = true
  writes : ∀ stat as t, s.pc = .idle → stat.txEmpty = true → s.txFifo.length < usiMaxFifo →
    s.written.length < num.toNat → Run.run (step data) s (.irq stat :: as) = some t →
    3 ≤ as.countP SendAct.isAccess → s.written.length < t.written.length

section Progress

variable {data : Nat → BitVec 8} {num : BitVec 32} {s t : IicSend}

theorem access_of_busy (hbusy : s.pc ≠ .idle) : ∃ t, s.step data .access = some t := by
  change ∃ t, s.access data = some t
  unfold access
  split
  · rename_i hpc
    exact absurd hpc hbusy
  · split
    · exact ⟨_, rfl⟩
    · exact ⟨_, rfl⟩
  · exact ⟨_, rfl⟩
  · exact ⟨_, rfl⟩
  · exact ⟨_, rfl⟩
  · exact ⟨_, rfl⟩

/-- Every access leaves one less to make. -/
theorem access_left (ht : s.access data = some t) : t.pc.left + 1 ≤ s.pc.left := by
  unfold access at ht
  split at ht
  · cases ht
  · rename_i hpc
    rw [hpc]
    split at ht
    · cases ht
      exact Nat.le_refl 20
    · rename_i hfits
      cases ht
      unfold usiMaxFifo at hfits
      change s.remainTxfifo.toNat % 256 + 2 + 1 ≤ 20
      omega
  · rename_i hpc
    rw [hpc]
    cases ht
    change usiMaxFifo - s.txFifo.length + 2 + 1 ≤ 19
    unfold usiMaxFifo
    omega
  · rename_i hpc
    rw [hpc]
    cases ht
    exact Nat.le_refl 2
  · rename_i left hpc
    rw [hpc]
    cases ht
    exact Nat.le_refl _
  · rename_i hpc
    rw [hpc]
    cases ht
    exact Nat.le_refl 1

/-- The handler is through after as many accesses as are left to it. -/
theorem handler_through {as : List SendAct} (hirq : ∀ stat, .irq stat ∉ as)
    (ht : Run.run (step data) s as = some t) : as.countP SendAct.isAccess ≤ s.pc.left := by
  have hnear : ∀ (u : IicSend) (a : SendAct) v, True → (∀ stat, a ≠ .irq stat) →
      u.step data a = some v → False ∨ True ∧ v.pc.left + a.isAccess.toNat ≤ u.pc.left := by
    intro u a v _ ha hv
    refine .inr ⟨trivial, ?_⟩
    cases a with
    | bus =>
        unfold step at hv
        dsimp only at hv
        split at hv
        · cases hv
          exact Nat.le_refl _
        · cases hv
    | irq stat => exact absurd rfl (ha stat)
    | access => exact access_left hv
  have hnot : ∀ a ∈ as, ∀ stat, a ≠ .irq stat := fun a ha stat heq => hirq stat (heq ▸ ha)
  have halong : Run.Along (step data) (fun _ a => ∀ stat, a ≠ .irq stat) s as :=
    Run.along_of_mem hnot s
  have hrun := Run.run_near (fun _ => False) (fun _ => True) SendAct.isAccess (fun u => u.pc.left)
    (fun _ _ _ h _ _ => h) hnear as s t trivial halong ht
  rcases hrun with hnever | ⟨-, hless⟩
  · exact hnever.elim
  · exact (Nat.le_add_left _ _).trans hless

theorem Inv.left_le (h : s.Inv data num) : s.pc.left ≤ 20 := by
  have hat := h.at_pc
  cases hpc : s.pc with
  | push emptyfifo left =>
      rw [hpc] at hat
      have hfits := hat.2.2
      unfold usiMaxFifo at hfits
      change left + 2 ≤ 20
      omega
  | idle => exact Nat.zero_le 20
  | level => exact Nat.le_refl 20
  | again => exact Nat.le_succ 19
  | check emptyfifo => exact Nat.one_le_ofNat

theorem finish_written (s : IicSend) (emptyfifo : Nat) :
    (s.finish emptyfifo).written = s.written := by
  unfold finish
  dsimp only
  split_ifs
  · rfl
  · rfl
  · rfl
  · rfl

/-- What was written stays so. -/
theorem step_written {a : SendAct} (ht : s.step data a = some t) : s.written <+: t.written := by
  cases a with
  | bus =>
      unfold step at ht
      dsimp only at ht
      split at ht
      · cases ht
        exact List.prefix_rfl
      · cases ht
  | irq stat =>
      unfold step at ht
      dsimp only at ht
      split at ht
      · cases ht
        unfold irqhandler
        split
        · exact List.prefix_rfl
        · exact List.prefix_rfl
      · cases ht
  | access =>
      change s.access data = some t at ht
      unfold access at ht
      split at ht
      · cases ht
      · split at ht
        · cases ht
          exact List.prefix_rfl
        · cases ht
          exact List.prefix_rfl
      · cases ht
        exact List.prefix_rfl
      · cases ht
        exact List.prefix_rfl
      · cases ht
        exact List.prefix_append _ _
      · cases ht
        rewrite [finish_written]
        exact List.prefix_rfl

/-- The handler is about to write a word: it has not been past the levels, and there is room, or
    it is to write some. -/
def Writing (n : Nat) (s : IicSend) : Prop :=
  s.written.length = n ∧
    (s.pc = .level ∧ 0 < s.remainTxfifo.toNat ∧ s.txFifo.length < usiMaxFifo ∨
      s.pc = .again ∧ s.txFifo.length < usiMaxFifo ∨
      ∃ emptyfifo left, s.pc = .push emptyfifo (left + 1))

theorem access_writing {n : Nat} (h : s.Writing n) (ht : s.access data = some t) :
    n < t.written.length ∨ t.Writing n ∧ t.pc.far + 1 ≤ s.pc.far := by
  rcases h with ⟨hn, ⟨hpc, hremain, hroom⟩ | ⟨hpc, hroom⟩ | ⟨emptyfifo, left, hpc⟩⟩
  · unfold access at ht
    rw [hpc] at ht
    dsimp only at ht
    rw [hpc]
    split at ht
    · cases ht
      exact .inr ⟨⟨hn, .inr (.inl ⟨rfl, hroom⟩)⟩, Nat.le_refl 3⟩
    · rename_i hfits
      cases ht
      unfold usiMaxFifo at hfits
      have hmod : s.remainTxfifo.toNat % 256 = s.remainTxfifo.toNat := Nat.mod_eq_of_lt (by omega)
      refine .inr ⟨⟨hn, .inr (.inr ⟨s.remainTxfifo.toNat, s.remainTxfifo.toNat - 1, ?_⟩)⟩,
        Nat.le_succ 2⟩
      dsimp only
      rw [hmod, Nat.sub_add_cancel hremain]
  · unfold access at ht
    rw [hpc] at ht
    cases ht
    rw [hpc]
    refine .inr ⟨⟨hn, .inr (.inr ⟨usiMaxFifo - s.txFifo.length,
      usiMaxFifo - s.txFifo.length - 1, ?_⟩)⟩, Nat.le_refl 2⟩
    dsimp only
    rw [Nat.sub_add_cancel (Nat.sub_pos_of_lt hroom)]
  · unfold access at ht
    rw [hpc] at ht
    cases ht
    left
    change n < (s.written ++ [_]).length
    rw [List.length_append, hn]
    exact Nat.lt_succ_self n

theorem step_writing {n : Nat} {a : SendAct} (h : s.Writing n) (ht : s.step data a = some t) :
    n < t.written.length ∨
      t.Writing n ∧ t.pc.far + a.isAccess.toNat ≤ s.pc.far := by
  cases a with
  | bus =>
      unfold step at ht
      dsimp only at ht
      split at ht
      · cases ht
        have hlen : s.txFifo.tail.length ≤ s.txFifo.length := by
          rw [List.length_tail]
          exact Nat.sub_le _ _
        refine .inr ⟨⟨h.1, ?_⟩, Nat.le_refl _⟩
        rcases h.2 with ⟨hpc, hremain, hroom⟩ | ⟨hpc, hroom⟩ | hpush
        · exact .inl ⟨hpc, hremain, hlen.trans_lt hroom⟩
        · exact .inr (.inl ⟨hpc, hlen.trans_lt hroom⟩)
        · exact .inr (.inr hpush)
      · cases ht
  | irq stat =>
      -- The next interrupt has to wait.
      unfold step at ht
      dsimp only at ht
      split at ht
      · rename_i hready
        rw [Writing, hready.1] at h
        rcases h.2 with ⟨hpc, -⟩ | ⟨hpc, -⟩ | ⟨emptyfifo, left, hpc⟩
        · cases hpc
        · cases hpc
        · cases hpc
      · cases ht
  | access => exact access_writing h ht

/-- With words left and room in the FIFO, an interrupt has one written. -/
theorem handler_writes (h : s.Inv data num) (hidle : s.pc = .idle) {stat : IicStat}
    (hempty : stat.txEmpty = true) (hroom : s.txFifo.length < usiMaxFifo)
    (hleft : s.written.length < num.toNat) {as : List SendAct}
    (ht : Run.run (step data) s (.irq stat :: as) = some t)
    (hcount : 3 ≤ as.countP SendAct.isAccess) : s.written.length < t.written.length := by
  have hlen : s.written.length = s.txBuf := by
    rw [h.written, length_window]
  have hcnt := h.at_pc
  rw [hidle] at hcnt
  -- With words left the driver is still sending.
  have hstatus : s.status = .datasend := by
    by_contra hne
    have hall := h.stop (h.status hne).1
    omega
  unfold Run.run at ht
  cases hs : s.step data (.irq stat) with
  | none =>
      rw [hs] at ht
      cases ht
  | some u =>
      rw [hs] at ht
      have hu : u = { s with intrStat := stat, pc := .level } := by
        unfold step at hs
        dsimp only at hs
        split at hs
        · rw [← Option.some.inj hs, irqhandler, hstatus]
          dsimp only
          rw [if_pos hempty]
        · cases hs
      have hwriting : u.Writing s.written.length := by
        rw [hu]
        refine ⟨rfl, .inl ⟨rfl, ?_, hroom⟩⟩
        have hremain := remainTxfifo_toNat h hcnt
        change 0 < s.remainTxfifo.toNat
        omega
      -- What is written stays written.
      have hgoal : ∀ (v : IicSend) a w, s.written.length < v.written.length → True →
          v.step data a = some w → s.written.length < w.written.length :=
        fun v a w hv _ hw => hv.trans_le (step_written hw).length_le
      -- Every access brings the handler nearer to its write, and nothing takes it back.
      have hrun := Run.run_near _ (Writing s.written.length) SendAct.isAccess (fun v => v.pc.far)
        hgoal (fun v a w hv _ hw => step_writing hv hw) as u t hwriting
        (Run.along_of_forall (fun _ _ => trivial) as u) ht
      rcases hrun with hthere | ⟨hstill, hless⟩
      · exact hthere
      · have hfar : 1 ≤ t.pc.far := by
          cases t.pc <;> simp [SendPc.far]
        rw [hu] at hless
        change t.pc.far + _ ≤ 3 at hless
        omega

/-- Until a stop is asked for the interrupt is enabled. -/
theorem step_enabled {a : SendAct} (h : s.Inv data num) (hen : s.stop = false → s.txEmptyEn = true)
    (ht : s.step data a = some t) : t.stop = false → t.txEmptyEn = true := by
  cases a with
  | bus =>
      unfold step at ht
      dsimp only at ht
      split at ht
      · cases ht
        exact hen
      · cases ht
  | irq stat =>
      unfold step at ht
      dsimp only at ht
      split at ht
      · cases ht
        unfold irqhandler
        split
        · exact hen
        · rename_i hne
          intro hstop
          change s.stop = false at hstop
          rw [(h.status hne).1] at hstop
          cases hstop
      · cases ht
  | access =>
      change s.access data = some t at ht
      unfold access at ht
      split at ht
      · cases ht
      · split at ht
        · cases ht
          exact hen
        · cases ht
          exact hen
      · cases ht
        exact hen
      · cases ht
        exact hen
      · cases ht
        exact hen
      · cases ht
        unfold finish
        dsimp only
        split_ifs
        · exact False.elim
        · exact False.elim
        · exact hen
        · exact hen

theorem masterSend_enabled {devaddr : BitVec 32} (hs : masterSend data devaddr num = some s) :
    s.stop = false → s.txEmptyEn = true := by
  unfold masterSend at hs
  split at hs
  · cases hs
  · cases hs
    exact fun _ => rfl

theorem Inv.getsOn (h : s.Inv data num) (hen : s.stop = false → s.txEmptyEn = true) :
    s.GetsOn data num where
  goes := access_of_busy
  through := fun _ _ hirq ht => (handler_through hirq ht).trans h.left_le
  enabled := hen
  writes := fun _ _ _ hidle hempty hroom hleft ht hcount =>
    handler_writes h hidle hempty hroom hleft ht hcount

end Progress

end IicSend

/-! ## Receiving -/

/-- An access of the handler. -/
def ReceiveAct.isAccess : ReceiveAct → Bool
  | .access => true
  | _ => false

/-- How many accesses the handler makes at most, once it is here. -/
def ReceivePc.left : ReceivePc → Nat
  | .idle => 0
  | .rxLevel => 38
  | .read left => left + 21
  | .txLevel => 20
  | .push _ left => left + 3
  | .threshold _ => 2
  | .check => 1

/-- How many accesses it takes to read a byte from here. -/
def ReceivePc.toRead : ReceivePc → Nat
  | .rxLevel => 2
  | _ => 1

/-- How many accesses it takes to write a command from here. -/
def ReceivePc.toPush : ReceivePc → Nat
  | .rxLevel => 20
  | .read left => left + 3
  | .txLevel => 2
  | _ => 1

/-- Unless all commands are written, so many bytes are to come or to be read, but for what the
    handler is about to write. -/
def ReceivePc.Waits (clk pending : Nat) : ReceivePc → Prop
  | .read _ => True
  | .txLevel => True
  | .push _ left => clk = 0 ∨ 0 < pending + left
  | _ => clk = 0 ∨ 0 < pending

/-- More may come. -/
theorem ReceivePc.Waits.more {clk pending pending' : Nat} {pc : ReceivePc}
    (h : pc.Waits clk pending) (hle : pending ≤ pending') : pc.Waits clk pending' := by
  cases pc with
  | read left => trivial
  | txLevel => trivial
  | push rxfifo left => exact h.imp id fun hpos => hpos.trans_le (Nat.add_le_add_right hle left)
  | idle => exact h.imp id fun hpos => hpos.trans_le hle
  | rxLevel => exact h.imp id fun hpos => hpos.trans_le hle
  | threshold rxfifo => exact h.imp id fun hpos => hpos.trans_le hle
  | check => exact h.imp id fun hpos => hpos.trans_le hle

namespace IicReceive

/-- What drives a transfer on: a handler that is at work can go on, and is through after 38
    accesses; the interrupt is enabled until a stop is asked for; when it comes with bytes in the
    FIFO, one has been read by the second access; when it comes with commands left and room for
    them, one has been written by the twentieth; and when the handler is through and there is
    nothing in the FIFOs or on the bus, all is done. -/
structure GetsOn (answer : Nat → BitVec 8) (num : BitVec 32) (s : IicReceive) : Prop where
  goes : s.pc ≠ .idle → ∃ t, s.step answer .access = some t
  through : ∀ as t, (∀ stat, .irq stat ∉ as) → Run.run (step answer) s as = some t →
    as.countP ReceiveAct.isAccess ≤ 38
  enabled : s.stop = false → s.rxTholdEn = true
  reads : ∀ stat as t, s.pc = .idle → stat.rxThold = true → s.rxFifo ≠ [] →
    Run.run (step answer) s (.irq stat :: as) = some t → 2 ≤ as.countP ReceiveAct.isAccess →
    s.stores.length < t.stores.length
  writes : ∀ stat as t, s.pc = .idle → stat.rxThold = true → s.txFifo.length < usiMaxFifo →
    s.written.length < num.toNat → Run.run (step answer) s (.irq stat :: as) = some t →
    20 ≤ as.countP ReceiveAct.isAccess → s.written.length < t.written.length
  done : s.pc = .idle → s.txFifo = [] → s.inFlight = 0 → s.rxFifo = [] →
    s.stores.length = num.toNat ∧ s.written.length = num.toNat ∧ s.stop = true

/-- How many bytes are on their way, or have come. -/
def pending (s : IicReceive) : Nat :=
  s.txFifo.length + s.inFlight + s.rxFifo.length

/-- What the driver relies on to get on. -/
structure Going (num : BitVec 32) (s : IicReceive) : Prop where
  room : s.rxFifo.length ≤ usiMaxFifo
  enabled : s.stop = false → s.rxTholdEn = true
  waits : s.pc.Waits s.rxClk.toNat s.pending
  asked : s.pc = .idle ∨ s.pc = .rxLevel → s.rxBuf = num.toNat → s.stop = true

section Progress

variable {answer : Nat → BitVec 8} {num : BitVec 32} {s t : IicReceive}

theorem length_usiFifoWrite {α : Type} {fifo : List α} (w : α) (h : fifo.length ≤ usiMaxFifo) :
    (usiFifoWrite fifo w).length ≤ usiMaxFifo ∧ fifo.length ≤ (usiFifoWrite fifo w).length ∧
      0 < (usiFifoWrite fifo w).length := by
  by_cases hlt : fifo.length < usiMaxFifo
  · rw [usiFifoWrite_of_lt w hlt, List.length_append]
    exact ⟨hlt, Nat.le_add_right _ _, Nat.succ_pos _⟩
  · unfold usiFifoWrite
    rw [if_neg hlt, List.length_append, List.length_tail, List.length_singleton]
    unfold usiMaxFifo at h hlt ⊢
    omega

/-- After a stop there is nothing left to write. -/
theorem Inv.clk_of_stop (h : s.Inv answer num) (hstop : s.stop = true) : s.rxClk.toNat = 0 := by
  have hall := h.stop hstop
  have hle := h.le
  have hflow := h.flow
  have hclk := h.clk
  omega

/-! ### Nothing is left undone -/

theorem masterReceive_going (intrCtrl : BitVec 32) (hnum : num ≠ 0)
    (hs : masterReceive intrCtrl num = some s) : s.Going num := by
  unfold masterReceive at hs
  rw [if_neg hnum] at hs
  cases hs
  refine ⟨Nat.zero_le _, fun _ => rfl, .inr Nat.one_pos, fun _ hall => ?_⟩
  refine absurd (BitVec.eq_of_toNat_eq ?_) hnum
  exact hall.symm

theorem irqhandler_going (h : s.Inv answer num) (hg : s.Going num) (hidle : s.pc = .idle)
    {stat : IicStat} : (s.irqhandler stat).Going num := by
  have hwaits := hg.waits
  rw [hidle] at hwaits
  unfold irqhandler
  split
  · refine ⟨hg.room, hg.enabled, ?_, fun _ => hg.asked (.inl hidle)⟩
    dsimp only
    split
    · exact hwaits
    · exact hwaits
  · rename_i hne
    have hstop := (h.status hne).1
    rw [h.disable_eq hstop]
    refine ⟨hg.room, fun hcontra => ?_, ?_, hg.asked⟩
    · change s.stop = false at hcontra
      rw [hstop] at hcontra
      cases hcontra
    · exact hg.waits

theorem finish_going (h : s.Inv answer num) (hg : s.Going num) (hpc : s.pc = .check) :
    s.finish.Going num := by
  have hwaits := hg.waits
  rw [hpc] at hwaits
  -- The counter of the driver is the number of bytes stored.
  have hcnt : s.rxBuf = num.toNat → s.rxCnt = s.rxTotalNum := by
    intro hall
    rw [h.total]
    exact BitVec.eq_of_toNat_eq (h.cnt.trans hall)
  have hend := check_inv h hpc
  by_cases hstop : s.finish.stop = true
  · -- All is read, and nothing is to come.
    refine ⟨?_, fun hcontra => ?_, .inl (hend.clk_of_stop hstop), fun _ _ => hstop⟩
    · have hroom := hg.room
      unfold finish disable
      dsimp only
      split_ifs
      · exact Nat.zero_le _
      · exact hroom
      · exact Nat.zero_le _
      · exact hroom
    · rw [hstop] at hcontra
      cases hcontra
  -- Bytes are missing, so the driver does not stop.
  · have hall : s.rxCnt ≠ s.rxTotalNum := by
      intro hall
      refine hstop ?_
      unfold finish
      rw [if_pos hall]
      dsimp only
      split_ifs
      · rfl
      · rfl
    have hsame : s.finish.stop = s.stop := by
      unfold finish
      rw [if_neg hall]
      dsimp only
      split_ifs
      · rfl
      · rfl
    have hi2c : s.intrStat.i2cStop ≠ true := by
      intro hi2c
      exact hstop (hsame.trans (h.stopped hi2c))
    unfold finish
    rw [if_neg hall]
    dsimp only
    rw [if_neg hi2c]
    exact ⟨hg.room, hg.enabled, hwaits, fun _ hbuf => absurd (hcnt hbuf) hall⟩

/-- An access leaves the handler with something to come, or to do. -/
theorem access_going (h : s.Inv answer num) (hg : s.Going num) (ht : s.access = some t) :
    t.Going num := by
  have hwaits := hg.waits
  unfold access at ht
  split at ht
  · cases ht
  · cases ht
    exact ⟨hg.room, hg.enabled, trivial, by simp⟩
  · cases ht
    exact ⟨hg.room, hg.enabled, trivial, by simp⟩
  · cases ht
    have hroom : s.rxFifo.tail.length ≤ usiMaxFifo := by
      rw [List.length_tail]
      exact (Nat.sub_le _ _).trans hg.room
    exact ⟨hroom, hg.enabled, trivial, by simp⟩
  · cases ht
    refine ⟨hg.room, hg.enabled, ?_, by simp⟩
    -- What is still to be clocked goes into the FIFO now, as far as it fits.
    have hlen := h.room
    change s.rxClk.toNat = 0 ∨ 0 < s.pending + s.rxfifo
    unfold rxfifo
    by_cases hclk : s.rxClk = 0
    · left
      rw [hclk]
      rfl
    · right
      rw [if_neg hclk]
      unfold pending usiMaxFifo at *
      split
      · omega
      · omega
  · rename_i hpc
    rw [hpc] at hwaits
    cases ht
    exact ⟨hg.room, hg.enabled, hwaits, by simp⟩
  · rename_i left hpc
    cases ht
    refine ⟨hg.room, hg.enabled, .inr ?_, by simp⟩
    have hpos := (length_usiFifoWrite (0x100 : BitVec 16) h.room).2.2
    unfold pending command
    dsimp only
    omega
  · rename_i hpc
    rw [hpc] at hwaits
    cases ht
    exact ⟨hg.room, hg.enabled, hwaits, by simp⟩
  · rename_i hpc
    cases ht
    exact finish_going h hg hpc

theorem step_going {a : ReceiveAct} (h : s.Inv answer num) (hg : s.Going num) (hroom : HasRoom s a)
    (ht : s.step answer a = some t) : t.Going num := by
  cases a with
  | take =>
      unfold step at ht
      dsimp only at ht
      split at ht
      · rename_i hne
        cases ht
        -- A command that is taken off becomes a byte to come: what is awaited stays.
        have hpos := List.length_pos_iff.mpr hne
        refine ⟨hg.room, hg.enabled, hg.waits.more ?_, hg.asked⟩
        unfold pending
        dsimp only
        rw [List.length_tail]
        omega
      · cases ht
  | deliver =>
      unfold step at ht
      dsimp only at ht
      split at ht
      · rename_i hne
        cases ht
        have hfifo : (usiFifoWrite s.rxFifo (answer s.delivered)).length = s.rxFifo.length + 1 := by
          rw [usiFifoWrite_of_lt _ hroom, List.length_append]
          rfl
        refine ⟨?_, hg.enabled, hg.waits.more ?_, hg.asked⟩
        · rw [hfifo]
          exact hroom
        · unfold pending
          dsimp only
          omega
      · cases ht
  | irq stat =>
      unfold step at ht
      dsimp only at ht
      split at ht
      · rename_i hready
        cases ht
        exact irqhandler_going h hg hready.1
      · cases ht
  | access => exact access_going h hg ht

/-- With nothing on its way the transfer is done. -/
theorem done_of_going (h : s.Inv answer num) (hg : s.Going num) (hidle : s.pc = .idle)
    (htx : s.txFifo = []) (hflight : s.inFlight = 0) (hrx : s.rxFifo = []) :
    s.stores.length = num.toNat ∧ s.written.length = num.toNat ∧ s.stop = true := by
  have hwaits := hg.waits
  rw [hidle] at hwaits
  have hclk : s.rxClk.toNat = 0 := by
    rcases hwaits with hclk | hpos
    · exact hclk
    · unfold pending at hpos
      rw [htx, hflight, hrx] at hpos
      exact absurd hpos (Nat.lt_irrefl 0)
  have hread : s.delivered - s.rxBuf = 0 := by
    have hlen := congrArg List.length h.rxFifo
    rw [hrx, length_window] at hlen
    exact hlen.symm
  have hflow := h.flow
  rw [htx, hflight, List.length_nil] at hflow
  have hwritten := h.clk
  have hle := h.le
  have hbuf : s.rxBuf = num.toNat := by omega
  refine ⟨?_, by omega, hg.asked (.inl hidle) hbuf⟩
  rw [h.stores, length_window]
  exact hbuf

/-! ### What a handler does -/

theorem access_of_busy (hbusy : s.pc ≠ .idle) : ∃ t, s.step answer .access = some t := by
  change ∃ t, s.access = some t
  unfold access
  split
  · rename_i hpc
    exact absurd hpc hbusy
  · exact ⟨_, rfl⟩
  · exact ⟨_, rfl⟩
  · exact ⟨_, rfl⟩
  · exact ⟨_, rfl⟩
  · exact ⟨_, rfl⟩
  · exact ⟨_, rfl⟩
  · exact ⟨_, rfl⟩
  · exact ⟨_, rfl⟩

theorem rxfifo_le_max (s : IicReceive) : s.rxfifo ≤ usiMaxFifo := by
  unfold rxfifo
  split
  · exact Nat.zero_le _
  · split
    · exact Nat.sub_le _ _
    · exact Nat.one_le_ofNat

/-- Every access leaves one less to make. -/
theorem access_left (hroom : s.rxFifo.length ≤ usiMaxFifo) (ht : s.access = some t) :
    t.rxFifo.length ≤ usiMaxFifo ∧ t.pc.left + 1 ≤ s.pc.left := by
  unfold access at ht
  split at ht
  · cases ht
  · rename_i hpc
    rw [hpc]
    cases ht
    refine ⟨hroom, ?_⟩
    unfold usiMaxFifo at hroom
    change s.rxFifo.length + 21 + 1 ≤ 38
    omega
  · rename_i hpc
    rw [hpc]
    cases ht
    exact ⟨hroom, Nat.le_refl 21⟩
  · rename_i left hpc
    rw [hpc]
    cases ht
    refine ⟨?_, Nat.le_of_eq (Nat.succ_add_eq_add_succ left 21).symm⟩
    change s.rxFifo.tail.length ≤ usiMaxFifo
    rw [List.length_tail]
    exact (Nat.sub_le _ _).trans hroom
  · rename_i hpc
    rw [hpc]
    cases ht
    refine ⟨hroom, ?_⟩
    have hle := rxfifo_le_max s
    unfold usiMaxFifo at hle
    change s.rxfifo + 3 + 1 ≤ 20
    omega
  · rename_i hpc
    rw [hpc]
    cases ht
    exact ⟨hroom, Nat.le_refl 3⟩
  · rename_i left hpc
    rw [hpc]
    cases ht
    exact ⟨hroom, Nat.le_refl _⟩
  · rename_i hpc
    rw [hpc]
    cases ht
    exact ⟨hroom, Nat.le_refl 2⟩
  · rename_i hpc
    rw [hpc]
    cases ht
    refine ⟨?_, Nat.le_refl 1⟩
    unfold finish disable
    dsimp only
    split_ifs
    · exact Nat.zero_le _
    · exact hroom
    · exact Nat.zero_le _
    · exact hroom

/-- Only an access of the handler leaves it less to make. -/
theorem step_left {a : ReceiveAct} (hroom : s.rxFifo.length ≤ usiMaxFifo)
    (hirq : ∀ stat, a ≠ .irq stat) (ht : s.step answer a = some t) :
    t.rxFifo.length ≤ usiMaxFifo ∧ t.pc.left + a.isAccess.toNat ≤ s.pc.left := by
  cases a with
  | take =>
      unfold step at ht
      dsimp only at ht
      split at ht
      · cases ht
        exact ⟨hroom, Nat.le_refl _⟩
      · cases ht
  | deliver =>
      unfold step at ht
      dsimp only at ht
      split at ht
      · cases ht
        exact ⟨(length_usiFifoWrite _ hroom).1, Nat.le_refl _⟩
      · cases ht
  | irq stat => exact absurd rfl (hirq stat)
  | access => exact access_left hroom ht

theorem handler_through {as : List ReceiveAct} (hroom : s.rxFifo.length ≤ usiMaxFifo)
    (hirq : ∀ stat, .irq stat ∉ as) (ht : Run.run (step answer) s as = some t) :
    as.countP ReceiveAct.isAccess ≤ s.pc.left := by
  have hnot : ∀ a ∈ as, ∀ stat, a ≠ .irq stat := fun a ha stat heq => hirq stat (heq ▸ ha)
  have halong : Run.Along (step answer) (fun _ a => ∀ stat, a ≠ .irq stat) s as :=
    Run.along_of_mem hnot s
  have hnear : ∀ (u : IicReceive) a v, u.rxFifo.length ≤ usiMaxFifo → (∀ stat, a ≠ .irq stat) →
      u.step answer a = some v → False ∨
        v.rxFifo.length ≤ usiMaxFifo ∧ v.pc.left + a.isAccess.toNat ≤ u.pc.left :=
    fun u a v hu ha hv => .inr (step_left hu ha hv)
  have hrun := Run.run_near (fun _ => False) _ ReceiveAct.isAccess (fun u => u.pc.left)
    (fun _ _ _ h _ _ => h) hnear as s t hroom halong ht
  rcases hrun with hnever | ⟨-, hless⟩
  · exact hnever.elim
  · exact (Nat.le_add_left _ _).trans hless

theorem Inv.left_le (h : s.Inv answer num) (hroom : s.rxFifo.length ≤ usiMaxFifo) :
    s.pc.left ≤ 38 := by
  have hat := h.at_pc
  unfold usiMaxFifo at hroom
  cases hpc : s.pc with
  | read left =>
      rw [hpc] at hat
      change left + 21 ≤ 38
      exact Nat.add_le_add_right (Nat.le_trans hat (hroom.trans (Nat.le_succ 16))) 21
  | push rxfifo left =>
      rw [hpc] at hat
      have hfits := hat.2
      unfold usiMaxFifo at hfits
      change left + 3 ≤ 38
      omega
  | idle => exact Nat.zero_le 38
  | rxLevel => exact Nat.le_refl 38
  | txLevel => exact Nat.le_add_left 20 18
  | threshold rxfifo => exact Nat.le_add_left 2 36
  | check => exact Nat.le_add_left 1 37

theorem finish_logs (s : IicReceive) :
    s.finish.stores = s.stores ∧ s.finish.written = s.written := by
  unfold finish disable
  dsimp only
  split_ifs
  · exact ⟨rfl, rfl⟩
  · exact ⟨rfl, rfl⟩
  · exact ⟨rfl, rfl⟩
  · exact ⟨rfl, rfl⟩

/-- What was stored and what was written stays so. -/
theorem step_logs {a : ReceiveAct} (ht : s.step answer a = some t) :
    s.stores <+: t.stores ∧ s.written <+: t.written := by
  cases a with
  | take =>
      unfold step at ht
      dsimp only at ht
      split at ht
      · cases ht
        exact ⟨List.prefix_rfl, List.prefix_rfl⟩
      · cases ht
  | deliver =>
      unfold step at ht
      dsimp only at ht
      split at ht
      · cases ht
        exact ⟨List.prefix_rfl, List.prefix_rfl⟩
      · cases ht
  | irq stat =>
      unfold step at ht
      dsimp only at ht
      split at ht
      · cases ht
        unfold irqhandler
        split
        · exact ⟨List.prefix_rfl, List.prefix_rfl⟩
        · exact ⟨List.prefix_rfl, List.prefix_rfl⟩
      · cases ht
  | access =>
      change s.access = some t at ht
      unfold access at ht
      split at ht
      · cases ht
      · cases ht
        exact ⟨List.prefix_rfl, List.prefix_rfl⟩
      · cases ht
        exact ⟨List.prefix_rfl, List.prefix_rfl⟩
      · cases ht
        exact ⟨List.prefix_append _ _, List.prefix_rfl⟩
      · cases ht
        exact ⟨List.prefix_rfl, List.prefix_rfl⟩
      · cases ht
        exact ⟨List.prefix_rfl, List.prefix_rfl⟩
      · cases ht
        exact ⟨List.prefix_rfl, List.prefix_append _ _⟩
      · cases ht
        exact ⟨List.prefix_rfl, List.prefix_rfl⟩
      · cases ht
        rw [(finish_logs s).1, (finish_logs s).2]
        exact ⟨List.prefix_rfl, List.prefix_rfl⟩

/-- The handler is about to read a byte. -/
def Reading (n : Nat) (s : IicReceive) : Prop :=
  s.stores.length = n ∧
    (s.pc = .rxLevel ∧ 0 < s.rxFifo.length ∨ ∃ left, s.pc = .read (left + 1))

/-- The handler is about to write a command: it has not been past the levels, and there is room
    for commands that are left, or it is to write some. -/
def Writing (n : Nat) (s : IicReceive) : Prop :=
  s.written.length = n ∧
    ((s.pc = .rxLevel ∨ (∃ left, s.pc = .read left) ∨ s.pc = .txLevel) ∧ s.rxClk ≠ 0 ∧
        s.txFifo.length < usiMaxFifo ∧ s.rxFifo.length ≤ usiMaxFifo ∨
      ∃ rxfifo left, s.pc = .push rxfifo (left + 1))

theorem step_reading {n : Nat} {a : ReceiveAct} (h : s.Reading n) (ht : s.step answer a = some t) :
    n < t.stores.length ∨ t.Reading n ∧ t.pc.toRead + a.isAccess.toNat ≤ s.pc.toRead := by
  rcases h with ⟨hn, hpc⟩
  cases a with
  | take =>
      unfold step at ht
      dsimp only at ht
      split at ht
      · cases ht
        exact .inr ⟨⟨hn, hpc⟩, Nat.le_refl _⟩
      · cases ht
  | deliver =>
      unfold step at ht
      dsimp only at ht
      split at ht
      · cases ht
        refine .inr ⟨⟨hn, hpc.imp ?_ id⟩, Nat.le_refl _⟩
        rintro ⟨hlevel, -⟩
        refine ⟨hlevel, ?_⟩
        unfold usiFifoWrite
        split
        · simp
        · simp
      · cases ht
  | irq stat =>
      unfold step at ht
      dsimp only at ht
      split at ht
      · rename_i hready
        rw [hready.1] at hpc
        -- The handler is at work, so no interrupt is served.
        rcases hpc with ⟨hpc, -⟩ | ⟨left, hpc⟩
        · cases hpc
        · cases hpc
      · cases ht
  | access =>
      change s.access = some t at ht
      unfold access at ht
      rcases hpc with ⟨hpc, hpos⟩ | ⟨left, hpc⟩
      · rw [hpc] at ht
        cases ht
        rw [hpc]
        -- The level is not zero, so there is a byte to read.
        refine .inr ⟨⟨hn, .inr ⟨s.rxFifo.length - 1, ?_⟩⟩, Nat.le_refl 2⟩
        dsimp only
        rw [Nat.sub_add_cancel hpos]
      · rw [hpc] at ht
        cases ht
        left
        change n < (s.stores ++ [_]).length
        rw [List.length_append, hn]
        exact Nat.lt_succ_self n

theorem access_writing {n : Nat} (h : s.Writing n) (ht : s.access = some t) :
    n < t.written.length ∨ t.Writing n ∧ t.pc.toPush + 1 ≤ s.pc.toPush := by
  rcases h with ⟨hn, ⟨hpc, hclk, htx, hrx⟩ | ⟨rxfifo, left, hpc⟩⟩
  · unfold access at ht
    rcases hpc with hpc | ⟨left, hpc⟩ | hpc
    · rw [hpc] at ht
      cases ht
      rw [hpc]
      refine .inr ⟨⟨hn, .inl ⟨.inr (.inl ⟨_, rfl⟩), hclk, htx, hrx⟩⟩, ?_⟩
      exact Nat.add_le_add_right hrx 4
    · rw [hpc] at ht
      rw [hpc]
      cases left with
      | zero =>
          cases ht
          exact .inr ⟨⟨hn, .inl ⟨.inr (.inr rfl), hclk, htx, hrx⟩⟩, Nat.le_refl 3⟩
      | succ left =>
          cases ht
          have hlen : s.rxFifo.tail.length ≤ usiMaxFifo := by
            rw [List.length_tail]
            exact (Nat.sub_le _ _).trans hrx
          refine .inr ⟨⟨hn, .inl ⟨.inr (.inl ⟨left, rfl⟩), ?_, htx, hlen⟩⟩, Nat.le_refl _⟩
          exact hclk
    · rw [hpc] at ht
      cases ht
      rw [hpc]
      have hpos : 0 < s.rxfifo := by
        unfold rxfifo
        rw [if_neg hclk]
        split
        · exact Nat.sub_pos_of_lt htx
        · exact Nat.one_pos
      refine .inr ⟨⟨hn, .inr ⟨s.rxfifo, s.rxfifo - 1, ?_⟩⟩, Nat.le_refl 2⟩
      dsimp only
      rw [Nat.sub_add_cancel hpos]
  · unfold access at ht
    rw [hpc] at ht
    cases ht
    left
    change n < (s.written ++ [_]).length
    rw [List.length_append, hn]
    exact Nat.lt_succ_self n

theorem step_writing {n : Nat} {a : ReceiveAct} (h : s.Writing n) (ht : s.step answer a = some t) :
    n < t.written.length ∨ t.Writing n ∧ t.pc.toPush + a.isAccess.toNat ≤ s.pc.toPush := by
  cases a with
  | take =>
      unfold step at ht
      dsimp only at ht
      split at ht
      · cases ht
        have hlen : s.txFifo.tail.length ≤ s.txFifo.length := by
          rw [List.length_tail]
          exact Nat.sub_le _ _
        refine .inr ⟨⟨h.1, h.2.imp ?_ id⟩, Nat.le_refl _⟩
        rintro ⟨hpc, hclk, htx, hrx⟩
        exact ⟨hpc, hclk, hlen.trans_lt htx, hrx⟩
      · cases ht
  | deliver =>
      unfold step at ht
      dsimp only at ht
      split at ht
      · cases ht
        refine .inr ⟨⟨h.1, h.2.imp ?_ id⟩, Nat.le_refl _⟩
        rintro ⟨hpc, hclk, htx, hrx⟩
        exact ⟨hpc, hclk, htx, (length_usiFifoWrite _ hrx).1⟩
      · cases ht
  | irq stat =>
      unfold step at ht
      dsimp only at ht
      split at ht
      · rename_i hready
        rw [Writing, hready.1] at h
        rcases h.2 with ⟨hpc | ⟨left, hpc⟩ | hpc, -⟩ | ⟨rxfifo, left, hpc⟩
        · cases hpc
        · cases hpc
        · cases hpc
        · cases hpc
      · cases ht
  | access => exact access_writing h ht

/-- An interrupt that comes with bytes in the FIFO, or with commands to write. -/
theorem irq_step (h : s.Inv answer num) (hnot : s.stop ≠ true) {stat : IicStat}
    (hthold : stat.rxThold = true) (ht : s.step answer (.irq stat) = some t) :
    t = { s with intrStat := stat, pc := .rxLevel } := by
  have hstatus : s.status = .wfdata := by
    by_contra hne
    exact hnot (h.status hne).1
  unfold step at ht
  dsimp only at ht
  split at ht
  · rw [← Option.some.inj ht, irqhandler, hstatus]
    dsimp only
    rw [if_pos hthold]
  · cases ht

/-- With bytes in the FIFO, an interrupt has one read. -/
theorem handler_reads (h : s.Inv answer num) {stat : IicStat} (hthold : stat.rxThold = true)
    (hfifo : s.rxFifo ≠ []) {as : List ReceiveAct}
    (ht : Run.run (step answer) s (.irq stat :: as) = some t)
    (hcount : 2 ≤ as.countP ReceiveAct.isAccess) : s.stores.length < t.stores.length := by
  have hpos := List.length_pos_iff.mpr hfifo
  have hnot : s.stop ≠ true := by
    intro hstop
    have hnil := congrArg IicReceive.rxFifo (h.disable_eq hstop)
    exact hfifo hnil.symm
  unfold Run.run at ht
  cases hs : s.step answer (.irq stat) with
  | none =>
      rw [hs] at ht
      cases ht
  | some u =>
      rw [hs] at ht
      have hu := irq_step h hnot hthold hs
      have hreading : u.Reading s.stores.length := by
        rw [hu]
        exact ⟨rfl, .inl ⟨rfl, hpos⟩⟩
      have hgoal : ∀ (v : IicReceive) a w, s.stores.length < v.stores.length → True →
          v.step answer a = some w → s.stores.length < w.stores.length :=
        fun v a w hv _ hw => hv.trans_le (step_logs hw).1.length_le
      have hrun := Run.run_near _ (Reading s.stores.length) ReceiveAct.isAccess
        (fun v => v.pc.toRead) hgoal (fun v a w hv _ hw => step_reading hv hw) as u t hreading
        (Run.along_of_forall (fun _ _ => trivial) as u) ht
      rcases hrun with hthere | ⟨hstill, hless⟩
      · exact hthere
      · have hfar : 1 ≤ t.pc.toRead := by
          cases t.pc <;> simp [ReceivePc.toRead]
        rw [hu] at hless
        change t.pc.toRead + _ ≤ 2 at hless
        omega

/-- With commands left and room in the FIFO, an interrupt has one written. -/
theorem handler_writes (h : s.Inv answer num) (hrx : s.rxFifo.length ≤ usiMaxFifo) {stat : IicStat}
    (hthold : stat.rxThold = true) (htx : s.txFifo.length < usiMaxFifo)
    (hleft : s.written.length < num.toNat) {as : List ReceiveAct}
    (ht : Run.run (step answer) s (.irq stat :: as) = some t)
    (hcount : 20 ≤ as.countP ReceiveAct.isAccess) : s.written.length < t.written.length := by
  have hcommands := h.clk
  -- With commands left the driver still clocks.
  have hclk : s.rxClk ≠ 0 := by
    intro hzero
    rw [hzero] at hcommands
    change 0 + _ = _ at hcommands
    omega
  have hnot : s.stop ≠ true := by
    intro hstop
    have hnone := h.clk_of_stop hstop
    omega
  unfold Run.run at ht
  cases hs : s.step answer (.irq stat) with
  | none =>
      rw [hs] at ht
      cases ht
  | some u =>
      rw [hs] at ht
      have hu := irq_step h hnot hthold hs
      have hwriting : u.Writing s.written.length := by
        rw [hu]
        exact ⟨rfl, .inl ⟨.inl rfl, hclk, htx, hrx⟩⟩
      have hgoal : ∀ (v : IicReceive) a w, s.written.length < v.written.length → True →
          v.step answer a = some w → s.written.length < w.written.length :=
        fun v a w hv _ hw => hv.trans_le (step_logs hw).2.length_le
      -- Every access brings the handler nearer to its write, and nothing takes it back.
      have hrun := Run.run_near _ (Writing s.written.length) ReceiveAct.isAccess
        (fun v => v.pc.toPush) hgoal (fun v a w hv _ hw => step_writing hv hw) as u t hwriting
        (Run.along_of_forall (fun _ _ => trivial) as u) ht
      rcases hrun with hthere | ⟨hstill, hless⟩
      · exact hthere
      · have hfar : 1 ≤ t.pc.toPush := by
          cases t.pc <;> simp [ReceivePc.toPush]
        rw [hu] at hless
        change t.pc.toPush + _ ≤ 20 at hless
        omega

theorem Inv.getsOn (h : s.Inv answer num) (hg : s.Going num) : s.GetsOn answer num where
  goes := access_of_busy
  through := fun _ _ hirq ht => (handler_through hg.room hirq ht).trans (h.left_le hg.room)
  enabled := hg.enabled
  reads := fun _ _ _ _ hthold hfifo ht hcount => handler_reads h hthold hfifo ht hcount
  writes := fun _ _ _ _ hthold htx hleft ht hcount =>
    handler_writes h hg.room hthold htx hleft ht hcount
  done := done_of_going h hg

end Progress

end IicReceive

/-! ## Both -/

/-- In every run that meets the condition, what is sent is right at any time, the transfer gets
    on, and an interrupt that comes when all words are written asks for a stop before it ends. -/
def Sends (P : IicSend → SendAct → Prop) (data : Nat → BitVec 8) (devaddr num : BitVec 32) :
    Prop :=
  ∃ s, IicSend.masterSend data devaddr num = some s ∧
    ∀ as t, Run.Along (IicSend.step data) P s as → Run.run (IicSend.step data) s as = some t →
      t.Safe data num ∧ t.GetsOn data num ∧
        ∀ stat bs u, t.pc = .idle → t.written.length = num.toNat →
          Run.run (IicSend.step data) t (.irq stat :: bs) = some u → u.pc = .idle →
          u.stop = true

/-- In every run that meets the condition, what is received is right at any time, and the
    transfer gets on. -/
def Receives (P : IicReceive → ReceiveAct → Prop) (answer : Nat → BitVec 8)
    (intrCtrl num : BitVec 32) : Prop :=
  ∃ s, IicReceive.masterReceive intrCtrl num = some s ∧
    ∀ as t, Run.Along (IicReceive.step answer) P s as →
      Run.run (IicReceive.step answer) s as = some t →
        t.Safe answer num ∧ t.GetsOn answer num

theorem sends_of_inv {data : Nat → BitVec 8} {num : BitVec 32} {t : IicSend}
    (h : t.Inv data num ∧ (t.stop = false → t.txEmptyEn = true)) :
    t.Safe data num ∧ t.GetsOn data num ∧
      ∀ stat bs u, t.pc = .idle → t.written.length = num.toNat →
        Run.run (IicSend.step data) t (.irq stat :: bs) = some u → u.pc = .idle →
        u.stop = true := by
  rcases h with ⟨hinv, hen⟩
  refine ⟨hinv.safe, hinv.getsOn hen, fun stat bs u hidle hall hu hend => ?_⟩
  have hbuf : t.txBuf = num.toNat := by
    rw [← hall, hinv.written, length_window]
  exact IicSend.asks hinv hidle hbuf hu hend

/-- What a step keeps of the driver that sends. -/
theorem IicSend.step_keeps {data : Nat → BitVec 8} {num : BitVec 32} {s t : IicSend} {a : SendAct}
    (h : s.Inv data num ∧ (s.stop = false → s.txEmptyEn = true)) (hfits : LevelFits s a)
    (ht : s.step data a = some t) : t.Inv data num ∧ (t.stop = false → t.txEmptyEn = true) :=
  ⟨step_inv h.1 hfits ht, step_enabled h.1 h.2 ht⟩

/-- Both transfers are right in every run in which no second level leaves room for more words
    than there are, and no byte comes when its FIFO is full. -/
theorem transfers_right (data answer : Nat → BitVec 8) (intrCtrl : BitVec 32)
    {devaddr num : BitVec 32} (hnum : num ≠ 0) (hdevaddr : devaddr ≠ 0) :
    Receives HasRoom answer intrCtrl num ∧ Sends LevelFits data devaddr num := by
  constructor
  · rcases IicReceive.masterReceive_inv answer intrCtrl hnum with ⟨s, hs, hinv⟩
    have hgoing := IicReceive.masterReceive_going intrCtrl hnum hs
    refine ⟨s, hs, fun as t halong ht => ?_⟩
    have hkeep : ∀ u a v, u.Inv answer num ∧ u.Going num → HasRoom u a →
        IicReceive.step answer u a = some v → v.Inv answer num ∧ v.Going num :=
      fun u a v hu hroom hv =>
        ⟨IicReceive.step_inv hu.1 hroom hv, IicReceive.step_going hu.1 hu.2 hroom hv⟩
    have hend := Run.run_inv hkeep as s t ⟨hinv, hgoing⟩ halong ht
    exact ⟨hend.1.safe, hend.1.getsOn hend.2⟩
  · rcases IicSend.masterSend_inv data hnum hdevaddr with ⟨s, hs, hinv, -⟩
    refine ⟨s, hs, fun as t halong ht => sends_of_inv ?_⟩
    exact Run.run_inv (fun _ _ _ hu hfits hv => IicSend.step_keeps hu hfits hv) as s t
      ⟨hinv, IicSend.masterSend_enabled hs⟩ halong ht

/-- An interrupt of the sender, and so many accesses of its handler. -/
def txEmptyServed (accesses : Nat) : List SendAct :=
  .irq ⟨true, false, false⟩ :: List.replicate accesses .access

/-- An interrupt of the receiver, and so many accesses of its handler. -/
def rxTholdServed (accesses : Nat) : List ReceiveAct :=
  .irq ⟨false, true, false⟩ :: List.replicate accesses .access

/-- The bus takes so many commands, and brings the bytes. -/
def transferred (bytes : Nat) : List ReceiveAct :=
  (List.replicate bytes [.take, .deliver]).flatten

/-- Forty bytes are sent, with two chunks of a whole FIFO. -/
def fortySent : List SendAct :=
  [[.bus], txEmptyServed 20, List.replicate 16 .bus, txEmptyServed 20, List.replicate 16 .bus,
    txEmptyServed 10, txEmptyServed 3].flatten

/-- Forty bytes are received: one, sixteen twice, and the last seven each on its own. -/
def fortyReceived : List ReceiveAct :=
  [transferred 1, rxTholdServed 23, transferred 16, rxTholdServed 38, transferred 16,
    rxTholdServed 23, (List.replicate 6 (transferred 1 ++ rxTholdServed 8)).flatten, transferred 1,
    rxTholdServed 7].flatten

theorem transfers_right_forty :
    (Receives HasRoom (BitVec.ofNat 8) 0 40 ∧ Sends LevelFits (BitVec.ofNat 8) 0x50 40) ∧
      (∃ s, IicReceive.masterReceive 0 40 = some s ∧
        Run.Along (IicReceive.step (BitVec.ofNat 8)) HasRoom s fortyReceived ∧
        (Run.run (IicReceive.step (BitVec.ofNat 8)) s fortyReceived).map
          (fun t => (t.stores.length, t.stop)) = some (40, true)) ∧
      ∃ s, IicSend.masterSend (BitVec.ofNat 8) 0x50 40 = some s ∧
        Run.Along (IicSend.step (BitVec.ofNat 8)) LevelFits s fortySent ∧
        (Run.run (IicSend.step (BitVec.ofNat 8)) s fortySent).map
          (fun t => (t.written.length, t.stop)) = some (40, true) := by
  refine ⟨transfers_right (BitVec.ofNat 8) (BitVec.ofNat 8) 0 (by decide) (by decide),
    ⟨_, rfl, ?_, ?_⟩, ⟨_, rfl, ?_, ?_⟩⟩
  · decide +kernel
  · decide +kernel
  · decide +kernel
  · decide +kernel

/-- Sending is right without a condition on the levels, if the interrupt only comes while the FIFO
    is empty. -/
theorem sends_drained (data : Nat → BitVec 8) {devaddr num : BitVec 32} (hnum : num ≠ 0)
    (hdevaddr : devaddr ≠ 0) : Sends IicSend.Drained data devaddr num := by
  rcases IicSend.masterSend_inv data hnum hdevaddr with ⟨s, hs, hinv, hidle⟩
  refine ⟨s, hs, fun as t halong ht => ?_⟩
  have hempty : s.Empty :=
    ⟨fun hpc => SendPc.noConfusion (hidle.symm.trans hpc),
      fun hpc => SendPc.noConfusion (hidle.symm.trans hpc)⟩
  have hfits := Run.along_of_inv (Q := LevelFits)
    (fun _ _ _ hu hdrained hv => IicSend.step_empty hu hdrained hv)
    (fun _ a hu _ => hu.levelFits a) as s hempty halong
  exact sends_of_inv (Run.run_inv (fun _ _ _ hu hfits hv => IicSend.step_keeps hu hfits hv) as s t
    ⟨hinv, IicSend.masterSend_enabled hs⟩ hfits ht)

/-- The handler has read the level of the one FIFO, a byte comes, and it reads the level of the
    other one: of 17 bytes that are then on their way the first is lost. -/
def seventeenBytes : List ReceiveAct :=
  [rxTholdServed 2, transferred 1, List.replicate 20 .access, transferred 16,
    rxTholdServed 2].flatten

/-- Two words are left and there is room for one; the bus takes two words, and three are
    written. -/
def threeWords : List SendAct :=
  [txEmptyServed 19, [.bus], txEmptyServed 1, [.bus, .bus], List.replicate 4 .access].flatten

/-- Without the conditions neither transfer is right. -/
theorem transfers_wrong :
    ¬Receives (fun _ _ => True) (BitVec.ofNat 8) 0 18 ∧
      ¬Sends (fun _ _ => True) (BitVec.ofNat 8) 0x50 18 := by
  constructor
  · rintro ⟨s, hs, hruns⟩
    cases hs
    have hall : ∀ u, Run.Along (IicReceive.step (BitVec.ofNat 8)) (fun _ _ => True) u
        seventeenBytes := Run.along_of_forall (fun _ _ => trivial) _
    have hstores := (hruns seventeenBytes _ (hall _) rfl).1.stores
    revert hstores
    decide
  · rintro ⟨s, hs, hruns⟩
    cases hs
    have hle := (hruns threeWords _ (Run.along_of_forall (fun _ _ => trivial) _ _) rfl).1.le
    revert hle
    decide

end Driver

end Wujian100
