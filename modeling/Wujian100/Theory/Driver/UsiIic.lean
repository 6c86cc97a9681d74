import Wujian100.Core.Driver.UsiIic
import Wujian100.Library.Ring
import Wujian100.Library.Run

/-!
# Bytes over I2C

A master that sends reads the level of the FIFO twice, to compare and to use it. When the bus has
taken words in between, the handler may write more words than there are left: then it runs past
the end of the data and never asks for a stop. A master that receives reads one level, and the
other one only when the bytes are read. Bytes that came in between are not counted, so that more
of them can be on their way than the FIFO has room for. Where neither happens both transfers do
what they should, however the bus and the interrupts interleave with the handlers.

## Main definitions

* `IicSend.Inv`, `IicReceive.Inv`: Where the driver is at any access.
* `LevelFits`, `HasRoom`: What must not happen.
* `IicSend.Safe`, `IicReceive.Safe`: What a transfer should be at any time.

## Theorems

* `IicSend.step_inv`, `IicReceive.step_inv`: What a step keeps.
* `IicSend.step_empty`: Where the interrupt only comes while the FIFO is empty.
-/

namespace Wujian100

namespace Driver

theorem usiFifoWrite_of_lt {α : Type} {fifo : List α} (w : α) (h : fifo.length < usiMaxFifo) :
    usiFifoWrite fifo w = fifo ++ [w] :=
  if_pos h

/-! ## Sending -/

/-- The words of a transfer. -/
def sendWord (data : Nat → BitVec 8) (i : Nat) : BitVec 16 :=
  if i = 0 then (data i).setWidth 16 ||| 0x200 else (data i).setWidth 16

/-- A second level that leaves room for no more words than there are. -/
def LevelFits (s : IicSend) : SendAct → Prop
  | .access => s.pc = .again → usiMaxFifo - s.txFifo.length ≤ s.remainTxfifo.toNat
  | _ => True

instance (s : IicSend) : (a : SendAct) → Decidable (LevelFits s a)
  | .access =>
      inferInstanceAs (Decidable (s.pc = .again →
        usiMaxFifo - s.txFifo.length ≤ s.remainTxfifo.toNat))
  | .bus => .isTrue trivial
  | .irq _ => .isTrue trivial

/-- How many words were written, as the handler has it. -/
def SendPc.At (num cnt buf len : Nat) : SendPc → Prop
  | .idle | .level | .again => cnt = buf
  | .push emptyfifo left =>
      cnt + emptyfifo = buf + left ∧ buf + left ≤ num ∧ len + left ≤ usiMaxFifo
  | .check emptyfifo => cnt + emptyfifo = buf

/-- The bus only makes room. -/
theorem SendPc.At.drained {num cnt buf len len' : Nat} {pc : SendPc} (h : pc.At num cnt buf len)
    (hle : len' ≤ len) : pc.At num cnt buf len' := by
  cases pc with
  | push emptyfifo left => exact ⟨h.1, h.2.1, (Nat.add_le_add_right hle left).trans h.2.2⟩
  | idle => exact h
  | level => exact h
  | again => exact h
  | check emptyfifo => exact h

namespace IicSend

section Sending

variable {data : Nat → BitVec 8} {num : BitVec 32} {s t : IicSend}

/-- So far the words were written in their order, and if a stop was asked for all of them. -/
structure Inv (data : Nat → BitVec 8) (num : BitVec 32) (s : IicSend) : Prop where
  total : s.txTotalNum = num
  written : s.written = window (sendWord data) 0 s.txBuf
  pos : 0 < s.txBuf
  le : s.txBuf ≤ num.toNat
  room : s.txFifo.length ≤ usiMaxFifo
  overrun : s.overrun = false
  at_pc : s.pc.At num.toNat s.txCnt.toNat s.txBuf s.txFifo.length
  stop : s.stop = true → s.txBuf = num.toNat
  stopped : s.intrStat.i2cStop = true → s.stop = true
  status : s.status ≠ .datasend → s.stop = true ∧ s.pc = .idle

theorem masterSend_inv (data : Nat → BitVec 8) {devaddr : BitVec 32} (hnum : num ≠ 0)
    (hdevaddr : devaddr ≠ 0) :
    ∃ s, masterSend data devaddr num = some s ∧ s.Inv data num ∧ s.pc = .idle := by
  unfold masterSend
  rw [if_neg (not_or.mpr ⟨hnum, hdevaddr⟩)]
  refine ⟨_, rfl, ?_, rfl⟩
  have hpos : 0 < num.toNat := by
    refine Nat.pos_of_ne_zero fun hzero => hnum ?_
    exact BitVec.eq_of_toNat_eq hzero
  exact ⟨rfl, rfl, Nat.one_pos, hpos, Nat.succ_le_succ (Nat.zero_le 15), rfl, rfl,
    fun hcontra => Bool.noConfusion hcontra, fun hcontra => Bool.noConfusion hcontra,
    fun hne => absurd rfl hne⟩

theorem bus_inv (h : s.Inv data num) : Inv data num { s with txFifo := s.txFifo.tail } := by
  have hlen : s.txFifo.tail.length ≤ s.txFifo.length := by
    rw [List.length_tail]
    exact Nat.sub_le _ _
  exact { h with room := hlen.trans h.room, at_pc := h.at_pc.drained hlen }

theorem irqhandler_inv (h : s.Inv data num) (hidle : s.pc = .idle) {stat : IicStat}
    (hstop : stat.i2cStop = true → s.stop = true) : (s.irqhandler stat).Inv data num := by
  have hpc := h.at_pc
  rw [hidle] at hpc
  unfold irqhandler
  split
  · rename_i hstatus
    refine { h with at_pc := ?_, stopped := hstop, status := fun hne => absurd hstatus hne }
    dsimp only
    split
    · exact hpc
    · exact hpc
  · refine { h with room := Nat.zero_le _, at_pc := h.at_pc.drained (Nat.zero_le _) }

/-- A handler is only at work while the transfer goes on. -/
theorem Inv.datasend (h : s.Inv data num) (hpc : s.pc ≠ .idle) : s.status = .datasend := by
  by_contra hne
  exact hpc (h.status hne).2

/-- How many words are left to write. -/
theorem remainTxfifo_toNat (h : s.Inv data num) (hcnt : s.txCnt.toNat = s.txBuf) :
    s.remainTxfifo.toNat = num.toNat - s.txBuf := by
  have hle : s.txCnt ≤ s.txTotalNum := by
    rw [h.total, BitVec.le_def, hcnt]
    exact h.le
  unfold remainTxfifo
  rw [BitVec.toNat_sub_of_le hle, h.total, hcnt]

/-- The first level: all that is left fits, or it has to be asked again how much does. -/
theorem level_inv (h : s.Inv data num) (hpc : s.pc = .level) (ht : s.access data = some t) :
    t.Inv data num := by
  have hcnt := h.at_pc
  rw [hpc] at hcnt
  have hremain := remainTxfifo_toNat h hcnt
  have hle := h.le
  have hstatus := h.datasend (by rw [hpc]; exact SendPc.noConfusion)
  unfold access at ht
  rw [hpc] at ht
  dsimp only at ht
  split at ht
  · cases ht
    exact { h with at_pc := hcnt, status := fun hne => absurd hstatus hne }
  · rename_i hfits
    cases ht
    unfold usiMaxFifo at hfits
    have hmod : s.remainTxfifo.toNat % 256 = s.remainTxfifo.toNat := Nat.mod_eq_of_lt (by omega)
    have hat : SendPc.At num.toNat s.txCnt.toNat s.txBuf s.txFifo.length
        (.push (num.toNat - s.txBuf) (num.toNat - s.txBuf)) := by
      have hroom := h.room
      unfold usiMaxFifo at hroom
      refine ⟨?_, ?_, ?_⟩
      · rw [hcnt]
      · omega
      · unfold usiMaxFifo
        omega
    rw [hmod, hremain]
    exact { h with at_pc := hat, status := fun hne => absurd hstatus hne }

/-- The second level, when it leaves room for no more than there is. -/
theorem again_inv (h : s.Inv data num) (hpc : s.pc = .again) (hfits : LevelFits s .access)
    (ht : s.access data = some t) : t.Inv data num := by
  have hcnt := h.at_pc
  rw [hpc] at hcnt
  have hremain := remainTxfifo_toNat h hcnt
  have hle := h.le
  have hroom := h.room
  have hfew := hfits hpc
  rw [hremain] at hfew
  have hstatus := h.datasend (by rw [hpc]; exact SendPc.noConfusion)
  unfold access at ht
  rw [hpc] at ht
  cases ht
  have hat : SendPc.At num.toNat s.txCnt.toNat s.txBuf s.txFifo.length
      (.push (usiMaxFifo - s.txFifo.length) (usiMaxFifo - s.txFifo.length)) := by
    refine ⟨?_, ?_, ?_⟩
    · rw [hcnt]
    · omega
    · exact Nat.le_of_eq (Nat.add_sub_cancel' hroom)
  exact { h with at_pc := hat, status := fun hne => absurd hstatus hne }

/-- A word is written, or none is left. -/
theorem push_inv {emptyfifo left : Nat} (h : s.Inv data num) (hpc : s.pc = .push emptyfifo left)
    (ht : s.access data = some t) : t.Inv data num := by
  have hat := h.at_pc
  rw [hpc] at hat
  rcases hat with ⟨hcnt, hnum, hfits⟩
  have hstatus := h.datasend (by rw [hpc]; exact SendPc.noConfusion)
  unfold access at ht
  rw [hpc] at ht
  cases left with
  | zero =>
      cases ht
      exact { h with at_pc := hcnt, status := fun hne => absurd hstatus hne }
  | succ left =>
      cases ht
      have hlt : s.txFifo.length < usiMaxFifo := by omega
      have hfifo : (usiFifoWrite s.txFifo ((data s.txBuf).setWidth 16)).length
          = s.txFifo.length + 1 := by
        rw [usiFifoWrite_of_lt _ hlt, List.length_append]
        rfl
      have hword : sendWord data s.txBuf = (data s.txBuf).setWidth 16 :=
        if_neg (Nat.ne_of_gt h.pos)
      have hle : s.txBuf + 1 ≤ num.toNat := by omega
      have hat : SendPc.At num.toNat s.txCnt.toNat (s.txBuf + 1)
          (usiFifoWrite s.txFifo ((data s.txBuf).setWidth 16)).length (.push emptyfifo left) := by
        refine ⟨?_, ?_, ?_⟩
        · omega
        · omega
        · omega
      refine ⟨h.total, ?_, Nat.succ_pos _, hle, ?_, ?_, hat, fun hstop => ?_, h.stopped,
        fun hne => absurd hstatus hne⟩
      · change s.written ++ [_] = _
        rw [window_snoc, Nat.zero_add, hword, h.written]
      · change (usiFifoWrite _ _).length ≤ _
        omega
      · change (s.overrun || decide (usiMaxFifo ≤ s.txFifo.length)) = false
        rw [h.overrun, decide_eq_false (Nat.not_le_of_gt hlt)]
        rfl
      · -- after a stop nothing is left to write
        have hall := h.stop hstop
        omega

/-- The end of the handler. -/
theorem check_inv {emptyfifo : Nat} (h : s.Inv data num) (hpc : s.pc = .check emptyfifo) :
    (s.finish emptyfifo).Inv data num := by
  have hat : s.txCnt.toNat + emptyfifo = s.txBuf := by
    have hat := h.at_pc
    rw [hpc] at hat
    exact hat
  have hle := h.le
  have hlt := num.isLt
  have hcnt : (s.txCnt + BitVec.ofNat 32 emptyfifo).toNat = s.txBuf := by
    have hfew : emptyfifo % 2 ^ 32 = emptyfifo := Nat.mod_eq_of_lt (by omega)
    rw [BitVec.toNat_add, BitVec.toNat_ofNat, hfew, hat, Nat.mod_eq_of_lt (by omega)]
  have hstatus := h.datasend (by rw [hpc]; exact SendPc.noConfusion)
  have hstop : s.txCnt = s.txTotalNum → s.txBuf = num.toNat := by
    intro heq
    rw [heq, h.total] at hat
    omega
  unfold finish
  by_cases hall : s.txCnt = s.txTotalNum
  · rw [if_pos hall]
    dsimp only
    by_cases hi2c : s.intrStat.i2cStop = true
    · rw [if_pos hi2c]
      exact ⟨h.total, h.written, h.pos, h.le, Nat.zero_le _, h.overrun, hcnt, fun _ => hstop hall,
        fun _ => rfl, fun _ => ⟨rfl, rfl⟩⟩
    · rw [if_neg hi2c]
      exact ⟨h.total, h.written, h.pos, h.le, h.room, h.overrun, hcnt, fun _ => hstop hall,
        fun _ => rfl, fun _ => ⟨rfl, rfl⟩⟩
  · rw [if_neg hall]
    dsimp only
    by_cases hi2c : s.intrStat.i2cStop = true
    · rw [if_pos hi2c]
      exact ⟨h.total, h.written, h.pos, h.le, Nat.zero_le _, h.overrun, hcnt, h.stop, h.stopped,
        fun _ => ⟨h.stopped hi2c, rfl⟩⟩
    · rw [if_neg hi2c]
      exact ⟨h.total, h.written, h.pos, h.le, h.room, h.overrun, hcnt, h.stop, h.stopped,
        fun hne => absurd hstatus hne⟩

/-- A step keeps the driver where it is, if the second level fits. -/
theorem step_inv {a : SendAct} (h : s.Inv data num) (hfits : LevelFits s a)
    (ht : s.step data a = some t) : t.Inv data num := by
  cases a with
  | bus =>
      unfold step at ht
      dsimp only at ht
      split at ht
      · cases ht
        exact bus_inv h
      · cases ht
  | irq stat =>
      unfold step at ht
      dsimp only at ht
      split at ht
      · rename_i hready
        cases ht
        exact irqhandler_inv h hready.1 hready.2.2
      · cases ht
  | access =>
      change s.access data = some t at ht
      cases hpc : s.pc with
      | idle =>
          unfold access at ht
          rw [hpc] at ht
          cases ht
      | level => exact level_inv h hpc ht
      | again => exact again_inv h hpc hfits ht
      | push emptyfifo left => exact push_inv h hpc ht
      | check emptyfifo =>
          unfold access at ht
          rw [hpc] at ht
          cases ht
          exact check_inv h hpc

/-! ### Runs -/

theorem irqhandler_stop (s : IicSend) (stat : IicStat) : (s.irqhandler stat).stop = s.stop := by
  unfold irqhandler
  split
  · rfl
  · rfl

theorem finish_stop (s : IicSend) (emptyfifo : Nat) :
    (s.finish emptyfifo).stop = (s.stop || decide (s.txCnt = s.txTotalNum)) := by
  unfold finish
  by_cases hall : s.txCnt = s.txTotalNum
  · rw [if_pos hall, decide_eq_true hall, Bool.or_true]
    dsimp only
    split
    · rfl
    · rfl
  · rw [if_neg hall, decide_eq_false hall, Bool.or_false]
    dsimp only
    split
    · rfl
    · rfl

/-- Nothing takes a stop back. -/
theorem step_stop {a : SendAct} (hstop : s.stop = true) (ht : s.step data a = some t) :
    t.stop = true := by
  cases a with
  | bus =>
      unfold step at ht
      dsimp only at ht
      split at ht
      · cases ht
        exact hstop
      · cases ht
  | irq stat =>
      unfold step at ht
      dsimp only at ht
      split at ht
      · cases ht
        rw [irqhandler_stop]
        exact hstop
      · cases ht
  | access =>
      change s.access data = some t at ht
      unfold access at ht
      split at ht
      · cases ht
      · split at ht
        · cases ht
          exact hstop
        · cases ht
          exact hstop
      · cases ht
        exact hstop
      · cases ht
        exact hstop
      · cases ht
        exact hstop
      · cases ht
        rw [finish_stop, hstop]
        rfl

/-- A handler that finds all words written asks for a stop, or is about to. -/
def Asking (s : IicSend) : Prop :=
  s.stop = true ∨
    s.txCnt = s.txTotalNum ∧ (s.pc = .level ∨ s.pc = .push 0 0 ∨ s.pc = .check 0)

theorem Asking.not_idle (h : s.Asking) (hidle : s.pc = .idle) : s.stop = true := by
  rcases h with hstop | ⟨-, hpc⟩
  · exact hstop
  · rw [hidle] at hpc
    rcases hpc with hpc | hpc | hpc
    · cases hpc
    · cases hpc
    · cases hpc

theorem access_asking (hcnt : s.txCnt = s.txTotalNum)
    (hpc : s.pc = .level ∨ s.pc = .push 0 0 ∨ s.pc = .check 0) (ht : s.access data = some t) :
    t.Asking := by
  have hnone : s.remainTxfifo.toNat = 0 := by
    unfold remainTxfifo
    rw [hcnt, BitVec.sub_self]
    rfl
  unfold access at ht
  rcases hpc with hpc | hpc | hpc
  · rw [hpc] at ht
    dsimp only at ht
    rw [hnone, if_neg (Nat.not_lt_zero _)] at ht
    cases ht
    exact Or.inr ⟨hcnt, Or.inr (Or.inl rfl)⟩
  · rw [hpc] at ht
    cases ht
    exact Or.inr ⟨hcnt, Or.inr (Or.inr rfl)⟩
  · rw [hpc] at ht
    cases ht
    refine Or.inl ?_
    rw [finish_stop, decide_eq_true hcnt, Bool.or_true]

theorem step_asking {a : SendAct} (h : s.Asking) (ht : s.step data a = some t) : t.Asking := by
  rcases h with hstop | ⟨hcnt, hpc⟩
  · exact Or.inl (step_stop hstop ht)
  · cases a with
    | bus =>
        unfold step at ht
        dsimp only at ht
        split at ht
        · cases ht
          exact Or.inr ⟨hcnt, hpc⟩
        · cases ht
    | irq stat =>
        unfold step at ht
        dsimp only at ht
        split at ht
        · rename_i hready
          have hstop : s.stop = true := Asking.not_idle (Or.inr ⟨hcnt, hpc⟩) hready.1
          cases ht
          exact Or.inl ((irqhandler_stop s stat).trans hstop)
        · cases ht
    | access => exact access_asking hcnt hpc ht

/-- An interrupt that comes when all words are written asks for a stop before it ends. -/
theorem asks (h : s.Inv data num) (hidle : s.pc = .idle) (hall : s.txBuf = num.toNat)
    {stat : IicStat} {bs : List SendAct}
    (ht : Run.run (step data) s (.irq stat :: bs) = some t) (hend : t.pc = .idle) :
    t.stop = true := by
  have hcnt : s.txCnt = s.txTotalNum := by
    have hat := h.at_pc
    rw [hidle] at hat
    rw [h.total]
    exact BitVec.eq_of_toNat_eq (hat.trans hall)
  -- All words are written, so this handler already asks for the stop.
  have hasking : (s.irqhandler stat).Asking := by
    by_cases hstatus : s.status = .datasend
    · unfold irqhandler
      rw [hstatus]
      dsimp only
      split
      · exact Or.inr ⟨hcnt, Or.inl rfl⟩
      · exact Or.inr ⟨hcnt, Or.inr (Or.inr rfl)⟩
    · refine Or.inl ?_
      rw [irqhandler_stop]
      exact (h.status hstatus).1
  unfold Run.run at ht
  cases hs : s.step data (.irq stat) with
  | none =>
      rw [hs] at ht
      cases ht
  | some u =>
      rw [hs] at ht
      have hu : u = s.irqhandler stat := by
        unfold step at hs
        dsimp only at hs
        split at hs
        · exact (Option.some.inj hs).symm
        · cases hs
      rw [← hu] at hasking
      have hkeep : ∀ v b w, v.Asking → True → step data v b = some w → Asking w :=
        fun v b w hv _ hw => step_asking hv hw
      have hrun := Run.run_inv hkeep bs u t hasking (Run.along_of_forall (fun _ _ => trivial) bs u) ht
      exact hrun.not_idle hend

end Sending

/-- What a transfer should be at any time: the words so far were written in their order and into
    a FIFO with room, and a stop was asked for after the last one. -/
structure Safe (data : Nat → BitVec 8) (num : BitVec 32) (s : IicSend) : Prop where
  written : s.written = window (sendWord data) 0 s.written.length
  le : s.written.length ≤ num.toNat
  overrun : s.overrun = false
  stop : s.stop = true → s.written.length = num.toNat

theorem Inv.safe {data : Nat → BitVec 8} {num : BitVec 32} {s : IicSend} (h : s.Inv data num) :
    s.Safe data num := by
  have hlen : s.written.length = s.txBuf := by
    rw [h.written, length_window]
  refine ⟨?_, ?_, h.overrun, fun hstop => ?_⟩
  · rw [hlen]
    exact h.written
  · rw [hlen]
    exact h.le
  · rw [hlen]
    exact h.stop hstop

/-- While the interrupt only comes when the FIFO is empty, both levels are the same. -/
def Drained (s : IicSend) : SendAct → Prop
  | .irq stat => stat.txEmpty = true → s.txFifo = []
  | _ => True

/-- Both levels are those of an empty FIFO. -/
def Empty (s : IicSend) : Prop :=
  (s.pc = .level → s.txFifo = []) ∧
    (s.pc = .again → s.txFifo = [] ∧ usiMaxFifo < s.remainTxfifo.toNat)

section Drained

variable {data : Nat → BitVec 8} {s t : IicSend}

theorem Empty.levelFits (h : s.Empty) (a : SendAct) : LevelFits s a := by
  cases a with
  | bus => trivial
  | irq stat => trivial
  | access =>
      intro hpc
      rcases h.2 hpc with ⟨hnil, hlt⟩
      rw [hnil]
      exact Nat.le_of_lt hlt

theorem access_empty (h : s.Empty) (ht : s.access data = some t) : t.Empty := by
  unfold access at ht
  split at ht
  · cases ht
  · rename_i hpc
    have hnil := h.1 hpc
    split at ht
    · rename_i hlt
      cases ht
      rw [hnil] at hlt
      exact ⟨fun hcontra => SendPc.noConfusion hcontra, fun _ => ⟨hnil, hlt⟩⟩
    · cases ht
      exact ⟨fun hcontra => SendPc.noConfusion hcontra, fun hcontra => SendPc.noConfusion hcontra⟩
  · cases ht
    exact ⟨fun hcontra => SendPc.noConfusion hcontra, fun hcontra => SendPc.noConfusion hcontra⟩
  · cases ht
    exact ⟨fun hcontra => SendPc.noConfusion hcontra, fun hcontra => SendPc.noConfusion hcontra⟩
  · cases ht
    exact ⟨fun hcontra => SendPc.noConfusion hcontra, fun hcontra => SendPc.noConfusion hcontra⟩
  · cases ht
    exact ⟨fun hcontra => SendPc.noConfusion hcontra, fun hcontra => SendPc.noConfusion hcontra⟩

theorem step_empty {a : SendAct} (h : s.Empty) (hdrained : Drained s a)
    (ht : s.step data a = some t) : t.Empty := by
  cases a with
  | bus =>
      unfold step at ht
      dsimp only at ht
      split at ht
      · rename_i hne
        cases ht
        refine ⟨fun hpc => absurd (h.1 hpc) hne, fun hpc => absurd (h.2 hpc).1 hne⟩
      · cases ht
  | irq stat =>
      unfold step at ht
      dsimp only at ht
      split at ht
      · rename_i hready
        cases ht
        unfold irqhandler
        split
        · refine ⟨fun hpc => hdrained ?_, fun hpc => ?_⟩
          · dsimp only at hpc
            split at hpc
            · assumption
            · cases hpc
          · dsimp only at hpc
            split at hpc
            · cases hpc
            · cases hpc
        · exact ⟨fun _ => rfl, fun hpc => SendPc.noConfusion (hready.1.symm.trans hpc)⟩
      · cases ht
  | access => exact access_empty h ht

end Drained

end IicSend

/-! ## Receiving -/

/-- The commands of a transfer. -/
def readCommand (i : Nat) : BitVec 16 :=
  if i = 0 then 0x300 else 0x100

/-- A byte that comes when there is room. -/
def HasRoom (s : IicReceive) : ReceiveAct → Prop
  | .deliver => s.rxFifo.length < usiMaxFifo
  | _ => True

instance (s : IicReceive) : (a : ReceiveAct) → Decidable (HasRoom s a)
  | .deliver => inferInstanceAs (Decidable (s.rxFifo.length < usiMaxFifo))
  | .take => .isTrue trivial
  | .irq _ => .isTrue trivial
  | .access => .isTrue trivial

/-- How many bytes are to be read and commands to be written, as the handler has it. -/
def ReceivePc.At (clk txLen rxLen : Nat) : ReceivePc → Prop
  | .read left => left ≤ rxLen
  | .push _ left => left ≤ clk ∧ txLen + left ≤ usiMaxFifo
  | _ => True

/-- The bus only makes room, and only brings bytes. -/
theorem ReceivePc.At.moved {clk txLen txLen' rxLen rxLen' : Nat} {pc : ReceivePc}
    (h : pc.At clk txLen rxLen) (htx : txLen' ≤ txLen) (hrx : rxLen ≤ rxLen') :
    pc.At clk txLen' rxLen' := by
  cases pc with
  | read left => exact Nat.le_trans h hrx
  | push rxfifo left => exact ⟨h.1, (Nat.add_le_add_right htx left).trans h.2⟩
  | idle => trivial
  | rxLevel => trivial
  | txLevel => trivial
  | threshold rxfifo => trivial
  | check => trivial

namespace IicReceive

section Receiving

variable {answer : Nat → BitVec 8} {num : BitVec 32} {s t : IicReceive}

/-- The commands so far were written in their order, what came and what comes for them is what
    was asked for, it was stored in its order, and if a stop was asked for this was all. -/
structure Inv (answer : Nat → BitVec 8) (num : BitVec 32) (s : IicReceive) : Prop where
  total : s.rxTotalNum = num
  written : s.written = window readCommand 0 s.written.length
  clk : s.rxClk.toNat + s.written.length = num.toNat
  pos : 0 < s.written.length
  flow : s.delivered + s.inFlight + s.txFifo.length = s.written.length
  rxFifo : s.rxFifo = window answer s.rxBuf (s.delivered - s.rxBuf)
  le : s.rxBuf ≤ s.delivered
  stores : s.stores = window (fun i => (answer i, i)) 0 s.rxBuf
  cnt : s.rxCnt.toNat = s.rxBuf
  room : s.txFifo.length ≤ usiMaxFifo
  overrun : s.overrun = false
  at_pc : s.pc.At s.rxClk.toNat s.txFifo.length s.rxFifo.length
  stop : s.stop = true → s.rxBuf = num.toNat
  stopped : s.intrStat.i2cStop = true → s.stop = true
  status : s.status ≠ .wfdata → s.stop = true ∧ s.pc = .idle

theorem masterReceive_inv (answer : Nat → BitVec 8) (intrCtrl : BitVec 32) (hnum : num ≠ 0) :
    ∃ s, masterReceive intrCtrl num = some s ∧ s.Inv answer num := by
  have hpos : 0 < num.toNat := by
    refine Nat.pos_of_ne_zero fun hzero => hnum ?_
    exact BitVec.eq_of_toNat_eq hzero
  have hclk : (num - 1).toNat + 1 = num.toNat := by
    rw [BitVec.toNat_sub_of_le (by rw [BitVec.le_def]; exact hpos)]
    exact Nat.sub_add_cancel hpos
  unfold masterReceive
  rw [if_neg hnum]
  exact ⟨_, rfl, rfl, rfl, hclk, Nat.one_pos, rfl, rfl, Nat.le_refl 0, rfl, rfl,
    Nat.succ_le_succ (Nat.zero_le 15), rfl, trivial, fun hcontra => Bool.noConfusion hcontra,
    fun hcontra => Bool.noConfusion hcontra, fun hne => absurd rfl hne⟩

theorem take_inv (h : s.Inv answer num) (hne : s.txFifo ≠ []) :
    Inv answer num { s with txFifo := s.txFifo.tail, inFlight := s.inFlight + 1 } := by
  have hpos := List.length_pos_iff.mpr hne
  have hlen : s.txFifo.tail.length = s.txFifo.length - 1 := List.length_tail
  have hflow := h.flow
  have hroom := h.room
  have hnext : s.delivered + (s.inFlight + 1) + s.txFifo.tail.length = s.written.length := by
    omega
  exact { h with
    flow := hnext
    room := by rw [hlen]; exact (Nat.sub_le _ 1).trans hroom
    at_pc := h.at_pc.moved (by rw [hlen]; exact Nat.sub_le _ 1) (Nat.le_refl _) }

theorem deliver_inv (h : s.Inv answer num) (hne : s.inFlight ≠ 0)
    (hroom : s.rxFifo.length < usiMaxFifo) :
    Inv answer num { s with
      inFlight := s.inFlight - 1
      rxFifo := usiFifoWrite s.rxFifo (answer s.delivered)
      delivered := s.delivered + 1 } := by
  have hle := h.le
  have hflow := h.flow
  have hnext : s.delivered + 1 + (s.inFlight - 1) + s.txFifo.length = s.written.length := by
    omega
  have hfifo : usiFifoWrite s.rxFifo (answer s.delivered)
      = window answer s.rxBuf (s.delivered + 1 - s.rxBuf) := by
    rw [usiFifoWrite_of_lt _ hroom, h.rxFifo, Nat.sub_add_comm hle, window_snoc,
      Nat.add_sub_cancel' hle]
  have hlen : s.rxFifo.length ≤ (usiFifoWrite s.rxFifo (answer s.delivered)).length := by
    rw [usiFifoWrite_of_lt _ hroom, List.length_append]
    exact Nat.le_add_right _ _
  exact { h with
    flow := hnext
    rxFifo := hfifo
    le := Nat.le_succ_of_le hle
    at_pc := h.at_pc.moved (Nat.le_refl _) hlen }

/-- When a stop was asked for nothing is left anywhere. -/
theorem Inv.disable_eq (h : s.Inv answer num) (hstop : s.stop = true) : s.disable = s := by
  have hall := h.stop hstop
  have hle := h.le
  have hflow := h.flow
  have hclk := h.clk
  have htx : s.txFifo = [] := List.eq_nil_of_length_eq_zero (by omega)
  have hflight : s.inFlight = 0 := by omega
  have hrx : s.rxFifo = [] := by
    rw [h.rxFifo, show s.delivered - s.rxBuf = 0 by omega]
    rfl
  unfold disable
  rw [← htx, ← hrx, ← hflight]

theorem irqhandler_inv (h : s.Inv answer num) {stat : IicStat}
    (hstop : stat.i2cStop = true → s.stop = true) : (s.irqhandler stat).Inv answer num := by
  unfold irqhandler
  split
  · rename_i hstatus
    refine { h with at_pc := ?_, stopped := hstop, status := fun hne => absurd hstatus hne }
    dsimp only
    split
    · trivial
    · trivial
  · rename_i hne
    rw [h.disable_eq (h.status hne).1]
    exact { h with total := h.total }

/-- A handler is only at work while the transfer goes on. -/
theorem Inv.wfdata (h : s.Inv answer num) (hpc : s.pc ≠ .idle) : s.status = .wfdata := by
  by_contra hne
  exact hpc (h.status hne).2

/-- A byte is read, or none is left. -/
theorem read_inv {left : Nat} (h : s.Inv answer num) (hpc : s.pc = .read left)
    (ht : s.access = some t) : t.Inv answer num := by
  have hat : left ≤ s.rxFifo.length := by
    have hat := h.at_pc
    rw [hpc] at hat
    exact hat
  have hstatus := h.wfdata (by rw [hpc]; exact ReceivePc.noConfusion)
  unfold access at ht
  rw [hpc] at ht
  cases left with
  | zero =>
      cases ht
      exact { h with at_pc := trivial, status := fun hne => absurd hstatus hne }
  | succ left =>
      cases ht
      have hlen : s.rxFifo.length = s.delivered - s.rxBuf := by
        rw [h.rxFifo, length_window]
      have hle : s.rxBuf + 1 ≤ s.delivered := by omega
      have hflow := h.flow
      have hclk := h.clk
      have hlt := num.isLt
      have hfifo : s.rxFifo = answer s.rxBuf
          :: window answer (s.rxBuf + 1) (s.delivered - (s.rxBuf + 1)) := by
        rw [h.rxFifo, ← window_cons]
        congr 1
        omega
      have hcnt : (s.rxCnt + 1).toNat = s.rxBuf + 1 := by
        have hone : s.rxCnt.toNat + (1 : BitVec 32).toNat < 2 ^ 32 := by
          change s.rxCnt.toNat + 1 < 2 ^ 32
          rw [h.cnt]
          omega
        rw [BitVec.toNat_add, Nat.mod_eq_of_lt hone, h.cnt]
        rfl
      have hstores : s.stores ++ [(s.rxFifo.headD 0, s.rxBuf)]
          = window (fun i => (answer i, i)) 0 (s.rxBuf + 1) := by
        rw [h.stores, window_snoc, Nat.zero_add, hfifo]
        rfl
      have hleft : left ≤ s.rxFifo.tail.length := by
        rw [List.length_tail]
        omega
      refine { h with
        rxFifo := ?_, le := hle, stores := hstores, cnt := hcnt, at_pc := hleft
        stop := fun hstop => ?_, status := fun hne => absurd hstatus hne }
      · change s.rxFifo.tail = _
        rw [hfifo]
        rfl
      · -- after a stop there was nothing to read
        have hall := h.stop hstop
        omega

/-- The level of the other FIFO: no more commands than are left, and no more than fit. -/
theorem rxfifo_le (h : s.Inv answer num) :
    s.rxfifo ≤ s.rxClk.toNat ∧ s.txFifo.length + s.rxfifo ≤ usiMaxFifo := by
  have hroom := h.room
  unfold rxfifo
  split
  · exact ⟨Nat.zero_le _, hroom⟩
  · rename_i hne
    have hpos : s.rxClk.toNat ≠ 0 := fun hzero => hne (BitVec.eq_of_toNat_eq hzero)
    split
    · omega
    · omega

/-- A command is written, or none is left. -/
theorem push_inv {rxfifo left : Nat} (h : s.Inv answer num) (hpc : s.pc = .push rxfifo left)
    (ht : s.access = some t) : t.Inv answer num := by
  have hat : left ≤ s.rxClk.toNat ∧ s.txFifo.length + left ≤ usiMaxFifo := by
    have hat := h.at_pc
    rw [hpc] at hat
    exact hat
  rcases hat with ⟨hleft, hfits⟩
  have hstatus := h.wfdata (by rw [hpc]; exact ReceivePc.noConfusion)
  unfold access at ht
  rw [hpc] at ht
  cases left with
  | zero =>
      cases ht
      exact { h with at_pc := trivial, status := fun hne => absurd hstatus hne }
  | succ left =>
      cases ht
      have hlt : s.txFifo.length < usiMaxFifo := by omega
      have hfifo : (usiFifoWrite s.txFifo (0x100 : BitVec 16)).length = s.txFifo.length + 1 := by
        rw [usiFifoWrite_of_lt _ hlt, List.length_append]
        rfl
      have hlen : (s.written ++ [(0x100 : BitVec 16)]).length = s.written.length + 1 := by
        rw [List.length_append]
        rfl
      have hclk : (s.rxClk - 1).toNat = s.rxClk.toNat - 1 := by
        have hone : (1 : BitVec 32) ≤ s.rxClk := by
          rw [BitVec.le_def]
          exact (Nat.succ_le_succ (Nat.zero_le left)).trans hleft
        rw [BitVec.toNat_sub_of_le hone]
        rfl
      have hword : readCommand s.written.length = 0x100 := if_neg (Nat.ne_of_gt h.pos)
      have hflow := h.flow
      have hbefore := h.clk
      refine { h with
        written := ?_, clk := ?_, pos := ?_, flow := ?_, room := ?_, overrun := ?_
        at_pc := ⟨?_, ?_⟩, status := fun hne => absurd hstatus hne }
      · change s.written ++ [_] = window readCommand 0 (s.written ++ [_]).length
        rw [hlen, window_snoc, Nat.zero_add, hword, ← h.written]
      · change (s.rxClk - 1).toNat + (s.written ++ [_]).length = num.toNat
        rw [hlen, hclk]
        omega
      · change 0 < (s.written ++ [_]).length
        rw [hlen]
        exact Nat.succ_pos _
      · change s.delivered + s.inFlight + (usiFifoWrite _ _).length = (s.written ++ [_]).length
        rw [hlen, hfifo]
        omega
      · change (usiFifoWrite _ _).length ≤ usiMaxFifo
        rw [hfifo]
        exact hlt
      · change (s.overrun || decide (usiMaxFifo ≤ s.txFifo.length)) = false
        rw [h.overrun, decide_eq_false (Nat.not_le_of_gt hlt)]
        rfl
      · change left ≤ (s.rxClk - 1).toNat
        rw [hclk]
        omega
      · change (usiFifoWrite _ _).length + left ≤ usiMaxFifo
        rw [hfifo]
        omega

/-- The end of the handler. -/
theorem check_inv (h : s.Inv answer num) (hpc : s.pc = .check) : s.finish.Inv answer num := by
  have hstatus := h.wfdata (by rw [hpc]; exact ReceivePc.noConfusion)
  have hstop : s.rxCnt = s.rxTotalNum → s.rxBuf = num.toNat := by
    intro heq
    rw [← h.cnt, heq, h.total]
  -- with the stop asked for where it has to be, all the rest stays
  have hasked : ∀ en, s.rxCnt = s.rxTotalNum →
      Inv answer num { s with stop := true, rxTholdEn := en } := by
    intro en heq
    exact { h with
      stop := fun _ => hstop heq, stopped := fun _ => rfl
      status := fun hne => absurd hstatus hne }
  have hend : ∀ u : IicReceive, u.Inv answer num → u.status = .wfdata →
      Inv answer num { (if u.intrStat.i2cStop then
        { u.disable with status := .recvDone, completed := u.completed + 1 } else u) with
          pc := .idle } := by
    intro u hu hgoes
    by_cases hi2c : u.intrStat.i2cStop = true
    · have hstopped := hu.stopped hi2c
      rw [if_pos hi2c, hu.disable_eq hstopped]
      exact { hu with at_pc := trivial, status := fun _ => ⟨hstopped, rfl⟩ }
    · rw [if_neg hi2c]
      exact { hu with at_pc := trivial, status := fun hne => absurd hgoes hne }
  unfold finish
  by_cases hall : s.rxCnt = s.rxTotalNum
  · rw [if_pos hall]
    exact hend _ (hasked false hall) hstatus
  · rw [if_neg hall]
    exact hend s h hstatus

/-- A step keeps the driver where it is, if a byte that comes has room. -/
theorem step_inv {a : ReceiveAct} (h : s.Inv answer num) (hroom : HasRoom s a)
    (ht : s.step answer a = some t) : t.Inv answer num := by
  cases a with
  | take =>
      unfold step at ht
      dsimp only at ht
      split at ht
      · rename_i hne
        cases ht
        exact take_inv h hne
      · cases ht
  | deliver =>
      unfold step at ht
      dsimp only at ht
      split at ht
      · rename_i hne
        cases ht
        exact deliver_inv h hne hroom
      · cases ht
  | irq stat =>
      unfold step at ht
      dsimp only at ht
      split at ht
      · rename_i hready
        cases ht
        exact irqhandler_inv h fun hstat => (hready.2.2 hstat).1
      · cases ht
  | access =>
      change s.access = some t at ht
      cases hpc : s.pc with
      | idle =>
          unfold access at ht
          rw [hpc] at ht
          cases ht
      | rxLevel =>
          have hstatus := h.wfdata (by rw [hpc]; exact ReceivePc.noConfusion)
          unfold access at ht
          rw [hpc] at ht
          cases ht
          exact { h with
            at_pc := Nat.le_refl s.rxFifo.length, status := fun hne => absurd hstatus hne }
      | read left => exact read_inv h hpc ht
      | txLevel =>
          have hstatus := h.wfdata (by rw [hpc]; exact ReceivePc.noConfusion)
          unfold access at ht
          rw [hpc] at ht
          cases ht
          exact { h with at_pc := rxfifo_le h, status := fun hne => absurd hstatus hne }
      | push rxfifo left => exact push_inv h hpc ht
      | threshold rxfifo =>
          have hstatus := h.wfdata (by rw [hpc]; exact ReceivePc.noConfusion)
          unfold access at ht
          rw [hpc] at ht
          cases ht
          exact { h with at_pc := trivial, status := fun hne => absurd hstatus hne }
      | check =>
          unfold access at ht
          rw [hpc] at ht
          cases ht
          exact check_inv h hpc

end Receiving

/-- What a transfer should be at any time: the commands so far were written in their order, no
    more than are left were counted, into a FIFO with room, what was stored is what came, and a
    stop was asked for after the last byte. -/
structure Safe (answer : Nat → BitVec 8) (num : BitVec 32) (s : IicReceive) : Prop where
  commands : s.written = window readCommand 0 s.written.length
  clk : s.rxClk.toNat + s.written.length = num.toNat
  overrun : s.overrun = false
  stores : s.stores = window (fun i => (answer i, i)) 0 s.stores.length
  le : s.stores.length ≤ num.toNat
  stop : s.stop = true → s.stores.length = num.toNat ∧ s.written.length = num.toNat

theorem Inv.safe {answer : Nat → BitVec 8} {num : BitVec 32} {s : IicReceive}
    (h : s.Inv answer num) : s.Safe answer num := by
  have hlen : s.stores.length = s.rxBuf := by
    rw [h.stores, length_window]
  have hle := h.le
  have hflow := h.flow
  have hclk := h.clk
  refine ⟨h.written, hclk, h.overrun, ?_, ?_, fun hstop => ?_⟩
  · rw [hlen]
    exact h.stores
  · omega
  · have hall := h.stop hstop
    omega

end IicReceive

end Driver

end Wujian100
