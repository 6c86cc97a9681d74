import Wujian100.Core.Driver.Dmac
import Wujian100.Library.Run

/-!
# A Transfer Starts

`csi_dma_start` merges the length into a register that has other fields. The field has 12
bits, and nothing keeps a length out that has more, or none at all. The width of the
destination is only looked at together with the source's, and it may be zero.

## Main definitions

* `Dmac.StartOk`: What a start should do.
* `Dmac.StartFits`: When it does.
* `DmacAct`, `Configured.step`: What leads to a channel's state, with what the configurations
  left beside the size.

## Theorems

* `setTotalSize_size`, `setTotalSize_other`: The size is merged into the register.
* `start_ok_iff`: A start does what it should exactly when the length fits.
* `Configured.starts_iff`: So do all starts of a run.
-/

namespace Wujian100

namespace Driver

namespace Dmac

/-! ## The size field -/

section Size

variable {r : DmaReg} {len : BitVec 32}

/-- The size field of `CHCTRLA`. -/
def size (r : DmaReg) : BitVec 12 := r.chctrla.extractLsb' 12 12

/-- All other fields of `CHCTRLA`. -/
def others (r : DmaReg) : BitVec 32 := r.chctrla &&& 0xff000fff#32

theorem mask_getLsbD : ∀ i < 32,
    (0xff000fff#32).getLsbD i = (decide (i < 12) || decide (24 ≤ i)) := by
  decide

theorem pred_toNat (h : 1 ≤ len.toNat) : (len - 1).toNat = len.toNat - 1 := by
  have hle : (1 : BitVec 32) ≤ len := h
  exact BitVec.toNat_sub_of_le hle

/-- A length that fits has no bits above the field. -/
theorem pred_getLsbD (h : 1 ≤ len.toNat) (h' : len.toNat ≤ 4096) {j : Nat} (hj : 12 ≤ j) :
    (len - 1).getLsbD j = false := by
  refine Nat.testBit_lt_two_pow ?_
  rw [pred_toNat h]
  calc
    len.toNat - 1 < 2 ^ 12 := by omega
    _ ≤ 2 ^ j := Nat.pow_le_pow_right (by decide) hj

theorem setTotalSize_getLsbD (i : Nat) (hi : i < 32) : (setTotalSize r len).chctrla.getLsbD i
    = (r.chctrla.getLsbD i && (decide (i < 12) || decide (24 ≤ i)) ||
      (!decide (i < 12) && (len - 1).getLsbD (i - 12))) := by
  unfold setTotalSize
  rw [BitVec.getLsbD_or, BitVec.getLsbD_and, mask_getLsbD i hi, BitVec.getLsbD_shiftLeft,
    decide_eq_true hi, Bool.true_and]

theorem setTotalSize_size (h : 1 ≤ len.toNat) : (size (setTotalSize r len)).toNat
    = (len.toNat - 1) % 2 ^ 12 := by
  have hfield : size (setTotalSize r len) = (len - 1).setWidth 12 := by
    refine BitVec.eq_of_getLsbD_eq fun i hi => ?_
    unfold size
    rw [BitVec.getLsbD_extractLsb', setTotalSize_getLsbD (12 + i) (by omega),
      BitVec.getLsbD_setWidth, decide_eq_true hi, decide_eq_false (by omega : ¬12 + i < 12),
      decide_eq_false (by omega : ¬24 ≤ 12 + i), Nat.add_sub_cancel_left]
    simp
  rw [hfield, BitVec.toNat_setWidth, pred_toNat h]

theorem setTotalSize_other (h : 1 ≤ len.toNat) (h' : len.toNat ≤ 4096) :
    others (setTotalSize r len) = others r := by
  refine BitVec.eq_of_getLsbD_eq fun i hi => ?_
  unfold others
  rw [BitVec.getLsbD_and, BitVec.getLsbD_and, setTotalSize_getLsbD i hi, mask_getLsbD i hi]
  by_cases hlow : i < 12
  · simp [hlow]
  · by_cases hhigh : 24 ≤ i
    · rw [pred_getLsbD h h' (by omega)]
      simp [hhigh]
    · simp [hlow, hhigh]

end Size

/-! ## Starts -/

section Start

variable {s : Dmac} {ch src dst len : BitVec 32}

/-- Group and block mode. -/
def Grouped (s : Dmac) (ch : Nat) : Prop :=
  (s.dmaInstance ch).mode = groupTrigger ∨ (s.dmaInstance ch).mode = blockTrigger

instance (s : Dmac) (ch : Nat) : Decidable (s.Grouped ch) :=
  inferInstanceAs (Decidable (_ ∨ _))

/-- The start is one of a channel, between two addresses. -/
def Addressed (ch src dst : BitVec 32) : Prop :=
  ¬(ch.toInt ≥ dmaChannelNum ∨ ch.toInt < 0 ∨ src = 0 ∨ dst = 0)

/-- A start does not divide by zero, and leaves the registers of the channel alone, or the
    length is a multiple of both widths where it has to be one, the size field holds one
    less, and all other fields are as they were left. -/
def StartOk (s : Dmac) (left ch src dst len : BitVec 32) : Prop :=
  ∃ s', s.start ch src dst len = some s' ∧
    (s'.reg (s.addr ch.toNat) = s.reg (s.addr ch.toNat) ∨
      ((s.Grouped ch.toNat → len % (s.dmaInstance ch.toNat).srcTw = 0 ∧
          len % (s.dmaInstance ch.toNat).dstTw = 0) ∧
        ((size (s'.reg (s.addr ch.toNat))).toNat : Int) = len.toNat - 1 ∧
        others (s'.reg (s.addr ch.toNat)) = left))

/-- The start divides by no width that is zero. -/
def Divides (s : Dmac) (ch : Nat) : Prop :=
  (s.dmaInstance ch).dstTw ≠ 0 ∨
    s.Grouped ch ∧ ((s.dmaInstance ch).srcTw = 0 ∨ (s.dmaInstance ch).dstTw = 0)

/-- The start is not turned away. -/
def Passes (s : Dmac) (ch : Nat) (len : BitVec 32) : Prop :=
  (s.Grouped ch → (s.dmaInstance ch).srcTw ≠ 0 ∧ (s.dmaInstance ch).dstTw ≠ 0 ∧
      len % (s.dmaInstance ch).srcTw = 0) ∧
    len * (s.dmaInstance ch).srcTw % (s.dmaInstance ch).dstTw = 0

/-- The length is one that fits into the field, and a multiple of the destination's width
    where it has to be one. -/
def Fits (s : Dmac) (ch : Nat) (len : BitVec 32) : Prop :=
  (s.Grouped ch → len % (s.dmaInstance ch).dstTw = 0) ∧ 1 ≤ len.toNat ∧ len.toNat ≤ 4096

/-- The registers of a channel that runs between the same addresses already, with a control
    word that has the bits of the length, too. -/
def Running (r : DmaReg) (chMode src dst len : BitVec 32) : Prop :=
  r.sar = src ∧ r.dar = dst ∧ r.chctrlb ||| 1#32 = r.chctrlb ∧ r.chen ||| 1#32 = r.chen ∧
    (chMode = 1#32 → r.chsreq = 1#32) ∧
    (r.chctrla &&& 0xff000fff#32) ||| ((len - 1) <<< 12) = r.chctrla

/-- A start of a channel divides by no zero, and where it is not turned away its length
    fits, or its registers say already what it writes. -/
def StartFits (s : Dmac) (ch src dst len : BitVec 32) : Prop :=
  Addressed ch src dst → s.Divides ch.toNat ∧
    (s.Passes ch.toNat len → s.Fits ch.toNat len ∨
      Running (s.reg (s.addr ch.toNat)) (s.dmaInstance ch.toNat).chMode src dst len)

theorem startRegs_chctrla (r : DmaReg) (chMode : BitVec 32) :
    (startRegs r chMode src dst len).chctrla = (setTotalSize r len).chctrla := by
  unfold startRegs
  dsimp only
  split
  · rfl
  · rfl

theorem startRegs_eq_iff (r : DmaReg) (chMode : BitVec 32) :
    startRegs r chMode src dst len = r ↔ Running r chMode src dst len := by
  rcases r with ⟨sar, dar, chctrla, chctrlb, chintm, chintc, chsreq, chen⟩
  unfold startRegs setTotalSize Running
  dsimp only
  by_cases hmode : chMode = 1#32
  · rw [if_pos hmode, DmaReg.mk.injEq]
    constructor
    · rintro ⟨hsrc, hdst, ha, hb, -, -, hreq, hen⟩
      exact ⟨hsrc.symm, hdst.symm, hb, hen, fun _ => hreq.symm, ha⟩
    · rintro ⟨hsrc, hdst, hb, hen, hreq, ha⟩
      exact ⟨hsrc.symm, hdst.symm, ha, hb, rfl, rfl, (hreq hmode).symm, hen⟩
  · rw [if_neg hmode, DmaReg.mk.injEq]
    constructor
    · rintro ⟨hsrc, hdst, ha, hb, -, -, -, hen⟩
      exact ⟨hsrc.symm, hdst.symm, hb, hen, fun h => absurd h hmode, ha⟩
    · rintro ⟨hsrc, hdst, hb, hen, -, ha⟩
      exact ⟨hsrc.symm, hdst.symm, ha, hb, rfl, rfl, rfl, hen⟩

/-- A channel that was started. -/
def started (s : Dmac) (ch : Nat) (src dst len : BitVec 32) : Dmac :=
  (s.modReg (s.addr ch) fun r => startRegs r (s.dmaInstance ch).chMode src dst len).modPriv ch
    fun x => { x with status := .busy }

theorem reg_started (s : Dmac) (ch : Nat) (src dst len : BitVec 32) :
    (s.started ch src dst len).reg (s.addr ch)
      = startRegs (s.reg (s.addr ch)) (s.dmaInstance ch).chMode src dst len :=
  Function.update_self _ _ _

/-- The tests of a start, one after the other. -/
theorem start_addressed (h : Addressed ch src dst) : s.start ch src dst len
    = if s.Grouped ch.toNat ∧
          ((s.dmaInstance ch.toNat).srcTw = 0 ∨ (s.dmaInstance ch.toNat).dstTw = 0) then some s
      else if s.Grouped ch.toNat ∧ (len % (s.dmaInstance ch.toNat).srcTw ≠ 0 ∨
          len % (if (s.dmaInstance ch.toNat).dstTw ≠ 0 then 1#32 else 0#32) ≠ 0) then some s
      else if (s.dmaInstance ch.toNat).dstTw = 0 then none
      else if len * (s.dmaInstance ch.toNat).srcTw % (s.dmaInstance ch.toNat).dstTw ≠ 0 then some s
      else some (s.started ch.toNat src dst len) := by
  unfold start
  rw [if_neg h]
  rfl

/-- What a start does, by its tests. -/
theorem start_cases (s : Dmac) (len : BitVec 32) (h : Addressed ch src dst) :
    (¬s.Divides ch.toNat ∧ s.start ch src dst len = none) ∨
      (s.Divides ch.toNat ∧ ¬s.Passes ch.toNat len ∧ s.start ch src dst len = some s) ∨
      (s.Divides ch.toNat ∧ s.Passes ch.toNat len ∧
        s.start ch src dst len = some (s.started ch.toNat src dst len)) := by
  rw [start_addressed h]
  -- The tests in the order of the source.
  by_cases hzero : s.Grouped ch.toNat ∧
      ((s.dmaInstance ch.toNat).srcTw = 0 ∨ (s.dmaInstance ch.toNat).dstTw = 0)
  · rw [if_pos hzero]
    refine .inr (.inl ⟨.inr hzero, ?_, rfl⟩)
    rintro ⟨hgroup, -⟩
    rcases hgroup hzero.1 with ⟨hsrc, hdst, -⟩
    rcases hzero.2 with h0 | h0
    · exact hsrc h0
    · exact hdst h0
  · rw [if_neg hzero]
    by_cases hsrc : s.Grouped ch.toNat ∧ len % (s.dmaInstance ch.toNat).srcTw ≠ 0
    · have hdst : (s.dmaInstance ch.toNat).dstTw ≠ 0 := fun h0 => hzero ⟨hsrc.1, .inr h0⟩
      rw [if_pos ⟨hsrc.1, .inl hsrc.2⟩]
      exact .inr (.inl ⟨.inl hdst, fun hp => hsrc.2 (hp.1 hsrc.1).2.2, rfl⟩)
    · -- The second half of the test divides by one.
      have hone : ¬(s.Grouped ch.toNat ∧ (len % (s.dmaInstance ch.toNat).srcTw ≠ 0 ∨
          len % (if (s.dmaInstance ch.toNat).dstTw ≠ 0 then 1#32 else 0#32) ≠ 0)) := by
        rintro ⟨hg, hl | hl⟩
        · exact hsrc ⟨hg, hl⟩
        · have hdst : (s.dmaInstance ch.toNat).dstTw ≠ 0 := fun h0 => hzero ⟨hg, .inr h0⟩
          rw [if_pos hdst, BitVec.umod_one] at hl
          exact hl rfl
      rw [if_neg hone]
      by_cases hdst : (s.dmaInstance ch.toNat).dstTw = 0
      · rw [if_pos hdst]
        refine .inl ⟨?_, rfl⟩
        rintro (h0 | h0)
        · exact h0 hdst
        · exact hzero h0
      · rw [if_neg hdst]
        by_cases hmul : len * (s.dmaInstance ch.toNat).srcTw % (s.dmaInstance ch.toNat).dstTw = 0
        · rw [if_neg (not_not.mpr hmul)]
          refine .inr (.inr ⟨.inl hdst, ⟨fun hg => ⟨?_, hdst, ?_⟩, hmul⟩, rfl⟩)
          · exact fun h0 => hzero ⟨hg, .inl h0⟩
          · by_contra hl
            exact hsrc ⟨hg, hl⟩
        · rw [if_pos hmul]
          exact .inr (.inl ⟨.inl hdst, fun hp => hmul hp.2, rfl⟩)

/-- A start does what it should exactly if it divides by no zero and its length fits, or it
    writes nothing new. -/
theorem start_ok_iff {left : BitVec 32} (hleft : others (s.reg (s.addr ch.toNat)) = left) :
    s.StartOk left ch src dst len ↔ s.StartFits ch src dst len := by
  by_cases haddr : Addressed ch src dst
  · unfold StartFits StartOk
    rcases start_cases s len haddr with ⟨hdiv, hs⟩ | ⟨hdiv, hpass, hs⟩ |
      ⟨hdiv, hpass, hs⟩
    · rw [hs]
      exact ⟨fun ⟨_, h, _⟩ => absurd h (by simp), fun h => absurd (h haddr).1 hdiv⟩
    · rw [hs]
      exact ⟨fun _ _ => ⟨hdiv, fun h => absurd h hpass⟩, fun _ => ⟨s, rfl, .inl rfl⟩⟩
    · have hreg := reg_started s ch.toNat src dst len
      rw [hs]
      generalize s.started ch.toNat src dst len = s' at hreg ⊢
      have hsize : size (s'.reg (s.addr ch.toNat))
          = size (setTotalSize (s.reg (s.addr ch.toNat)) len) := by
        unfold size
        rw [hreg, startRegs_chctrla]
      have hothers : others (s'.reg (s.addr ch.toNat))
          = others (setTotalSize (s.reg (s.addr ch.toNat)) len) := by
        unfold others
        rw [hreg, startRegs_chctrla]
      constructor
      -- The size written is the length minus one, cut to its field.
      · rintro ⟨t, ht, hok⟩ -
        cases ht
        refine ⟨hdiv, fun _ => ?_⟩
        rcases hok with hsame | ⟨hwidth, hval, -⟩
        · right
          rw [← startRegs_eq_iff, ← hreg, hsame]
        · left
          have hlt := (size (s'.reg (s.addr ch.toNat))).isLt
          refine ⟨fun hg => (hwidth hg).2, ?_, ?_⟩
          · omega
          · omega
      · intro h
        refine ⟨s', rfl, ?_⟩
        rcases (h haddr).2 hpass with ⟨hwidth, hone, hmax⟩ | hsame
        · right
          refine ⟨fun hg => ⟨(hpass.1 hg).2.2, hwidth hg⟩, ?_, ?_⟩
          · rw [hsize, setTotalSize_size hone, Nat.mod_eq_of_lt (by omega)]
            omega
          · rw [hothers, setTotalSize_other hone hmax, hleft]
        · left
          rw [hreg, startRegs_eq_iff]
          exact hsame
  · refine ⟨fun _ h => absurd h haddr, fun _ => ⟨s, ?_, .inl rfl⟩⟩
    unfold start
    rw [if_pos (not_not.mp haddr)]

end Start

/-! ## Runs -/

/-- What leads to a channel's state. -/
inductive DmacAct where
  | alloc
  | config (ch : BitVec 32) (c : DmaConfig)
  | start (ch src dst len : BitVec 32)

/-- The driver, and for each register what `csi_dma_config_channel` left in `CHCTRLA` beside
    the size. -/
structure Configured where
  dmac : Dmac
  left : BitVec 32 → BitVec 32

namespace Configured

/-- One call. What divides by zero leads nowhere. -/
def step (handler : BitVec 32) (behind : Nat → DmacEntry) (s : Configured) :
    DmacAct → Option Configured
  | .alloc => some { s with dmac := (allocChannel handler behind s.dmac).2 }
  | .config ch c =>
      let t := (s.dmac.configChannel ch c).2
      let a := s.dmac.addr ch.toNat
      some { dmac := t, left := Function.update s.left a (others (t.reg a)) }
  | .start ch src dst len => (s.dmac.start ch src dst len).map fun t => { s with dmac := t }

/-- The driver before it is called. -/
def init : Configured where
  dmac :=
    { dmaInstance := fun _ => ⟨0, 0, 0, 0, 0, 0, .free, false⟩
      reg := fun _ => ⟨0, 0, 0, 0, 0, 0, 0, 0⟩
      irqHandler := fun _ => none
      irqEnabled := fun _ => false
      outside := false }
  left := fun _ => 0

/-- A start in a run does what it should. -/
def Starts (s : Configured) : DmacAct → Prop
  | .start ch src dst len =>
      s.dmac.StartOk (s.left (s.dmac.addr ch.toNat)) ch src dst len
  | _ => True

/-- A start in a run has a length that fits. -/
def Fitting (s : Configured) : DmacAct → Prop
  | .start ch src dst len => s.dmac.StartFits ch src dst len
  | _ => True

/-- Nothing has been written beside the sizes since. -/
def AsLeft (s : Configured) : Prop :=
  ∀ a, others (s.dmac.reg a) = s.left a

end Configured

section Kept

variable {s : Dmac}

theorem others_modReg (s : Dmac) (addr : BitVec 32) (f : DmaReg → DmaReg)
    (h : others (f (s.reg addr)) = others (s.reg addr)) (a : BitVec 32) :
    others ((s.modReg addr f).reg a) = others (s.reg a) := by
  by_cases ha : a = addr
  · subst ha
    rw [modReg_self]
    exact h
  · rw [modReg_of_ne s addr f ha]

/-- Registers of a channel that is taken keep their control word. -/
theorem others_setUp (handler : BitVec 32) (behind : Nat → DmacEntry) (s : Dmac) (ch : Nat)
    (a : BitVec 32) : others ((setUp handler behind s ch).2.reg a) = others (s.reg a) := by
  unfold setUp
  cases targetGetDmac handler behind ch with
  | none => rfl
  | some entry =>
      dsimp only
      split
      · dsimp only
        rw [others_modReg _ _ _ rfl]
        rfl
      · dsimp only
        rw [others_modReg _ _ _ rfl]
        rfl

theorem others_allocChannel (handler : BitVec 32) (behind : Nat → DmacEntry) (s : Dmac)
    (a : BitVec 32) : others ((allocChannel handler behind s).2.reg a) = others (s.reg a) := by
  unfold allocChannel
  dsimp only
  split
  · rfl
  · exact others_setUp handler behind _ _ a

theorem addr_modPriv {ch : Nat} {f : DmaPriv → DmaPriv} (h : ∀ x, (f x).base = x.base) :
    (s.modPriv ch f).addr ch = s.addr ch := by
  unfold addr
  rw [modPriv_self, h]

/-- A configuration writes to the registers of its channel. -/
theorem reg_configChannel {ch : BitVec 32} (c : DmaConfig) {a : BitVec 32}
    (h : a ≠ s.addr ch.toNat) : (s.configChannel ch c).2.reg a = s.reg a := by
  unfold configChannel
  split
  · rfl
  · split
    · rfl
    · dsimp only
      split
      · rfl
      · have hmod : a ≠ ((s.modPriv ch.toNat fun x => { x with
            srcTw := c.srcTw.setWidth 32, dstTw := c.dstTw.setWidth 32, mode := c.mode }).modPriv
              ch.toNat fun x => { x with chMode := c.chMode }).addr ch.toNat := by
          rw [addr_modPriv fun x => ?_, addr_modPriv fun x => ?_]
          · exact h
          · rfl
          · rfl
        split
        · exact Function.update_of_ne hmod _ _
        · exact Function.update_of_ne hmod _ _

/-- A start that fits changes the size only. -/
theorem others_start {ch src dst len : BitVec 32} (h : s.StartFits ch src dst len) {t : Dmac}
    (ht : s.start ch src dst len = some t) (a : BitVec 32) :
    others (t.reg a) = others (s.reg a) := by
  by_cases haddr : Addressed ch src dst
  · rcases start_cases s len haddr with ⟨hdiv, -⟩ | ⟨-, -, hs⟩ | ⟨-, hpass, hs⟩
    · exact absurd (h haddr).1 hdiv
    · rw [hs] at ht
      cases ht
      rfl
    · rw [hs] at ht
      cases ht
      refine others_modReg s (s.addr ch.toNat)
        (fun r => startRegs r (s.dmaInstance ch.toNat).chMode src dst len) ?_ a
      rcases (h haddr).2 hpass with ⟨-, hone, hmax⟩ | hsame
      · have hword := setTotalSize_other (r := s.reg (s.addr ch.toNat)) hone hmax
        unfold others at hword ⊢
        rw [startRegs_chctrla, hword]
      · rw [(startRegs_eq_iff _ _).mpr hsame]
  · unfold start at ht
    rw [if_pos (not_not.mp haddr)] at ht
    cases ht
    rfl

end Kept

namespace Configured

theorem init_asLeft : init.AsLeft :=
  fun _ => BitVec.zero_and

theorem step_asLeft (handler : BitVec 32) (behind : Nat → DmacEntry) (s : Configured)
    (a : DmacAct) (t : Configured) (hinv : s.AsLeft) (hfit : s.Fitting a)
    (h : step handler behind s a = some t) : t.AsLeft := by
  intro b
  cases a with
  | alloc =>
      cases h
      exact (others_allocChannel handler behind s.dmac b).trans (hinv b)
  | config ch c =>
      cases h
      change _ = Function.update s.left _ _ b
      by_cases hb : b = s.dmac.addr ch.toNat
      · subst hb
        rw [Function.update_self]
      · rw [Function.update_of_ne hb, reg_configChannel c hb]
        exact hinv b
  | start ch src dst len =>
      rcases Option.map_eq_some_iff.mp h with ⟨d, hd, rfl⟩
      exact (others_start hfit hd b).trans (hinv b)

/-- In a run from the driver as it is before it is called, every start does what it should
    exactly if every one has a length that fits. -/
theorem starts_iff (handler : BitVec 32) (behind : Nat → DmacEntry) (as : List DmacAct) :
    Run.Along (step handler behind) Starts init as ↔
      Run.Along (step handler behind) Fitting init as := by
  refine Run.along_iff (step_asLeft handler behind) ?_ as init init_asLeft
  intro s a hinv
  cases a with
  | alloc => exact Iff.rfl
  | config ch c => exact Iff.rfl
  | start ch src dst len => exact start_ok_iff (hinv _)

/-- A channel that was not configured divides by zero. -/
theorem start_divides_by_zero :
    ¬∀ as : List DmacAct, Run.Along (step 0x100#32 fun _ => ⟨0, 0, 0⟩) Starts init as := by
  intro hall
  rcases (hall [.alloc, .start 0 1 1 4]).2 _ rfl with ⟨⟨t, ht, -⟩, -⟩
  cases ht

end Configured

end Dmac

end Driver

end Wujian100
