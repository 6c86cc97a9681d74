import Wujian100.Core.Driver.Dmac
import Wujian100.Library.Run

/-!
# Who Has Which Channel

`sg_dmac_config` is looked at once for each channel and has one entry, so the first channel
is the only one that can be opened without looking behind it. `csi_dma_alloc_channel_ex`
looks at the channel it is given before it knows that there is one. As long as nobody asks
for another channel than the first, what is handed out is what is open, and the interrupt is
enabled exactly while something is.

## Main definitions

* `ChannelAct`, `Handing.next`: Calls, with the channels that were handed out.
* `Handing.Sound`: What a call should leave.
* `Handing.AsksFirst`: A call asks for the first channel, and only while it is free where
  the driver may choose.

## Theorems

* `Handing.next_inv`: The first channel is the only one that is ever open.
* `Handing.channels_iff`: All calls of a run leave what they should exactly if all of them
  ask for the first channel.
-/

namespace Wujian100

namespace Driver

namespace Dmac

/-- Calls that hand channels out and take them back. -/
inductive ChannelAct where
  | alloc
  | allocEx (ch : BitVec 32)
  | release (ch : BitVec 32)

/-- A call, and what it returns. A release returns nothing. -/
def call (handler : BitVec 32) (behind : Nat → DmacEntry) (s : Dmac) : ChannelAct → Int × Dmac
  | .alloc => allocChannel handler behind s
  | .allocEx ch => allocChannelEx handler behind s ch
  | .release ch => (0, s.releaseChannel ch)

/-! ## What the functions do -/

section Calls

variable {handler : BitVec 32} {behind : Nat → DmacEntry} {s : Dmac}

/-- A channel is open. -/
abbrev IsOpen (s : Dmac) (ch : Nat) : Prop :=
  (s.dmaInstance ch).chOpened = true

theorem range_channels : List.range dmaChannelNum = 0 :: List.range' 1 15 := by
  rfl

theorem firstFree_zero (h : ¬s.IsOpen 0) : s.firstFree = 0 := by
  have hclosed : (!(s.dmaInstance 0).chOpened) = true := by
    unfold IsOpen at h
    rw [Bool.not_eq_true] at h
    rw [h]
    rfl
  unfold firstFree
  rw [range_channels, List.find?_cons, hclosed]
  rfl

/-- If the first channel is open and the second is not, the second is the first free one. -/
theorem firstFree_one (h : s.IsOpen 0) (h1 : ¬s.IsOpen 1) : s.firstFree = 1 := by
  have hopen : (!(s.dmaInstance 0).chOpened) = false := by
    unfold IsOpen at h
    rw [h]
    rfl
  have hclosed : (!(s.dmaInstance 1).chOpened) = true := by
    unfold IsOpen at h1
    rw [Bool.not_eq_true] at h1
    rw [h1]
    rfl
  unfold firstFree
  rw [range_channels, List.find?_cons, hopen, List.range'_succ]
  dsimp only
  rw [List.find?_cons, hclosed]
  rfl

theorem openNum_pos_iff (ch : Nat) : s.openNum ch ≥ 1 ↔
    ∃ i, ch ≤ i ∧ i < ch / dmaChannelNum + dmaChannelNum ∧ s.IsOpen i := by
  unfold openNum
  rw [ge_iff_le, Nat.one_le_iff_ne_zero, ← Nat.pos_iff_ne_zero, List.countP_pos_iff,
    List.range_eq_range', List.drop_range']
  constructor
  · rintro ⟨i, hi, hopen⟩
    rw [List.mem_range'_1] at hi
    exact ⟨i, by omega, by omega, hopen⟩
  · rintro ⟨i, hlow, hhigh, hopen⟩
    refine ⟨i, ?_, hopen⟩
    rw [List.mem_range'_1]
    omega

theorem openChannel_isOpen (ch : Nat) : (s.openChannel ch).IsOpen ch := by
  unfold IsOpen openChannel
  rw [modPriv_self]

theorem outside_setUp {ch : Nat} (hch : ch < dmaChannelNum) :
    (setUp handler behind s ch).2.outside = (s.outside || !decide (ch = 0)) := by
  unfold setUp
  cases hentry : targetGetDmac handler behind ch with
  | none =>
      unfold targetGetDmac at hentry
      rw [if_pos hch] at hentry
      cases hentry
  | some entry =>
      dsimp only
      split
      · rfl
      · rfl

/-- Any channel but the first is looked for behind the table. -/
theorem outside_setUp_of_ne {ch : Nat} (h : ch ≠ 0) (hch : ch < dmaChannelNum) :
    (setUp handler behind s ch).2.outside = true := by
  rw [outside_setUp hch, decide_eq_false h]
  exact Bool.or_true _

/-- The first channel, as it is taken. -/
def taken (handler : BitVec 32) (s : Dmac) : Dmac :=
  let s := (s.openChannel 0).lookAt true
  let s := s.modPriv 0 fun x => { x with base := 0x40000000#32, irq := 32#32, status := .ready }
  let s := s.modReg (s.addr 0) fun r =>
    { r with chintm := r.chintm ||| wjDmaMask, chintc := r.chintc ||| wjDmaIntc }
  { s with irqHandler := Function.update s.irqHandler 32#32 (some handler)
           irqEnabled := Function.update s.irqEnabled 32#32 true }

theorem taken_zero (handler : BitVec 32) (s : Dmac) : (s.taken handler).dmaInstance 0
    = { s.dmaInstance 0 with
          base := 0x40000000#32, irq := 32#32, status := .ready, chOpened := true } := by
  unfold taken
  dsimp only
  rw [dmaInstance_modReg, modPriv_self]
  change { (s.openChannel 0).dmaInstance 0 with
    base := 0x40000000#32, irq := 32#32, status := .ready } = _
  unfold openChannel
  rw [modPriv_self]

theorem taken_of_ne {i : Nat} (h : i ≠ 0) :
    (s.taken handler).dmaInstance i = s.dmaInstance i := by
  unfold taken
  dsimp only
  rw [dmaInstance_modReg, modPriv_of_ne _ _ _ h]
  change (s.openChannel 0).dmaInstance i = _
  unfold openChannel
  rw [modPriv_of_ne _ _ _ h]

theorem irqHandler_taken : (s.taken handler).irqHandler 32#32 = some handler := by
  unfold taken
  dsimp only
  rw [Function.update_self]

theorem irqEnabled_taken : (s.taken handler).irqEnabled 32#32 = true := by
  unfold taken
  dsimp only
  rw [Function.update_self]

theorem outside_taken : (s.taken handler).outside = s.outside :=
  Bool.or_false _

theorem setUp_zero : setUp handler behind (s.openChannel 0) 0 = (0, s.taken handler) := by
  unfold setUp
  dsimp only [targetGetDmac]
  rw [if_pos (by decide : 0 < dmaChannelNum), if_pos rfl]
  dsimp only
  rw [if_pos ?_]
  · rfl
  · rw [openNum_pos_iff]
    refine ⟨0, Nat.le_refl 0, by decide, ?_⟩
    unfold IsOpen
    rw [dmaInstance_modReg, modPriv_self]
    exact openChannel_isOpen (s := s) 0

/-- An allocation while the first channel is free takes it. -/
theorem allocChannel_free (h : ¬s.IsOpen 0) :
    allocChannel handler behind s = (0, s.taken handler) := by
  unfold allocChannel
  rw [firstFree_zero h, if_neg (by decide), setUp_zero]

/-- An allocation while it is not takes the second, and looks behind the table. -/
theorem allocChannel_open (h : s.IsOpen 0) (h1 : ¬s.IsOpen 1) :
    (allocChannel handler behind s).2.outside = true := by
  unfold allocChannel
  rw [firstFree_one h h1, if_neg (by decide)]
  exact outside_setUp_of_ne (by decide) (by decide)

/-- The first channel is asked for by its number. -/
theorem allocChannelEx_zero {ch : BitVec 32} (hch : ch ≠ -1#32) (h : ch.toNat % 2 ^ 8 = 0) :
    allocChannelEx handler behind s ch
      = if s.IsOpen 0 then (-1, s) else (0, s.taken handler) := by
  have hlook : s.lookAt (decide (0 < dmaChannelNum)) = s := by
    unfold lookAt
    rw [decide_eq_true (by decide), Bool.not_true, Bool.or_false]
  unfold allocChannelEx
  rw [if_neg hch]
  dsimp only
  rw [h, hlook]
  by_cases hopen : s.IsOpen 0
  · rw [if_pos hopen, if_pos hopen]
  · rw [if_neg hopen, if_neg hopen, if_neg (by decide), setUp_zero]

/-- Another channel is asked for by its number while it is not open, or there is no such
    channel. -/
theorem allocChannelEx_other {ch : BitVec 32} (hch : ch ≠ -1#32) (h : ch.toNat % 2 ^ 8 ≠ 0)
    (hclosed : ∀ i < dmaChannelNum, 0 < i → ¬s.IsOpen i) :
    (allocChannelEx handler behind s ch).2.outside = true := by
  unfold allocChannelEx
  rw [if_neg hch]
  dsimp only
  generalize ch.toNat % 2 ^ 8 = num at h
  by_cases hnum : num < dmaChannelNum
  · change (ite (s.IsOpen num) _ _ : Int × Dmac).2.outside = true
    rw [if_neg (hclosed num hnum (Nat.pos_of_ne_zero h)), if_neg (Nat.not_le.mpr hnum)]
    exact outside_setUp_of_ne h hnum
  · have hlook : (s.lookAt (decide (num < dmaChannelNum))).outside = true := by
      unfold lookAt
      rw [decide_eq_false hnum]
      exact Bool.or_true _
    split
    · exact hlook
    · rw [if_pos (Nat.not_lt.mp hnum)]
      exact hlook

/-- A channel that was given back. -/
def released (s : Dmac) (num : Nat) : Dmac :=
  let s := s.modPriv num fun x => { x with status := .free, chOpened := false }
  let s := s.modReg (s.addr num) fun r => { r with chintm := 0#32, chintc := 0#32 }
  if s.openNum num ≥ 1 then s
  else
    { s with irqEnabled := Function.update s.irqEnabled (s.dmaInstance num).irq false
             irqHandler := Function.update s.irqHandler (s.dmaInstance num).irq none }

theorem releaseChannel_eq (s : Dmac) (ch : BitVec 32) :
    s.releaseChannel ch = if ch.toNat < dmaChannelNum then s.released ch.toNat else s := by
  have hrange : (ch.toInt ≥ dmaChannelNum ∨ ch.toInt < 0) ↔ ¬ch.toNat < dmaChannelNum := by
    have hlt := ch.isLt
    rw [BitVec.toInt_eq_toNat_cond]
    unfold dmaChannelNum
    split
    · omega
    · omega
  unfold releaseChannel
  by_cases hch : ch.toNat < dmaChannelNum
  · rw [if_pos hch, if_neg (mt hrange.mp (not_not.mpr hch))]
    rfl
  · rw [if_neg hch, if_pos (hrange.mpr hch)]

theorem released_self (s : Dmac) (num : Nat) : (s.released num).dmaInstance num
    = { s.dmaInstance num with status := .free, chOpened := false } := by
  unfold released
  dsimp only
  split
  · exact Function.update_self _ _ _
  · exact Function.update_self _ _ _

theorem released_of_ne {num i : Nat} (h : i ≠ num) :
    (s.released num).dmaInstance i = s.dmaInstance i := by
  unfold released
  dsimp only
  split
  · exact Function.update_of_ne h _ _
  · exact Function.update_of_ne h _ _

theorem outside_released (s : Dmac) (num : Nat) : (s.released num).outside = s.outside := by
  unfold released
  dsimp only
  split
  · rfl
  · rfl

/-- Only the interrupt of the channel's own controller is touched. -/
theorem irq_released_of_ne {num : Nat} {q : BitVec 32} (h : q ≠ (s.dmaInstance num).irq) :
    (s.released num).irqEnabled q = s.irqEnabled q ∧
      (s.released num).irqHandler q = s.irqHandler q := by
  have hq : q ≠ ((s.modPriv num fun x =>
      { x with status := .free, chOpened := false }).dmaInstance num).irq := by
    rw [modPriv_self]
    exact h
  unfold released
  dsimp only
  split
  · exact ⟨rfl, rfl⟩
  · exact ⟨Function.update_of_ne hq _ _, Function.update_of_ne hq _ _⟩

/-- The interrupt is disabled when nothing behind the channel is open. -/
theorem irqEnabled_released {num : Nat} (hnum : num < dmaChannelNum)
    (h : ∀ i < dmaChannelNum, num < i → ¬s.IsOpen i) :
    (s.released num).irqEnabled (s.dmaInstance num).irq = false := by
  have hirq : ((s.modPriv num fun x =>
      { x with status := .free, chOpened := false }).dmaInstance num).irq
        = (s.dmaInstance num).irq := by
    rw [modPriv_self]
  unfold released
  dsimp only
  rw [if_neg ?_]
  · dsimp only
    rw [dmaInstance_modReg, hirq, Function.update_self]
  · rw [openNum_pos_iff, Nat.div_eq_of_lt hnum, Nat.zero_add]
    rintro ⟨i, hlow, hhigh, hopen⟩
    unfold IsOpen at hopen
    rw [dmaInstance_modReg] at hopen
    rcases Nat.eq_or_lt_of_le hlow with heq | hlt
    · subst heq
      rw [modPriv_self] at hopen
      cases hopen
    · rw [modPriv_of_ne _ _ _ (Nat.ne_of_gt hlt)] at hopen
      exact h i hhigh hlt hopen

end Calls

/-! ## Runs -/

/-- The driver, and the channels that were handed out and not given back. -/
structure Handing where
  dmac : Dmac
  handed : List Nat

namespace Handing

/-- One call, with what it hands out or takes back. -/
def next (handler : BitVec 32) (behind : Nat → DmacEntry) (s : Handing) (a : ChannelAct) :
    Handing :=
  let p := s.dmac.call handler behind a
  { dmac := p.2
    handed :=
      match a with
      | .release ch => s.handed.filter (· ≠ ch.toNat)
      | _ => if p.1 = -1 then s.handed else p.1.toNat :: s.handed }

/-- Calls can always be made. -/
def step (handler : BitVec 32) (behind : Nat → DmacEntry) (s : Handing) (a : ChannelAct) :
    Option Handing :=
  some (s.next handler behind a)

/-- The driver before it is called; what lies behind `dma_instance`, and the registers, are as
    they may be. -/
def init (memory : Nat → DmaPriv) (reg : BitVec 32 → DmaReg) : Handing where
  dmac :=
    { dmaInstance := fun i =>
        if i < dmaChannelNum then ⟨0, 0, 0, 0, 0, 0, .free, false⟩ else memory i
      reg := reg
      irqHandler := fun _ => none
      irqEnabled := fun _ => false
      outside := false }
  handed := []

/-- What is handed out is what is open, with what the controller has for it; its interrupt is
    enabled while something is open, and nothing was looked at that is not there. -/
structure Kept (handler : BitVec 32) (s : Handing) : Prop where
  nodup : s.handed.Nodup
  handed_iff : ∀ i, i ∈ s.handed ↔ i < dmaChannelNum ∧ s.dmac.IsOpen i
  base : ∀ i ∈ s.handed, (s.dmac.dmaInstance i).base = 0x40000000#32
  irq : ∀ i ∈ s.handed, (s.dmac.dmaInstance i).irq = 32#32
  registered : ∀ i ∈ s.handed, s.dmac.irqHandler (s.dmac.dmaInstance i).irq = some handler
  enabled_iff : s.dmac.irqEnabled 32#32 = true ↔ ∃ i < dmaChannelNum, s.dmac.IsOpen i
  inside : s.dmac.outside = false

/-- A call leaves that, and changes nothing where it returns an error. -/
def Sound (handler : BitVec 32) (behind : Nat → DmacEntry) (s : Handing) (a : ChannelAct) :
    Prop :=
  (s.next handler behind a).Kept handler ∧
    ((s.dmac.call handler behind a).1 = -1 → (s.dmac.call handler behind a).2 = s.dmac)

/-- A call asks for the first channel, and only while it is free where the driver may choose
    one. -/
def AsksFirst (s : Handing) : ChannelAct → Prop
  | .alloc => ¬s.dmac.IsOpen 0
  | .allocEx ch => if ch = -1#32 then ¬s.dmac.IsOpen 0 else ch.toNat % 2 ^ 8 = 0
  | .release _ => True

/-- The first channel is the only one that is ever open, and the only one with an
    interrupt. -/
structure Inv (handler : BitVec 32) (s : Handing) : Prop where
  handed : s.handed = if s.dmac.IsOpen 0 then [0] else []
  closed : ∀ i < dmaChannelNum, 0 < i → ¬s.dmac.IsOpen i
  other_irq : ∀ i < dmaChannelNum, 0 < i → (s.dmac.dmaInstance i).irq = 0#32
  first : s.dmac.IsOpen 0 → (s.dmac.dmaInstance 0).base = 0x40000000#32 ∧
    (s.dmac.dmaInstance 0).irq = 32#32 ∧ s.dmac.irqHandler 32#32 = some handler
  enabled : s.dmac.irqEnabled 32#32 = (s.dmac.dmaInstance 0).chOpened
  inside : s.dmac.outside = false

section Run

variable {handler : BitVec 32} {behind : Nat → DmacEntry} {s : Handing}

theorem Inv.kept (h : s.Inv handler) : s.Kept handler := by
  have hmem : ∀ i, i ∈ s.handed ↔ i = 0 ∧ s.dmac.IsOpen 0 := by
    intro i
    rw [h.handed]
    by_cases hopen : s.dmac.IsOpen 0
    · rw [if_pos hopen, List.mem_singleton]
      exact ⟨fun hi => ⟨hi, hopen⟩, And.left⟩
    · rw [if_neg hopen]
      exact ⟨fun hi => absurd hi List.not_mem_nil, fun hi => absurd hi.2 hopen⟩
  have honly : ∀ i < dmaChannelNum, s.dmac.IsOpen i → i = 0 := by
    intro i hi hopen
    by_contra hne
    exact h.closed i hi (Nat.pos_of_ne_zero hne) hopen
  constructor
  · rw [h.handed]
    split
    · exact List.nodup_cons.mpr ⟨List.not_mem_nil, List.nodup_nil⟩
    · exact List.nodup_nil
  · intro i
    rw [hmem]
    constructor
    · rintro ⟨rfl, hopen⟩
      exact ⟨by decide, hopen⟩
    · rintro ⟨hi, hopen⟩
      have hzero := honly i hi hopen
      subst hzero
      exact ⟨rfl, hopen⟩
  · intro i hi
    rcases (hmem i).mp hi with ⟨rfl, hopen⟩
    exact (h.first hopen).1
  · intro i hi
    rcases (hmem i).mp hi with ⟨rfl, hopen⟩
    exact (h.first hopen).2.1
  · intro i hi
    rcases (hmem i).mp hi with ⟨rfl, hopen⟩
    rw [(h.first hopen).2.1]
    exact (h.first hopen).2.2
  · rw [h.enabled]
    constructor
    · exact fun hopen => ⟨0, by decide, hopen⟩
    · rintro ⟨i, hi, hopen⟩
      have hzero := honly i hi hopen
      subst hzero
      exact hopen
  · exact h.inside

theorem inv_taken (h : s.Inv handler) (hclosed : ¬s.dmac.IsOpen 0) :
    Inv handler ⟨s.dmac.taken handler, 0 :: s.handed⟩ := by
  have hopen : (s.dmac.taken handler).IsOpen 0 := by
    unfold IsOpen
    rw [taken_zero]
  constructor
  · rw [if_pos hopen, h.handed, if_neg hclosed]
  · intro i hi hpos
    unfold IsOpen
    rw [taken_of_ne (Nat.ne_of_gt hpos)]
    exact h.closed i hi hpos
  · intro i hi hpos
    dsimp only
    rw [taken_of_ne (Nat.ne_of_gt hpos)]
    exact h.other_irq i hi hpos
  · intro _
    dsimp only
    rw [taken_zero]
    exact ⟨rfl, rfl, irqHandler_taken⟩
  · exact irqEnabled_taken.trans hopen.symm
  · exact outside_taken.trans h.inside

theorem inv_released (h : s.Inv handler) {num : Nat} (hnum : num < dmaChannelNum) :
    Inv handler ⟨s.dmac.released num, s.handed.filter (· ≠ num)⟩ := by
  have hbehind : ∀ i < dmaChannelNum, num < i → ¬s.dmac.IsOpen i := fun i hi hlt =>
    h.closed i hi (Nat.zero_lt_of_lt hlt)
  -- The first channel gives the interrupt back; another one has none.
  rcases Nat.eq_zero_or_pos num with rfl | hpos
  · have hopen : ¬(s.dmac.released 0).IsOpen 0 := by
      unfold IsOpen
      rw [released_self]
      exact Bool.false_ne_true
    constructor
    · rw [if_neg hopen, h.handed]
      split
      · rfl
      · rfl
    · intro i hi hpos
      unfold IsOpen
      rw [released_of_ne (Nat.ne_of_gt hpos)]
      exact h.closed i hi hpos
    · intro i hi hpos
      dsimp only
      rw [released_of_ne (Nat.ne_of_gt hpos)]
      exact h.other_irq i hi hpos
    · exact fun hcontra => absurd hcontra hopen
    · dsimp only
      rw [released_self]
      have hirq := irqEnabled_released hnum hbehind
      by_cases hq : (s.dmac.dmaInstance 0).irq = 32#32
      · rw [hq] at hirq
        exact hirq
      · rw [(irq_released_of_ne (Ne.symm hq)).1, h.enabled]
        exact Bool.eq_false_iff.mpr fun hwas => hq (h.first hwas).2.1
    · exact (outside_released s.dmac 0).trans h.inside
  · have hzero : (s.dmac.released num).dmaInstance 0 = s.dmac.dmaInstance 0 :=
      released_of_ne (Nat.ne_of_lt hpos)
    have hq : (32#32 : BitVec 32) ≠ (s.dmac.dmaInstance num).irq := by
      rw [h.other_irq num hnum hpos]
      decide
    constructor
    · unfold IsOpen
      dsimp only
      rw [hzero, h.handed]
      split
      · exact List.filter_cons_of_pos (decide_eq_true (Nat.ne_of_lt hpos))
      · rfl
    · intro i hi hi0
      unfold IsOpen
      dsimp only
      by_cases hne : i = num
      · subst hne
        rw [released_self]
        exact Bool.false_ne_true
      · rw [released_of_ne hne]
        exact h.closed i hi hi0
    · intro i hi hi0
      dsimp only
      by_cases hne : i = num
      · subst hne
        rw [released_self]
        exact h.other_irq i hi hi0
      · rw [released_of_ne hne]
        exact h.other_irq i hi hi0
    · intro hopen
      unfold IsOpen at hopen
      dsimp only at hopen ⊢
      rw [hzero] at hopen ⊢
      rw [(irq_released_of_ne hq).2]
      exact h.first hopen
    · dsimp only
      rw [hzero, (irq_released_of_ne hq).1]
      exact h.enabled
    · exact (outside_released s.dmac num).trans h.inside

/-- A call for the first channel takes it, or finds it open and changes nothing. -/
theorem call_first (handler : BitVec 32) (behind : Nat → DmacEntry) {a : ChannelAct}
    (hask : s.AsksFirst a) (ha : ∀ ch, a ≠ .release ch) :
    (¬s.dmac.IsOpen 0 ∧ s.dmac.call handler behind a = (0, s.dmac.taken handler)) ∨
      s.dmac.call handler behind a = (-1, s.dmac) := by
  cases a with
  | alloc => exact .inl ⟨hask, allocChannel_free hask⟩
  | allocEx ch =>
      unfold AsksFirst at hask
      unfold call
      dsimp only at hask ⊢
      by_cases hch : ch = -1#32
      · rw [if_pos hch] at hask
        refine .inl ⟨hask, ?_⟩
        unfold allocChannelEx
        rw [if_pos hch]
        exact allocChannel_free hask
      · rw [if_neg hch] at hask
        rw [allocChannelEx_zero hch hask]
        by_cases hopen : s.dmac.IsOpen 0
        · exact .inr (if_pos hopen)
        · exact .inl ⟨hopen, if_neg hopen⟩
  | release ch => exact absurd rfl (ha ch)

theorem next_of_call {a : ChannelAct} (ha : ∀ ch, a ≠ .release ch) {r : Int} {t : Dmac}
    (h : s.dmac.call handler behind a = (r, t)) : s.next handler behind a
      = ⟨t, if r = -1 then s.handed else r.toNat :: s.handed⟩ := by
  unfold next
  rw [h]
  cases a with
  | alloc => rfl
  | allocEx ch => rfl
  | release ch => exact absurd rfl (ha ch)

/-- A call for the first channel keeps the invariant, and an error changes nothing. -/
theorem next_inv (behind : Nat → DmacEntry) (h : s.Inv handler) {a : ChannelAct}
    (hask : s.AsksFirst a) :
    (s.next handler behind a).Inv handler ∧
      ((s.dmac.call handler behind a).1 = -1 → (s.dmac.call handler behind a).2 = s.dmac) := by
  by_cases ha : ∀ ch, a ≠ .release ch
  · rcases call_first handler behind hask ha with
      ⟨hclosed, hcall⟩ | hcall
    · rw [next_of_call ha hcall, hcall]
      refine ⟨inv_taken h hclosed, fun hneg => ?_⟩
      exact absurd (show (0 : Int) = -1 from hneg) (by decide)
    · rw [next_of_call ha hcall, hcall]
      exact ⟨h, fun _ => rfl⟩
  · rcases not_forall_not.mp ha with ⟨ch, rfl⟩
    refine ⟨?_, fun hneg => absurd (show (0 : Int) = -1 from hneg) (by decide)⟩
    unfold next call
    dsimp only
    rw [releaseChannel_eq]
    by_cases hch : ch.toNat < dmaChannelNum
    · rw [if_pos hch]
      exact inv_released h hch
    · rw [if_neg hch]
      have hsame : s.handed.filter (· ≠ ch.toNat) = s.handed := by
        refine List.filter_eq_self.mpr fun i hi => decide_eq_true fun heq => hch ?_
        rw [← heq]
        exact ((h.kept.handed_iff i).mp hi).1
      rw [hsame]
      exact h

/-- A call for another channel looks at what is not there. -/
theorem outside_of_not_asks (behind : Nat → DmacEntry) (h : s.Inv handler) {a : ChannelAct}
    (hask : ¬s.AsksFirst a) :
    (s.next handler behind a).dmac.outside = true := by
  cases a with
  | alloc => exact allocChannel_open (not_not.mp hask) (h.closed 1 (by decide) (by decide))
  | allocEx ch =>
      unfold AsksFirst at hask
      dsimp only at hask
      change (allocChannelEx handler behind s.dmac ch).2.outside = true
      by_cases hch : ch = -1#32
      · rw [if_pos hch] at hask
        unfold allocChannelEx
        rw [if_pos hch]
        exact allocChannel_open (not_not.mp hask) (h.closed 1 (by decide) (by decide))
      · rw [if_neg hch] at hask
        exact allocChannelEx_other hch hask h.closed
  | release ch => exact absurd trivial hask

theorem sound_iff (h : s.Inv handler) (a : ChannelAct) :
    s.Sound handler behind a ↔ s.AsksFirst a := by
  constructor
  · intro hsound
    by_contra hask
    have hout := outside_of_not_asks behind h hask
    rw [hsound.1.inside] at hout
    cases hout
  · intro hask
    rcases next_inv behind h hask with ⟨hinv, hsame⟩
    exact ⟨hinv.kept, hsame⟩

theorem init_inv (handler : BitVec 32) (memory : Nat → DmaPriv) (reg : BitVec 32 → DmaReg) :
    (init memory reg).Inv handler := by
  have hzero : ∀ i < dmaChannelNum, (init memory reg).dmac.dmaInstance i
      = ⟨0, 0, 0, 0, 0, 0, .free, false⟩ := fun i hi => if_pos hi
  have hclosed : ∀ i < dmaChannelNum, ¬(init memory reg).dmac.IsOpen i := by
    intro i hi
    unfold IsOpen
    rw [hzero i hi]
    exact Bool.false_ne_true
  constructor
  · rw [if_neg (hclosed 0 (by decide))]
    rfl
  · exact fun i hi _ => hclosed i hi
  · intro i hi _
    rw [hzero i hi]
    rfl
  · exact fun hopen => absurd hopen (hclosed 0 (by decide))
  · rw [hzero 0 (by decide)]
    rfl
  · rfl

/-- In a run from the driver as it is before it is called, every call leaves what it should
    exactly if every call asks for the first channel. -/
theorem channels_iff (handler : BitVec 32) (behind : Nat → DmacEntry) (memory : Nat → DmaPriv)
    (reg : BitVec 32 → DmaReg) (as : List ChannelAct) :
    Run.Along (step handler behind) (Sound handler behind) (init memory reg) as ↔
      Run.Along (step handler behind) AsksFirst (init memory reg) as := by
  refine Run.along_iff ?_ (fun s a h => sound_iff h a) as (init memory reg)
    (init_inv handler memory reg)
  intro s a t hinv hask hstep
  cases hstep
  exact (next_inv behind hinv hask).1

/-- The second channel is looked for behind the table. -/
theorem second_channel_outside :
    ¬∀ as : List ChannelAct, Run.Along (step 0x100#32 fun _ => ⟨0, 0, 0⟩)
      (Sound 0x100#32 fun _ => ⟨0, 0, 0⟩)
      (init (fun _ => ⟨0, 0, 0, 0, 0, 0, .free, false⟩)
        fun _ => ⟨0, 0, 0, 0, 0, 0, 0, 0⟩) as := by
  intro hall
  have hinside := ((hall [.alloc, .alloc]).2 _ rfl).1.1.inside
  revert hinside
  decide

end Run

end Handing

end Dmac

end Driver

end Wujian100
