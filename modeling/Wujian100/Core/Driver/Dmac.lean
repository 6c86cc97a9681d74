import Mathlib.Logic.Function.Basic
import Mathlib.Tactic.Ring

/-!
# The DMA Controller's Driver

`wj_dmac_v2.c`: channels are handed out, configured and started. The registers of a channel
lie at the address the driver computes from the base it looked up, so a base that is not the
controller's leads to registers somewhere else.

`sg_dmac_config` says that it has an entry for each channel and has one. What is read behind
it is a parameter, and so is, for a channel number that is none, the memory behind
`dma_instance`; `outside` notes that something there was looked at.

## Main definitions

* `DmaReg`, `DmaPriv`, `Dmac`: Registers, a channel's record and the driver with its hardware.
* `Dmac.allocChannel`, `Dmac.allocChannelEx`, `Dmac.releaseChannel`: Who has which channel.
* `Dmac.configChannel`, `Dmac.start`: What a channel does.
* `DmacInts.irqhandler`: Its interrupts.
-/

namespace Wujian100

namespace Driver

/-- `wj_dma_reg_t`. -/
structure DmaReg where
  sar : BitVec 32
  dar : BitVec 32
  chctrla : BitVec 32
  chctrlb : BitVec 32
  chintm : BitVec 32
  chintc : BitVec 32
  chsreq : BitVec 32
  chen : BitVec 32
deriving DecidableEq

/-- `dma_status_e`. -/
inductive DmaStatus where
  | free
  | ready
  | busy
  | done
  | error
deriving DecidableEq, Repr

/-- `wj_dma_priv_t`. `mode` and `chMode` are what was given for them, whatever it was. -/
structure DmaPriv where
  base : BitVec 32
  irq : BitVec 32
  chMode : BitVec 32
  srcTw : BitVec 32
  dstTw : BitVec 32
  mode : BitVec 32
  status : DmaStatus
  chOpened : Bool
deriving DecidableEq

/-- An entry of a `device_irq_table_t`. A handler is its address. -/
structure DmacEntry where
  base : BitVec 32
  irq : BitVec 32
  handler : BitVec 32
deriving DecidableEq

/-- `dma_config_t`, as far as it is read. -/
structure DmaConfig where
  srcInc : BitVec 32
  dstInc : BitVec 32
  srcEndian : BitVec 32
  dstEndian : BitVec 32
  srcTw : BitVec 8
  dstTw : BitVec 8
  preemption : BitVec 8
  mode : BitVec 32
  chMode : BitVec 32
  singleDir : BitVec 32
  groupLen : BitVec 32

/-- The driver and the hardware it writes to. -/
structure Dmac where
  dmaInstance : Nat → DmaPriv
  reg : BitVec 32 → DmaReg
  irqHandler : BitVec 32 → Option (BitVec 32)
  irqEnabled : BitVec 32 → Bool
  outside : Bool

/-- What a function that can fail returns: `ERR_DMA` of an error. -/
inductive DrvError where
  | busy
  | parameter
deriving DecidableEq, Repr

/-- `CONFIG_DMA_CHANNEL_NUM` and `CONFIG_PER_DMAC_CHANNEL_NUM`. -/
def dmaChannelNum : Nat := 16

/-- `WJ_DMA_MASK`. -/
def wjDmaMask : BitVec 32 := 0x13#32

/-- `WJ_DMA_INTC`. -/
def wjDmaIntc : BitVec 32 := 0x1f#32

/-- The entry `sg_dmac_config` has: `WJ_DMAC0_BASE`, `DMAC0_IRQn` and the address of
    `DMAC0_IRQHandler`. -/
def sgDmacConfig (handler : BitVec 32) : DmacEntry := ⟨0x40000000#32, 32#32, handler⟩

namespace Dmac

/-- A channel's record, changed. -/
def modPriv (s : Dmac) (ch : Nat) (f : DmaPriv → DmaPriv) : Dmac :=
  { s with dmaInstance := Function.update s.dmaInstance ch (f (s.dmaInstance ch)) }

/-- Registers, changed. -/
def modReg (s : Dmac) (addr : BitVec 32) (f : DmaReg → DmaReg) : Dmac :=
  { s with reg := Function.update s.reg addr (f (s.reg addr)) }

section Mod

variable (s : Dmac) (ch : Nat) (f : DmaPriv → DmaPriv) (a : BitVec 32) (g : DmaReg → DmaReg)

theorem modPriv_self : (s.modPriv ch f).dmaInstance ch = f (s.dmaInstance ch) :=
  Function.update_self _ _ _

theorem modPriv_of_ne {i : Nat} (h : i ≠ ch) :
    (s.modPriv ch f).dmaInstance i = s.dmaInstance i :=
  Function.update_of_ne h _ _

theorem modReg_self : (s.modReg a g).reg a = g (s.reg a) :=
  Function.update_self _ _ _

theorem modReg_of_ne {b : BitVec 32} (h : b ≠ a) : (s.modReg a g).reg b = s.reg b :=
  Function.update_of_ne h _ _

theorem dmaInstance_modReg : (s.modReg a g).dmaInstance = s.dmaInstance :=
  rfl

end Mod

/-- `dma_priv->base + (ch % CONFIG_PER_DMAC_CHANNEL_NUM) * 0x30`. -/
def addr (s : Dmac) (ch : Nat) : BitVec 32 :=
  (s.dmaInstance ch).base + BitVec.ofNat 32 (ch % dmaChannelNum * 0x30)

/-- An index was used that the table has no entry for, or that no channel has. -/
def lookAt (s : Dmac) (inside : Bool) : Dmac :=
  { s with outside := s.outside || !inside }

/-! ## Channels -/

/-- `target_get_dmac`, with what is behind the table. -/
def targetGetDmac (handler : BitVec 32) (behind : Nat → DmacEntry) (idx : Nat) : Option DmacEntry :=
  if idx < dmaChannelNum then some (if idx = 0 then sgDmacConfig handler else behind idx) else none

/-- The first channel that is not open, or `CONFIG_DMA_CHANNEL_NUM`. -/
def firstFree (s : Dmac) : Nat :=
  ((List.range dmaChannelNum).find? fun ch => !(s.dmaInstance ch).chOpened).getD dmaChannelNum

/-- The number of channels open from one on, to the last of its controller. -/
def openNum (s : Dmac) (ch : Nat) : Nat :=
  ((List.range (ch / dmaChannelNum + dmaChannelNum)).drop ch).countP
    fun i => (s.dmaInstance i).chOpened

/-- What both functions that take a channel do with it. -/
def setUp (handler : BitVec 32) (behind : Nat → DmacEntry) (s : Dmac) (ch : Nat) : Int × Dmac :=
  match targetGetDmac handler behind ch with
  | none => (-1, s)
  | some entry =>
      let s := s.lookAt (ch = 0)
      let s := s.modPriv ch fun x => { x with base := entry.base, irq := entry.irq, status := .ready }
      let s := s.modReg (s.addr ch) fun r =>
        { r with chintm := r.chintm ||| wjDmaMask, chintc := r.chintc ||| wjDmaIntc }
      if s.openNum ch ≥ 1 then
        (ch, { s with irqHandler := Function.update s.irqHandler entry.irq (some entry.handler)
                      irqEnabled := Function.update s.irqEnabled entry.irq true })
      else (ch, s)

/-- The channel is open. -/
def openChannel (s : Dmac) (ch : Nat) : Dmac :=
  s.modPriv ch fun x => { x with chOpened := true }

/-- `csi_dma_alloc_channel`. -/
def allocChannel (handler : BitVec 32) (behind : Nat → DmacEntry) (s : Dmac) : Int × Dmac :=
  let ch := s.firstFree
  if ch ≥ dmaChannelNum then (-1, s) else setUp handler behind (s.openChannel ch) ch

/-- `csi_dma_alloc_channel_ex`. The number becomes a `uint8_t` before it is looked at. -/
def allocChannelEx (handler : BitVec 32) (behind : Nat → DmacEntry) (s : Dmac) (ch : BitVec 32) :
    Int × Dmac :=
  if ch = -1#32 then allocChannel handler behind s
  else
    let num := ch.toNat % 2 ^ 8
    let s := s.lookAt (num < dmaChannelNum)
    if (s.dmaInstance num).chOpened = true then (-1, s)
    else
      let s := s.openChannel num
      if num ≥ dmaChannelNum then (-1, s) else setUp handler behind s num

/-- `csi_dma_release_channel`. It looks for open channels behind this one. -/
def releaseChannel (s : Dmac) (ch : BitVec 32) : Dmac :=
  if ch.toInt ≥ dmaChannelNum ∨ ch.toInt < 0 then s
  else
    let num := ch.toNat
    let s := s.modPriv num fun x => { x with status := .free, chOpened := false }
    let s := s.modReg (s.addr num) fun r => { r with chintm := 0#32, chintc := 0#32 }
    if s.openNum num ≥ 1 then s
    else
      { s with irqEnabled := Function.update s.irqEnabled (s.dmaInstance num).irq false
               irqHandler := Function.update s.irqHandler (s.dmaInstance num).irq none }

/-! ## Transfers -/

/-- `wj_dma_set_transferwidth`. -/
def setTransferwidth (r : DmaReg) (src dst : BitVec 8) : Except DrvError DmaReg :=
  if (src ≠ 1 ∧ src ≠ 2 ∧ src ≠ 4) ∨ (dst ≠ 1 ∧ dst ≠ 2 ∧ dst ≠ 4) then .error .parameter
  else
    let code : BitVec 8 → BitVec 32 := fun w => if w = 4 then 2 else (w - 1).setWidth 32
    .ok { r with chctrla := (r.chctrla &&& 0xfffffff0#32) ||| (code src <<< 2) ||| code dst }

/-- `wj_dma_set_addrinc`. -/
def setAddrinc (r : DmaReg) (src dst : BitVec 32) : Except DrvError DmaReg :=
  if (src ≠ 0 ∧ src ≠ 1 ∧ src ≠ 2) ∨ (dst ≠ 0 ∧ dst ≠ 1 ∧ dst ≠ 2) then .error .parameter
  else .ok { r with chctrla := (r.chctrla &&& 0xffffff0f#32) ||| (src <<< 6) ||| (dst <<< 4) }

/-- `wj_dma_set_addr_endian`. -/
def setAddrEndian (r : DmaReg) (src dst : BitVec 32) : DmaReg :=
  { r with chctrlb := (r.chctrlb &&& 0xffff9fff#32) ||| (src <<< 13) ||| (dst <<< 14) }

/-- `wj_dma_trans_mode_set`. -/
def transModeSet (r : DmaReg) (mode : BitVec 32) : DmaReg :=
  { r with chctrlb := (r.chctrlb &&& 0xfffffff9#32) ||| (mode <<< 1) }

/-- `wj_dma_set_singlemode`. Where it fails it has changed the register. -/
def setSinglemode (r : DmaReg) (c : DmaConfig) : DmaReg × Option DrvError :=
  let a := (r.chctrla &&& 0xefffffff#32) ||| (c.singleDir <<< 26)
  if c.preemption = 0 then
    ({ r with chctrla := if c.singleDir = 1 then a &&& 0xfbffffff#32 else a &&& 0xfdffffff#32 }, none)
  else if c.preemption = 1 then
    ({ r with chctrla := if c.singleDir = 0 then a ||| 0x04000000#32 else a ||| 0x02000000#32 }, none)
  else ({ r with chctrla := a }, some .parameter)

/-- `wj_dma_set_groupmode`. -/
def setGroupmode (r : DmaReg) (c : DmaConfig) : DmaReg × Option DrvError :=
  if c.srcInc ≠ 0 ∧ c.srcInc ≠ 1 ∧ c.srcInc ≠ 2 then (r, some .parameter)
  else
    let a := if c.srcInc = 2 then r.chctrla ||| 0x20000000#32 else r.chctrla &&& 0xdfffffff#32
    if c.dstInc ≠ 0 ∧ c.dstInc ≠ 1 ∧ c.dstInc ≠ 2 then ({ r with chctrla := a }, some .parameter)
    else
      let a := if c.dstInc = 2 then a ||| 0x80000000#32 else a &&& 0x7fffffff#32
      if c.preemption ≠ 0 ∧ c.preemption ≠ 1 then ({ r with chctrla := a }, some .parameter)
      else
        let a := if c.preemption = 1 then a ||| 0x01000000#32 else a &&& 0xfeffffff#32
        ({ r with chctrla := (a &&& 0xfffff0ff#32) ||| ((c.groupLen - 1) <<< 8) }, none)

/-- The modes: `DMA_SINGLE_TRIGGER`, `DMA_GROUP_TRIGGER` and `DMA_BLOCK_TRIGGER`. -/
def singleTrigger : BitVec 32 := 0#32

def groupTrigger : BitVec 32 := 1#32

def blockTrigger : BitVec 32 := 2#32

/-- The last steps of `csi_dma_config_channel`, by the mode. -/
def setMode (r : DmaReg) (c : DmaConfig) : DmaReg × Option DrvError :=
  if c.mode = singleTrigger then setSinglemode r c
  else if c.mode = groupTrigger then
    if c.groupLen = 0 ∨ c.groupLen > 8 then (r, some .parameter)
    else if c.groupLen % c.srcTw.setWidth 32 ≠ 0 ∨ c.groupLen % c.dstTw.setWidth 32 ≠ 0 then
      (r, some .parameter)
    else setGroupmode r c
  else if c.mode = blockTrigger then (r, none)
  else (r, some .parameter)

/-- The registers `csi_dma_config_channel` leaves, and its error. -/
def setRegs (r : DmaReg) (c : DmaConfig) : DmaReg × Option DrvError :=
  match setTransferwidth r c.srcTw c.dstTw with
  | .error e => (r, some e)
  | .ok r =>
      match setAddrinc r c.srcInc c.dstInc with
      | .error e => (r, some e)
      | .ok r => setMode (transModeSet (setAddrEndian r c.srcEndian c.dstEndian) c.mode) c

/-- `csi_dma_config_channel`. What it keeps for `csi_dma_start` is kept before the tests. -/
def configChannel (s : Dmac) (ch : BitVec 32) (c : DmaConfig) : Except DrvError Nat × Dmac :=
  if ch.toInt ≥ dmaChannelNum ∨ ch.toInt < 0 then (.error .parameter, s)
  else if c.srcTw = 0 ∨ c.dstTw = 0 then (.error .parameter, s)
  else
    let num := ch.toNat
    let s := s.modPriv num fun x =>
      { x with srcTw := c.srcTw.setWidth 32, dstTw := c.dstTw.setWidth 32, mode := c.mode }
    if (s.dmaInstance num).chOpened = false then (.error .busy, s)
    else
      let s := s.modPriv num fun x => { x with chMode := c.chMode }
      let p := setRegs (s.reg (s.addr num)) c
      let s := s.modReg (s.addr num) fun _ => p.1
      match p.2 with
      | some e => (.error e, s)
      | none => (.ok num, s.modPriv num fun x => { x with status := .ready })

/-- `wj_dma_set_total_size`. -/
def setTotalSize (r : DmaReg) (len : BitVec 32) : DmaReg :=
  { r with chctrla := (r.chctrla &&& 0xff000fff#32) ||| ((len - 1) <<< 12) }

/-- The registers of a channel that starts. -/
def startRegs (r : DmaReg) (chMode src dst len : BitVec 32) : DmaReg :=
  let r := { setTotalSize r len with sar := src, dar := dst }
  let r := { r with chctrlb := r.chctrlb ||| 1#32, chen := r.chen ||| 1#32 }
  if chMode = 1#32 then { r with chsreq := 1#32 } else r

/-- `csi_dma_start`; nothing where it divides by zero. The second test has the wrong number
    in parentheses: it divides by whether the width is not zero. -/
def start (s : Dmac) (ch src dst len : BitVec 32) : Option Dmac :=
  if ch.toInt ≥ dmaChannelNum ∨ ch.toInt < 0 ∨ src = 0 ∨ dst = 0 then some s
  else
    let num := ch.toNat
    let x := s.dmaInstance num
    if (x.mode = groupTrigger ∨ x.mode = blockTrigger) ∧ (x.srcTw = 0 ∨ x.dstTw = 0) then some s
    else if (x.mode = groupTrigger ∨ x.mode = blockTrigger) ∧
        (len % x.srcTw ≠ 0 ∨ len % (if x.dstTw ≠ 0 then 1#32 else 0#32) ≠ 0) then some s
    else if x.dstTw = 0 then none
    else if len * x.srcTw % x.dstTw ≠ 0 then some s
    else
      let s := s.modReg (s.addr num) fun r => startRegs r x.chMode src dst len
      some (s.modPriv num fun x => { x with status := .busy })

end Dmac

/-! ## Interrupts -/

/-- `WJ_DMA_TFR`. -/
def wjDmaTfr : BitVec 32 := 0x2#32

/-- `WJ_DMA_TRGETCMPFR`. -/
def wjDmaTrgetcmpfr : BitVec 32 := 0x8#32

/-- `WJ_DMA_ERR`. -/
def wjDmaErr : BitVec 32 := 0x1#32

/-- What a callback is told. -/
inductive DmaEvent where
  | transferDone
  | transferError
deriving DecidableEq, Repr

/-- The bits that are pending for each channel, and what the callbacks were told. -/
structure DmacInts where
  chints : Nat → BitVec 32
  events : List (Nat × DmaEvent)

namespace DmacInts

/-- The bits of `WJ_DMA_INTC` are cleared by a write of ones. -/
def acknowledge (s : DmacInts) (i : Nat) (bits : BitVec 32) : DmacInts :=
  { s with chints := Function.update s.chints i (s.chints i &&& ~~~bits) }

/-- The loop of `wj_dma_irqhandler`, from a channel on, for so many of them: the channel it
    ends at, and the bits it read last. -/
def scan : Nat → DmacInts → Nat → BitVec 32 → DmacInts × Nat × BitVec 32
  | 0, s, i, temp => (s, i, temp)
  | n + 1, s, i, _ =>
      let temp := s.chints i
      let s := s.acknowledge i wjDmaIntc
      if temp &&& wjDmaTfr ≠ 0 then (s, i, temp) else scan n s (i + 1) temp

/-- A callback is called, if there is one. -/
def tell (cb : Nat → Bool) (s : DmacInts) (i : Nat) (e : DmaEvent) : DmacInts :=
  if cb i = true then { s with events := s.events ++ [(i, e)] } else s

/-- `wj_dma_irqhandler`, of the only controller. -/
def irqhandler (cb : Nat → Bool) (s : DmacInts) : DmacInts :=
  let p := scan dmaChannelNum s 0 0#32
  let s := p.1
  let i := p.2.1
  let temp := p.2.2
  if i ≥ dmaChannelNum then s
  else if temp &&& wjDmaTfr ≠ 0 ∨ temp &&& (wjDmaTfr ||| wjDmaTrgetcmpfr) ≠ 0 then
    if temp &&& wjDmaTfr ≠ 0 then tell cb s i .transferDone else s
  else if temp &&& wjDmaErr ≠ 0 then tell cb (s.acknowledge i wjDmaErr) i .transferError
  else s

end DmacInts

end Driver

end Wujian100
