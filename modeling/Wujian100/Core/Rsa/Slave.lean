import Wujian100.Core.Rsa.Fifo

/-!
# The AHB Slave in Front of the FIFOs

`ahb2fifo_slave_core`, the forward FIFO behind it, and a bus master in front.

The master is the AHB pipeline: the address phase of a transfer is taken in a
cycle in which `HREADY` is high, its data phase lasts until the next such
cycle, and the address phase of the following transfer lies in its last cycle.
`HREADYin` is the slave's own `HREADYout`. A cycle of the input says what the
master puts on the address lines and what the other side of the FIFOs does; the
write data of a transfer stay on `HWDATA` through its data phase.

The slave stores the address and the burst of a transfer too, but reads none of
them back; `T_WRITE` alone is kept here. `HRESP` is constantly `OKAY`.

The lists in `Bus` are a record of what the master and the FIFOs have seen:
transfers whose data phase has ended with what `HRDATA` was then, words the
FIFO has taken, values stored to and read from `REG_STATE`, and words taken
from the backward FIFO, with `none` for a read that found no result ready.

## Main definitions

* `Slave`, `Slave.step`: The slave.
* `AddressPhase`, `Transfer`: What the master asks for.
* `Bus`, `Bus.step`: The slave with its FIFO and a master.
-/

namespace Wujian100

namespace Rsa

/-- `ADDR_BASE`. -/
def addrBase : BitVec 32 := 0x78000000

/-- `FIFO_AW`. -/
def fifoAw : Nat := 7

/-- The `STH` states. -/
inductive Sth where
  | idle
  | wreg
  | rreg
  | wait
  | addr
  | read0
  | read1
  | read2
  | write0
  | write1
deriving DecidableEq, Repr

/-- The registers of `ahb2fifo_slave_core`. -/
structure Slave where
  hrdata : BitVec 32
  hreadyout : Bool
  fwrVld : Bool
  fwrDat : BitVec 32
  brdRdy : Bool
  tWrite : Bool
  state : Sth
  regState0 : BitVec 32
  regState1 : BitVec 32

/-- After `HRESETn`. -/
def Slave.reset : Slave where
  hrdata := 0
  hreadyout := true
  fwrVld := false
  fwrDat := 0
  brdRdy := false
  tWrite := false
  state := .idle
  regState0 := 0
  regState1 := 0

/-- The inputs of `ahb2fifo_slave_core`. -/
structure SlaveIn where
  hsel : Bool
  haddr : BitVec 32
  htrans : BitVec 2
  hwrite : Bool
  hwdata : BitVec 32
  hreadyin : Bool
  fwrRdy : Bool
  brdVld : Bool
  brdDat : BitVec 32
  rsaFinish : Bool

/-- One clock of `ahb2fifo_slave_core`. -/
def Slave.step (s : Slave) (i : SlaveIn) : Slave :=
  let s' := { s with regState1 := if i.rsaFinish then 1 else s.regState1 }
  -- `HTRANS` is `NONSEQ` or `SEQ`.
  let active := i.htrans.getLsbD 1
  match s.state with
  | .idle =>
      if i.hsel && i.hreadyin then
        if active then
          if i.haddr = addrBase + 0 ∧ i.hwrite = true then
            { s' with fwrVld := false, tWrite := i.hwrite, hreadyout := true, state := .wreg }
          else if i.haddr = addrBase + 4 ∧ i.hwrite = false then
            { s' with fwrVld := false, tWrite := i.hwrite, hreadyout := false, state := .rreg }
          else if i.haddr = addrBase + 16 then
            { s' with fwrVld := false, tWrite := i.hwrite, hreadyout := false, state := .addr }
          else { s' with fwrVld := false, tWrite := i.hwrite, hreadyout := true, state := .idle }
        else { s' with fwrVld := false, hreadyout := true, state := .idle }
      else { s' with fwrVld := false, hreadyout := true }
  | .wreg => { s' with hreadyout := false, regState0 := i.hwdata, state := .idle }
  | .rreg => { s' with hreadyout := true, hrdata := s.regState1, state := .idle }
  | .wait => { s' with state := .idle }
  | .addr =>
      if i.fwrRdy then
        if s.tWrite then { s' with state := .write0 }
        else if s.regState1 ≠ 0 then { s' with hreadyout := false, state := .read0 }
        else { s' with hreadyout := true, state := .idle }
      else s'
  | .read0 => if i.fwrRdy then { s' with fwrVld := false, state := .read1 } else s'
  | .read1 => if i.brdVld then { s' with brdRdy := true, state := .read2 } else s'
  | .read2 =>
      { s' with hrdata := i.brdDat, hreadyout := true, brdRdy := false, state := .idle }
  | .write0 => { s' with hreadyout := true, fwrVld := false, state := .write1 }
  | .write1 =>
      if i.hsel && i.hreadyin then
        if active then
          { s' with
            fwrDat := i.hwdata, fwrVld := true, tWrite := i.hwrite, hreadyout := false
            state := .addr }
        else { s' with fwrDat := i.hwdata, fwrVld := true, hreadyout := true, state := .idle }
      else { s' with fwrDat := i.hwdata, fwrVld := true, hreadyout := true, state := .idle }

/-- A transfer: a write of the start register, a read of the status register,
    a write to and a read from the FIFO window. -/
inductive Transfer where
  | start (data : BitVec 32)
  | status
  | push (data : BitVec 32)
  | pop
deriving DecidableEq, Repr

/-- What the master drives in a cycle. `wdata` is what it is going to write if
    this address phase is taken for a write. -/
structure AddressPhase where
  hsel : Bool
  haddr : BitVec 32
  htrans : BitVec 2
  hwrite : Bool
  wdata : BitVec 32

/-- The transfer an address phase asks for. -/
def AddressPhase.transfer (a : AddressPhase) : Option Transfer :=
  if a.hsel && a.htrans.getLsbD 1 then
    if a.haddr = addrBase + 0 ∧ a.hwrite = true then some (.start a.wdata)
    else if a.haddr = addrBase + 4 ∧ a.hwrite = false then some .status
    else if a.haddr = addrBase + 16 then some (if a.hwrite then .push a.wdata else .pop)
    else none
  else none

/-- The master is idle, or asks for one of the four transfers. -/
def AddressPhase.legal (a : AddressPhase) : Bool :=
  !(a.hsel && a.htrans.getLsbD 1) || a.transfer.isSome

/-- One cycle of the surroundings: the address phase, what is on `HWDATA`
    outside the data phase of a write, the reader of the forward FIFO, and the
    backward FIFO. -/
structure Cycle where
  address : AddressPhase
  hwdata : BitVec 32
  rdRdy : Bool
  brdVld : Bool
  brdDat : BitVec 32
  rsaFinish : Bool

/-- The slave, the forward FIFO, the transfer in its data phase, and the
    record. -/
structure Bus where
  slave : Slave
  fifo : Fifo (BitVec 32)
  current : Option Transfer
  accepted : List Transfer
  completed : List (Transfer × BitVec 32)
  pushed : List (BitVec 32)
  written : List (BitVec 32)
  stated : List (BitVec 32)
  taken : List (Option (BitVec 32))

/-- `HWDATA` in a cycle. -/
def Bus.hwdata (s : Bus) (i : Cycle) : BitVec 32 :=
  match s.current with
  | some (.start d) => d
  | some (.push d) => d
  | _ => i.hwdata

/-- What the slave sees in a cycle. -/
def Bus.slaveIn (s : Bus) (i : Cycle) : SlaveIn where
  hsel := i.address.hsel
  haddr := i.address.haddr
  htrans := i.address.htrans
  hwrite := i.address.hwrite
  hwdata := s.hwdata i
  hreadyin := s.slave.hreadyout
  fwrRdy := s.fifo.wrRdy fifoAw
  brdVld := i.brdVld
  brdDat := i.brdDat
  rsaFinish := i.rsaFinish

/-- What the slave takes from the backward FIFO in a cycle: a word, or the
    decision that there is none. -/
def Bus.takes (s : Bus) (i : Cycle) : List (Option (BitVec 32)) :=
  if s.slave.brdRdy then [some i.brdDat]
  else if s.slave.state = .addr ∧ s.fifo.wrRdy fifoAw = true ∧ s.slave.tWrite = false ∧
      s.slave.regState1 = 0 then [none]
  else []

/-- One clock of everything. -/
def Bus.clock (s : Bus) (i : Cycle) : Bus where
  slave := s.slave.step (s.slaveIn i)
  fifo := s.fifo.step fifoAw s.slave.fwrVld s.slave.fwrDat i.rdRdy
  current := if s.slave.hreadyout then i.address.transfer else s.current
  accepted := s.accepted ++ (if s.slave.hreadyout then i.address.transfer.toList else [])
  completed := s.completed ++
    (if s.slave.hreadyout then s.current.toList.map (fun t => (t, s.slave.hrdata)) else [])
  pushed := s.pushed ++
    (if s.slave.fwrVld && s.fifo.wrRdy fifoAw then [s.slave.fwrDat] else [])
  written := s.written ++ (if s.slave.state = .wreg then [s.hwdata i] else [])
  stated := s.stated ++ (if s.slave.state = .rreg then [s.slave.regState1] else [])
  taken := s.taken ++ s.takes i

/-- One clock, for a master that keeps to the four transfers. -/
def Bus.step (s : Bus) (i : Cycle) : Option Bus :=
  if i.address.legal then some (s.clock i) else none

/-- After reset. -/
def Bus.reset (mem : Nat → BitVec 32) : Bus where
  slave := .reset
  fifo := .reset mem
  current := none
  accepted := []
  completed := []
  pushed := []
  written := []
  stated := []
  taken := []

end Rsa

end Wujian100
