import Wujian100.Core.Rsa.Exponent
import Wujian100.Core.Rsa.Slave

/-!
# The Accelerator Behind the FIFOs

`fifo_rsa2048_ctrl` between the forward and the backward FIFO, with
`me_iddmm_top` in it. The controller takes 64 words of 32 bits from the forward
FIFO and gives them to the exponentiation as 16 words of 128, collects the 16
words of the result, and puts them into the backward FIFO as 64 again.

`rd_rdy` goes up with the start and comes down only when the controller is idle
again, so the forward FIFO is drained all the time in between. The controller
leaves `Wait` a clock after the fifteenth word of the result, whether the
sixteenth is there or not.

Only the `iddmm1` variant is here; the other is never generated.

## Main definitions

* `FifoCtrl`, `FifoCtrl.step`: The controller.
* `Accelerator`, `Accelerator.step`: The controller with its FIFOs and the
  exponentiation.
* `realValue`, `mMem`: The constants as shipped.
-/

namespace Wujian100

namespace Rsa

/-- The number of FIFO words in an operand, `K*N/32`. -/
def operandWords : Nat := 64

/-- The values of `current_state`. -/
inductive FifoCtrl.St where
  | idle
  | rdMeX
  | wait
  | wrMeS
deriving DecidableEq, Repr

/-- The registers of `fifo_rsa2048_ctrl`. -/
structure FifoCtrl where
  currentState : FifoCtrl.St
  rdRdy : Bool
  cntRd : Nat
  cntN : Nat
  meX : Nat
  meXValid : Bool
  meResultOut : Nat → Nat
  wrVld : Bool
  wrDout : BitVec 32

/-- The inputs of `fifo_rsa2048_ctrl`, and what comes from the exponentiation. -/
structure FifoCtrlIn where
  rdStart : Bool
  rdVld : Bool
  rdDin : BitVec 32
  wrRdy : Bool
  meValid : Bool
  meResult : Nat

namespace FifoCtrl

/-- After `rst`. `me_x` and `me_x_valid` are not reset but initialised. -/
def reset (meResultOut : Nat → Nat) (wrDout : BitVec 32) : FifoCtrl where
  currentState := .idle
  rdRdy := false
  cntRd := 0
  cntN := 0
  meX := 0
  meXValid := false
  meResultOut := meResultOut
  wrVld := false
  wrDout := wrDout

/-- One more in a counter of `FAW` bits. -/
def count (n : Nat) : Nat := (n + 1) % 2 ^ fifoAw

/-- One clock. Where the source assigns a register twice, the later assignment
    is the one that counts. -/
def step (s : FifoCtrl) (i : FifoCtrlIn) : FifoCtrl :=
  -- The last FIFO word of a word, and the last word.
  let lastRd := decide (s.cntRd = 3)
  let lastN := decide (s.cntN = 15)
  match s.currentState with
  | .idle =>
      { s with
        wrVld := false
        rdRdy := i.rdStart
        cntRd := 0
        cntN := 0
        currentState := if i.rdStart then .rdMeX else .idle }
  | .rdMeX =>
      { s with
        -- `{rd_din,me_x[K-1:FDW]}`
        meX := if i.rdVld then i.rdDin.toNat * 2 ^ 96 + s.meX / 2 ^ 32 else s.meX
        cntRd := if lastRd then 0 else if i.rdVld then count s.cntRd else s.cntRd
        meXValid := lastRd
        cntN := if lastN && lastRd then 0 else if lastRd then count s.cntN else s.cntN
        currentState := if lastN && lastRd then .wait else .rdMeX }
  | .wait =>
      { s with
        meXValid := false
        meResultOut :=
          if i.meValid then setWord s.meResultOut s.cntN i.meResult else s.meResultOut
        cntN := if lastN then 0 else if i.meValid then count s.cntN else s.cntN
        currentState := if lastN then .wrMeS else .wait }
  | .wrMeS =>
      { s with
        -- The last word counts as written even if there is no room for it.
        wrVld := if lastRd || i.wrRdy then true else s.wrVld
        wrDout := if i.wrRdy then BitVec.ofNat 32 (s.meResultOut s.cntN) else s.wrDout
        meResultOut :=
          if i.wrRdy then setWord s.meResultOut s.cntN (s.meResultOut s.cntN / 2 ^ 32)
          else s.meResultOut
        cntRd := if lastRd then 0 else if i.wrRdy then count s.cntRd else s.cntRd
        cntN := if lastN && lastRd then 0 else if lastRd then count s.cntN else s.cntN
        currentState := if lastN && lastRd then .idle else .wrMeS }

end FifoCtrl

/-- The controller, the FIFOs around it and the exponentiation in it. -/
structure Accelerator (M : Type) where
  fwd : Fifo (BitVec 32)
  bwd : Fifo (BitVec 32)
  ctrl : FifoCtrl
  me : MeTop M

/-- What the slave gives the accelerator in a clock: a word for the forward FIFO,
    the start register, and whether a word is taken from the backward FIFO. -/
structure AcceleratorIn where
  fwrVld : Bool
  fwrDat : BitVec 32
  regState0 : BitVec 32
  brdRdy : Bool

namespace Accelerator

variable {M : Type}

/-- `rsa_start & (fwd_cnt_rd == K*N/32)`, with the `rsa_start` of the slave. -/
def rdStart (s : Accelerator M) (i : AcceleratorIn) : Bool :=
  (i.regState0 != 0) && decide (s.fwd.wrCnt fifoAw = operandWords) &&
    decide (s.fwd.rdCnt = operandWords)

/-- What the controller sees. -/
def ctrlIn (s : Accelerator M) (i : AcceleratorIn) : FifoCtrlIn where
  rdStart := s.rdStart i
  rdVld := s.fwd.rdVld
  rdDin := s.fwd.rdDout fifoAw
  wrRdy := s.bwd.wrRdy fifoAw
  meValid := s.me.out.meValid
  meResult := s.me.out.meResult

/-- What the exponentiation sees. -/
def meIn (s : Accelerator M) (i : AcceleratorIn) : MeIn where
  meStart := s.rdStart i
  meX := s.ctrl.meX
  meXValid := s.ctrl.meXValid

/-- One clock. -/
def step (p : MeParams) (mu : Multiplier M) (s : Accelerator M) (i : AcceleratorIn) :
    Accelerator M where
  fwd := s.fwd.step fifoAw i.fwrVld i.fwrDat s.ctrl.rdRdy
  bwd := s.bwd.step fifoAw s.ctrl.wrVld s.ctrl.wrDout i.brdRdy
  ctrl := s.ctrl.step (s.ctrlIn i)
  me := s.me.step p mu (s.meIn i)

/-- The word the backward FIFO takes in a clock. -/
def pushed (s : Accelerator M) : Option (BitVec 32) :=
  if s.ctrl.wrVld && s.bwd.wrRdy fifoAw then some s.ctrl.wrDout else none

/-- After reset. -/
def reset (p : MeParams) (fwdMem bwdMem : Nat → BitVec 32) (meResultOut result2 : Nat → Nat)
    (wrDout : BitVec 32) (mul : M) : Accelerator M where
  fwd := .reset fwdMem
  bwd := .reset bwdMem
  ctrl := .reset meResultOut wrDout
  me := ⟨.reset p result2, mul⟩

end Accelerator

/-! ## The constants as shipped -/

/-- `rou`, the highest word first. -/
def realRou : List Nat := [
  0x3b3636ddb77b46770293953c94d38c7f,
  0xa989cab7674f8bc029f672ed4bc1e407,
  0x8da0a9833396589a2be50f3c0257f7d8,
  0x525494873a726189c85e35da41c5fe05,
  0x371f55c4d3b471d84fc357113be8ac1b,
  0x2ddde970a2a0875b3605cdd55b1e7290,
  0x3e20225580b2cf51563ac90e479b9e53,
  0xa74c4c130e45d5d2779fe0190392362f,
  0x7efc07819a449874a894cc94a57836fe,
  0x60fc3316cf5a9fe92db2d3d41e07b99f,
  0xd86c994a5e3feb778afe4c626b467f0f,
  0x9ff0efa078a154c27b7e898852a701cf,
  0x52c2e6f009a7ba570f27f5c69a0462b8,
  0x7ebcf4fa614fde607e0701e3c7e7f553,
  0x4bd36ae80c5edd6b360f354fbd446411,
  0xf94fd24132d8bd2b4475933c32178b17]

/-- `result` and `result_backup`, the highest word first. -/
def realResult : List Nat := [
  0x23e4a90c916cc13dcbaba3b8eac8f4eb,
  0x351ff156c891609a21d3ec9e0ee90fa5,
  0xb3d00aa900ffad071d2cbcb00a17bc59,
  0x4db9bb6219370fb38357de100455e243,
  0x385e46fc5fa4898e4492f0279c62b6d3,
  0xa48b3d36eaef1c4ff94dd8340eb596b3,
  0xde5675b4e5db8b9ec132d6bfa79c8e93,
  0xc20a2ce9f12f466d5da4ca9d919800e,
  0x556dbd12c5e08152839c74d9241c9db4,
  0x98edfaa1efe3f889e059101c726eaff9,
  0xad44b2891ad0ec15282fb4fb904b530,
  0x3fd5a81fd30d733e503c2dd4a8d99656,
  0x61182ca847bf437405b14e4452d787db,
  0x26c53da62a61445586712f0fd91a5f1f,
  0xac6d97c5974e969be9f206c9950864f5,
  0x5726a0566919c9fdd1a7b79c5c0b1f2f]

/-- `m.mem`, the lowest word first. -/
def mMem : List Nat := [
  0xa8d95fa996e636022e584863a3f4e0d1,
  0x5392683a68b16964160df9366af79b0a,
  0xd93ac259d59ebbaa798ed0f026e5a0e0,
  0x9ee7d357b840bc8bfa4eb1bbad287824,
  0xc02a57e02cf28cc1afc3d22b572669a9,
  0xf52bb4d76e52f13ead7d04b046fb4acf,
  0x6712055e101c07761fa6efe38d915006,
  0xaa9242ed3a1f7ead7c638b26dbe3624b,
  0xf3df5d3160ed0b992a25b35626e67ff1,
  0x21a98a4b1a2474613ecd29405863716c,
  0x5b74c2c91510e3b006b227cbf14a694c,
  0xc7a1b903a05b7671bb6d0fd8639d492c,
  0xb246449de6c8f04c7ca821effbaa1dbc,
  0x4c2ff556ff0052f8e2d3434ff5e843a6,
  0xcae00ea9376e9f65de2c1361f116f05a,
  0xdc1b56f36e933ec234545c4715370b14]

/-- The `real_value` constants. -/
def realValue : MeParams where
  k := 128
  addrW := 4
  meY := 0x010001
  meM1 := 0xa83c91fe83adee77f2b721fabf7087cf
  rou := fun l => realRou.getD (15 - l) 0
  resultBackup := fun l => realResult.getD (15 - l) 0

end Rsa

end Wujian100
