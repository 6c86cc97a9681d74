import Wujian100.Core.Boot.Main
import Wujian100.Theory.Boot.Flash
import Wujian100.Theory.Boot.Verify

/-!
# The Boot ROM Enters Only Verified Firmware

An invariant of `main`, one clause for each place it can be at. What a stage
has established about the memory is a fact about one buffer, and a later read
keeps it because the buffers are disjoint; that argument is made once, in
`memBytes_filled_disjoint`, and used for every pair.

The clause for a pending `display_show` is where the failing branches are
handled. Such a call either has a negative count, and then nothing is claimed
about the place it would return to, since it does not return; or it is the one
call with a positive count, made when both images have passed.

`entry_reached` is the other half: with two valid sizes and two good
signatures the machine does arrive at the entry, so the safety theorem is not
about an unreachable place.

## Main definitions

* `flashBytes`: Part of a chip's content.
* `Image`: Where one application's parts live.
* `Image.Holds`: The buffers of one image hold what the flash does.
* `Image.Verified`: That image was verified from those bytes.
* `Inv`: What `main` knows at each place.
* `writable`: The bytes `spi_flash_read` is allowed to store to.
* `paddedSignature`, `envOfA`: A power-up with a one-byte image in both slots.

## Theorems

* `memBytes_filled`: A buffer after it was read.
* `memBytes_filled_disjoint`: A buffer another one was read beside.
* `step_inv`: The invariant is preserved by a step.
* `run_inv`: The invariant holds along a run.
* `run_verified0`, `run_verified1`: What the two verifications are made on.
* `entry_reached`: Two good images are entered.
* `entry_only_verified`: Entry implies both verifications, on the bytes that
  are still there.
-/

namespace Wujian100

namespace Boot

/-- `n` bytes of a chip from `addr` up. -/
def flashBytes (content : Nat → UInt8) (addr n : Nat) : List UInt8 :=
  (List.range n).map (fun i => content ((addr + i) % 2 ^ 24))

/-- A `uint32_t` of a chip. -/
def flashWord (content : Nat → UInt8) (addr : Nat) : Nat := leValue (flashBytes content addr 4)

theorem memBytes_filled (content : Nat → UInt8) (addr data len : Nat) (mem : Nat → UInt8) :
    memBytes (filled content addr data len mem) data len = flashBytes content addr len := by
  refine List.map_congr_left (fun i hi => ?_)
  have hlt : i < len := List.mem_range.mp hi
  simp only [filled]
  rw [if_pos (by omega)]
  congr 1
  omega

theorem memBytes_filled_disjoint (content : Nat → UInt8) (addr data len : Nat)
    (mem : Nat → UInt8) (a n : Nat) (h : a + n ≤ data ∨ data + len ≤ a) :
    memBytes (filled content addr data len mem) a n = memBytes mem a n := by
  refine List.map_congr_left (fun i hi => ?_)
  have hlt : i < n := List.mem_range.mp hi
  simp only [filled]
  rw [if_neg (by omega)]

/-- Where the parts of one application live: in the flash, and in memory. -/
structure Image where
  app : Bool
  dataAddr : Nat
  sizeAddr : Nat
  signAddr : Nat
  data : Nat
  size : Nat
  sign : Nat

def Env.app0 (env : Env) : Image where
  app := false
  dataAddr := firmwareDataApp0Addr
  sizeAddr := firmwareSizeApp0Addr
  signAddr := firmwareSignApp0Addr
  data := firmwareLoadApp0Addr
  size := env.frame.size0
  sign := env.frame.sign0

def Env.app1 (env : Env) : Image where
  app := true
  dataAddr := firmwareDataApp1Addr
  sizeAddr := firmwareSizeApp1Addr
  signAddr := firmwareSignApp1Addr
  data := firmwareLoadApp1Addr
  size := env.frame.size1
  sign := env.frame.sign1

@[simp] theorem Env.app0_data (env : Env) : env.app0.data = 0x10000000 := rfl
@[simp] theorem Env.app0_size (env : Env) : env.app0.size = env.frame.size0 := rfl
@[simp] theorem Env.app0_sign (env : Env) : env.app0.sign = env.frame.sign0 := rfl
@[simp] theorem Env.app1_data (env : Env) : env.app1.data = 0x20000000 := rfl
@[simp] theorem Env.app1_size (env : Env) : env.app1.size = env.frame.size1 := rfl
@[simp] theorem Env.app1_sign (env : Env) : env.app1.sign = env.frame.sign1 := rfl

/-- The chip the mode pin selects. -/
def Env.content (env : Env) : Nat → UInt8 := env.flash env.modeFlash

/-- The size word of an image in the flash. -/
def Image.flashSize (im : Image) (env : Env) : Nat := flashWord env.content im.sizeAddr

/-- The image's bytes in the flash. -/
def Image.flashData (im : Image) (env : Env) : List UInt8 :=
  flashBytes env.content im.dataAddr (im.flashSize env)

/-- The image's signature in the flash. -/
def Image.flashSign (im : Image) (env : Env) : List UInt8 :=
  flashBytes env.content im.signAddr 256

/-- The size is one the ROM accepts. -/
def Image.SizeOk (im : Image) (env : Env) : Prop :=
  0 < im.flashSize env ∧ im.flashSize env ≤ 64 * 1024

/-- The answer of `firmware_verify` on the image in the flash. -/
def Image.verdict (im : Image) (env : Env) : Bool :=
  firmwareVerify env.crypto env.modeCrypto (im.flashData env) (im.flashSign env) 256

/-- The size local of an image holds its flash word. -/
def Image.HasSize (im : Image) (env : Env) (b : Board) : Prop :=
  memBytes b.mem im.size 4 = flashBytes env.content im.sizeAddr 4

/-- The signature buffer of an image holds its flash bytes. -/
def Image.HasSign (im : Image) (env : Env) (b : Board) : Prop :=
  memBytes b.mem im.sign 256 = im.flashSign env

/-- The load area of an image holds its flash bytes. -/
def Image.HasData (im : Image) (env : Env) (b : Board) : Prop :=
  memBytes b.mem im.data (im.flashSize env) = im.flashData env

/-- Every part of the image is in memory, and its size is one the ROM
    accepts. -/
structure Image.Holds (im : Image) (env : Env) (b : Board) : Prop where
  hasSize : im.HasSize env b
  hasSign : im.HasSign env b
  sizeOk : im.SizeOk env
  hasData : im.HasData env b

/-- The record of a successful verification of the image in the flash. -/
def Image.accepted (im : Image) (env : Env) : Verdict :=
  ⟨im.app, im.flashData env, im.flashSign env, true⟩

/-- The image is in memory and its verification has passed. -/
structure Image.Verified (im : Image) (env : Env) (b : Board) : Prop extends
    Image.Holds im env b where
  passed : im.verdict env = true

/-- Both images are in memory and verified, nothing else was. -/
structure Cleared (env : Env) (s : State) : Prop where
  app0 : env.app0.Verified env s.board
  app1 : env.app1.Verified env s.board
  record : s.verified = [env.app0.accepted env, env.app1.accepted env]

/-- The bytes `spi_flash_read` may store to: the two load areas, the size
    words and the signature buffers. -/
def writable (f : Frame) (a : Nat) : Prop :=
  (firmwareLoadApp0Addr ≤ a ∧ a < firmwareLoadApp0Addr + 65536) ∨
    (firmwareLoadApp1Addr ≤ a ∧ a < firmwareLoadApp1Addr + 65536) ∨
    (f.size0 ≤ a ∧ a < f.size0 + 4) ∨ (f.size1 ≤ a ∧ a < f.size1 + 4) ∨
    (f.sign0 ≤ a ∧ a < f.sign0 + 256) ∨ (f.sign1 ≤ a ∧ a < f.sign1 + 256)

/-- What `main` has established at each place. -/
def Inv.at (env : Env) (s : State) : Pc → Prop
  | .start => s.verified = []
  | .loadSize0 => s.verified = []
  | .loadSign0 => s.verified = [] ∧ env.app0.HasSize env s.board
  | .checkSize0 =>
      s.verified = [] ∧ env.app0.HasSize env s.board ∧ env.app0.HasSign env s.board
  | .verify0 => s.verified = [] ∧ env.app0.Holds env s.board
  | .loadSize1 => s.verified = [env.app0.accepted env] ∧ env.app0.Verified env s.board
  | .loadSign1 =>
      s.verified = [env.app0.accepted env] ∧ env.app0.Verified env s.board ∧
        env.app1.HasSize env s.board
  | .checkSize1 =>
      s.verified = [env.app0.accepted env] ∧ env.app0.Verified env s.board ∧
        env.app1.HasSize env s.board ∧ env.app1.HasSign env s.board
  | .verify1 =>
      s.verified = [env.app0.accepted env] ∧ env.app0.Verified env s.board ∧
        env.app1.Holds env s.board
  | .bootFrom => Cleared env s
  | .entry => Cleared env s
  -- A call with a negative count does not return, so nothing is needed of the
  -- place it would return to.
  | .display _ count _ ret => count < 0 ∨ (ret = .bootFrom ∧ Cleared env s)
  | .displayForever _ => True
  | .displayLoop _ _ ret => ret = .bootFrom ∧ Cleared env s

/-- The invariant of `main`. -/
structure Inv (env : Env) (s : State) : Prop where
  idle : Idle s.board
  written : ∀ a ∈ s.board.written, writable env.frame a
  here : Inv.at env s s.pc

section Loads

variable {env : Env} {s : State} {im : Image} {addr data len : Nat} {next : Pc}

/-- A read by `main` is a read by the driver. -/
theorem load_spec (haddr : addr < 2 ^ 24) (hdata : data ≠ 0) (hidle : Idle s.board) :
    Idle (s.load env addr data len next).board ∧
      (s.load env addr data len next).board.mem
        = filled env.content addr data len s.board.mem ∧
      (s.load env addr data len next).board.written
        = s.board.written ++ (List.range len).map (fun i => data + i) :=
  spiFlashRead_spec env.flash env.modeFlash addr data len s.board haddr hdata hidle

/-- A read into a writable buffer keeps the invariant, whatever its next place
    asks for. -/
theorem inv_load (hinv : Inv env s) (haddr : addr < 2 ^ 24) (hdata : data ≠ 0)
    (hbuf : ∀ i, i < len → writable env.frame (data + i))
    (hnext : Inv.at env (s.load env addr data len next) next) :
    Inv env (s.load env addr data len next) := by
  have hspec := @load_spec env s addr data len next haddr hdata hinv.idle
  refine ⟨hspec.1, ?_, hnext⟩
  intro a ha
  rw [hspec.2.2, List.mem_append, List.mem_map] at ha
  rcases ha with ha | ⟨i, hi, rfl⟩
  · exact hinv.written a ha
  · exact hbuf i (List.mem_range.mp hi)

/-- The buffer that was read. -/
theorem load_self (haddr : addr < 2 ^ 24) (hdata : data ≠ 0) (hidle : Idle s.board) :
    memBytes (s.load env addr data len next).board.mem data len
      = flashBytes env.content addr len := by
  rw [(load_spec haddr hdata hidle).2.1, memBytes_filled]

/-- A buffer beside the one that was read. -/
theorem load_beside (haddr : addr < 2 ^ 24) (hdata : data ≠ 0) (hidle : Idle s.board)
    (a n : Nat) (h : a + n ≤ data ∨ data + len ≤ a) :
    memBytes (s.load env addr data len next).board.mem a n = memBytes s.board.mem a n := by
  rw [(load_spec haddr hdata hidle).2.1, memBytes_filled_disjoint _ _ _ _ _ _ _ h]

/-- An image in memory survives a read that lands beside all three of its
    parts. -/
theorem holds_beside (h : im.Holds env s.board) (haddr : addr < 2 ^ 24) (hdata : data ≠ 0)
    (hidle : Idle s.board)
    (hsize : im.size + 4 ≤ data ∨ data + len ≤ im.size)
    (hsign : im.sign + 256 ≤ data ∨ data + len ≤ im.sign)
    (hload : im.data + 65536 ≤ data ∨ data + len ≤ im.data) :
    im.Holds env (s.load env addr data len next).board := by
  refine ⟨?_, ?_, h.sizeOk, ?_⟩
  · rw [Image.HasSize, load_beside haddr hdata hidle _ _ hsize]
    exact h.hasSize
  · rw [Image.HasSign, load_beside haddr hdata hidle _ _ hsign]
    exact h.hasSign
  · have hle := h.sizeOk.2
    rw [Image.HasData, load_beside haddr hdata hidle _ _ (by omega)]
    exact h.hasData

theorem verified_beside (h : im.Verified env s.board) (haddr : addr < 2 ^ 24)
    (hdata : data ≠ 0) (hidle : Idle s.board)
    (hsize : im.size + 4 ≤ data ∨ data + len ≤ im.size)
    (hsign : im.sign + 256 ≤ data ∨ data + len ≤ im.sign)
    (hload : im.data + 65536 ≤ data ∨ data + len ≤ im.data) :
    im.Verified env (s.load env addr data len next).board :=
  ⟨holds_beside h.toHolds haddr hdata hidle hsize hsign hload, h.passed⟩

end Loads

/-- The size local read as a word is the flash word. -/
theorem memWord_of_hasSize {im : Image} {env : Env} {b : Board} (h : im.HasSize env b) :
    memWord b.mem im.size = im.flashSize env := by
  rw [memWord, h]
  rfl

/-- On an image that is in memory, `firmware_verify` sees the flash bytes. -/
theorem verify_of_holds {im : Image} {env : Env} {s : State} (h : im.Holds env s.board)
    (passed failed : Pc) :
    s.verify env im.app im.data (memWord s.board.mem im.size) im.sign passed failed
      = { s with
          verified := s.verified ++ [⟨im.app, im.flashData env, im.flashSign env, im.verdict env⟩]
          pc := if im.verdict env then passed else failed } := by
  have hdata : memBytes s.board.mem im.data (im.flashSize env) = im.flashData env := h.hasData
  have hsign : memBytes s.board.mem im.sign 256 = im.flashSign env := h.hasSign
  simp only [State.verify, memWord_of_hasSize h.hasSize, hdata, hsign]
  rfl

/-- `main` preserves its invariant. -/
theorem step_inv (env : Env) (s : State) (hinv : Inv env s) : Inv env (step env s) := by
  -- Where the four variables of the frame lie, for the arithmetic of every case.
  have hlow := env.frame.low
  have hhigh := env.frame.high
  have hsizes := env.frame.sizes
  have hsigns := env.frame.signs
  have h00 := env.frame.size0_sign0
  have h01 := env.frame.size0_sign1
  have h10 := env.frame.size1_sign0
  have h11 := env.frame.size1_sign1
  have hhere := hinv.here
  cases hpc : s.pc with
  | start =>
      simp only [hpc, Inv.at] at hhere
      simp only [step, hpc]
      exact ⟨hinv.idle, hinv.written, hhere⟩
  | loadSize0 =>
      simp only [hpc, Inv.at] at hhere
      simp only [step, hpc]
      refine inv_load hinv (by decide) (by omega) (fun i hi => ?_) ⟨hhere, ?_⟩
      · unfold writable
        omega
      · exact load_self (by decide) (by omega) hinv.idle
  | loadSign0 =>
      simp only [hpc, Inv.at] at hhere
      simp only [step, hpc]
      refine inv_load hinv (by decide) (by omega) (fun i hi => ?_) ⟨hhere.1, ?_, ?_⟩
      · unfold writable
        omega
      -- The signature lies beside the size, which stays as it was read.
      · rw [Image.HasSize, load_beside (by decide) (by omega) hinv.idle]
        · exact hhere.2
        · exact h00
      · exact load_self (by decide) (by omega) hinv.idle
  | checkSize0 =>
      simp only [hpc, Inv.at] at hhere
      rcases hhere with ⟨hrec, hsize, hsign⟩
      have hword : memWord s.board.mem env.frame.size0 = env.app0.flashSize env :=
        memWord_of_hasSize hsize
      simp only [step, hpc, State.loadData, hword, firmwareSizeApp0Max]
      by_cases hok : 0 < env.app0.flashSize env ∧ env.app0.flashSize env ≤ 64 * 1024
      · rw [if_pos hok]
        -- The image goes to the load address, which is not in the frame.
        -- The second image leaves the first, its size and its signature alone.
        refine inv_load hinv (by decide) (by decide) (fun i hi => ?_) ⟨hrec, ?_, ?_, hok, ?_⟩
        · unfold writable
          omega
        · rw [Image.HasSize, load_beside (by decide) (by decide) hinv.idle]
          · exact hsize
          · simp only [Env.app0_size, firmwareLoadApp0Addr]
            omega
        · rw [Image.HasSign, load_beside (by decide) (by decide) hinv.idle]
          · exact hsign
          · simp only [Env.app0_sign, firmwareLoadApp0Addr]
            omega
        · exact load_self (by decide) (by decide) hinv.idle
      · rw [if_neg hok]
        -- A size that is refused goes to a display that never ends.
        exact ⟨hinv.idle, hinv.written, Or.inl (by decide)⟩
  | verify0 =>
      simp only [hpc, Inv.at] at hhere
      rcases hhere with ⟨hrec, hholds⟩
      simp only [step, hpc]
      rw [show (false : Bool) = env.app0.app from rfl,
        show firmwareLoadApp0Addr = env.app0.data from rfl,
        show env.frame.size0 = env.app0.size from rfl,
        show env.frame.sign0 = env.app0.sign from rfl, verify_of_holds hholds, hrec]
      refine ⟨hinv.idle, hinv.written, ?_⟩
      cases hv : env.app0.verdict env with
      | true => exact ⟨by simp only [Image.accepted, List.nil_append], hholds, hv⟩
      | false => exact Or.inl (by decide)
  | loadSize1 =>
      simp only [hpc, Inv.at] at hhere
      simp only [step, hpc]
      refine inv_load hinv (by decide) (by omega) (fun i hi => ?_) ⟨hhere.1, ?_, ?_⟩
      · unfold writable
        omega
      -- What was verified for app 0 is not read again, and must not be written either.
      · refine verified_beside hhere.2 (by decide) (by omega) hinv.idle ?_ ?_ ?_
        · exact hsizes
        · simp only [Env.app0_sign]
          omega
        · simp only [Env.app0_data]
          omega
      · exact load_self (by decide) (by omega) hinv.idle
  | loadSign1 =>
      simp only [hpc, Inv.at] at hhere
      simp only [step, hpc]
      refine inv_load hinv (by decide) (by omega) (fun i hi => ?_) ⟨hhere.1, ?_, ?_, ?_⟩
      · unfold writable
        omega
      · refine verified_beside hhere.2.1 (by decide) (by omega) hinv.idle ?_ ?_ ?_
        · exact h01
        · exact hsigns
        · simp only [Env.app0_data]
          omega
      · rw [Image.HasSize, load_beside (by decide) (by omega) hinv.idle]
        · exact hhere.2.2
        · exact h11
      · exact load_self (by decide) (by omega) hinv.idle
  | checkSize1 =>
      simp only [hpc, Inv.at] at hhere
      rcases hhere with ⟨hrec, hver, hsize, hsign⟩
      have hword : memWord s.board.mem env.frame.size1 = env.app1.flashSize env :=
        memWord_of_hasSize hsize
      simp only [step, hpc, State.loadData, hword, firmwareSizeApp1Max]
      by_cases hok : 0 < env.app1.flashSize env ∧ env.app1.flashSize env ≤ 64 * 1024
      · rw [if_pos hok]
        refine inv_load hinv (by decide) (by decide) (fun i hi => ?_)
          ⟨hrec, ?_, ?_, ?_, hok, ?_⟩
        · unfold writable
          omega
        · refine verified_beside hver (by decide) (by decide) hinv.idle ?_ ?_ ?_
          · simp only [Env.app0_size, firmwareLoadApp1Addr]
            omega
          · simp only [Env.app0_sign, firmwareLoadApp1Addr]
            omega
          · simp only [Env.app0_data, firmwareLoadApp1Addr]
            omega
        · rw [Image.HasSize, load_beside (by decide) (by decide) hinv.idle]
          · exact hsize
          · simp only [Env.app1_size, firmwareLoadApp1Addr]
            omega
        · rw [Image.HasSign, load_beside (by decide) (by decide) hinv.idle]
          · exact hsign
          · simp only [Env.app1_sign, firmwareLoadApp1Addr]
            omega
        · exact load_self (by decide) (by decide) hinv.idle
      · rw [if_neg hok]
        exact ⟨hinv.idle, hinv.written, Or.inl (by decide)⟩
  | verify1 =>
      simp only [hpc, Inv.at] at hhere
      rcases hhere with ⟨hrec, hver, hholds⟩
      simp only [step, hpc]
      rw [show (true : Bool) = env.app1.app from rfl,
        show firmwareLoadApp1Addr = env.app1.data from rfl,
        show env.frame.size1 = env.app1.size from rfl,
        show env.frame.sign1 = env.app1.sign from rfl, verify_of_holds hholds, hrec]
      refine ⟨hinv.idle, hinv.written, ?_⟩
      cases hv : env.app1.verdict env with
      | true => exact Or.inr ⟨rfl, hver, ⟨hholds, hv⟩, by simp only [Image.accepted,
          List.singleton_append]⟩
      | false => exact Or.inl (by decide)
  | bootFrom =>
      simp only [hpc, Inv.at] at hhere
      simp only [step, hpc]
      exact ⟨hinv.idle, hinv.written, hhere.app0, hhere.app1, hhere.record⟩
  | entry =>
      simp only [step, hpc]
      exact hinv
  | display ms count pattern ret =>
      simp only [hpc, Inv.at] at hhere
      simp only [step, hpc]
      -- A negative count is the display of a failure: it goes on for ever.
      by_cases hneg : count < 0
      · rw [if_pos hneg]
        exact ⟨hinv.idle, hinv.written, trivial⟩
      · rw [if_neg hneg]
        rcases hhere with hlt | ⟨hret, hcl⟩
        · exact absurd hlt hneg
        · exact ⟨hinv.idle, hinv.written, hret, hcl.app0, hcl.app1, hcl.record⟩
  | displayForever ms =>
      simp only [step, hpc]
      exact ⟨hinv.idle, hinv.written, trivial⟩
  | displayLoop ms i ret =>
      simp only [hpc, Inv.at] at hhere
      rcases hhere with ⟨hret, hcl⟩
      simp only [step, hpc]
      by_cases hi : i > 0
      · rw [if_pos hi]
        exact ⟨hinv.idle, hinv.written, hret, hcl.app0, hcl.app1, hcl.record⟩
      · rw [if_neg hi, hret]
        exact ⟨hinv.idle, hinv.written, hcl.app0, hcl.app1, hcl.record⟩

theorem run_succ (env : Env) (mem : Nat → UInt8) (n : Nat) :
    run env mem (n + 1) = step env (run env mem n) := by
  rw [run, Function.iterate_succ_apply']
  rfl

theorem run_inv (env : Env) (mem : Nat → UInt8) (n : Nat) : Inv env (run env mem n) := by
  induction n with
  | zero => exact ⟨rfl, fun a ha => absurd ha (List.not_mem_nil), rfl⟩
  | succ k ih =>
      rw [run_succ]
      exact step_inv env _ ih

/-- The counted loop of `display_show` comes back. -/
theorem displayLoop_returns (env : Env) (mem : Nat → UInt8) (ms : Nat) (ret : Pc) :
    ∀ (i n : Nat), (run env mem n).pc = .displayLoop ms i ret →
      (run env mem (n + i + 1)).pc = ret := by
  intro i
  induction i with
  | zero =>
      intro n hpc
      rw [Nat.add_zero, run_succ]
      simp only [step, hpc, Nat.cast_zero, gt_iff_lt, lt_self_iff_false, if_false]
  | succ k ih =>
      intro n hpc
      rw [show n + (k + 1) + 1 = n + 1 + k + 1 by omega]
      refine ih (n + 1) ?_
      rw [run_succ]
      simp only [step, hpc]
      rw [if_pos (by omega)]
      simp only [Pc.displayLoop.injEq, true_and, and_true]
      omega

/-- The record of the verification of one image, whatever its outcome. -/
def Image.record (im : Image) (env : Env) : Verdict :=
  ⟨im.app, im.flashData env, im.flashSign env, im.verdict env⟩

/-- A size in range gets the first image as far as its verification. -/
theorem run_verify0 (env : Env) (mem : Nat → UInt8) (hsize0 : env.app0.SizeOk env) :
    (run env mem 4).pc = .verify0 := by
  have h3 : (run env mem 3).pc = .checkSize0 := rfl
  have hat := (run_inv env mem 3).here
  rw [h3] at hat
  rw [run_succ]
  simp only [step, h3, State.loadData, ← Env.app0_size, memWord_of_hasSize hat.2.1,
    firmwareSizeApp0Max]
  rw [if_pos (show 0 < _ ∧ _ ≤ 64 * 1024 from hsize0)]
  rfl

/-- The first verification is made on the bytes of the flash. -/
theorem run_verified0 (env : Env) (mem : Nat → UInt8) (hsize0 : env.app0.SizeOk env) :
    (run env mem 5).verified = [env.app0.record env] ∧
      (run env mem 5).pc = if env.app0.verdict env then .loadSize1
        else .display 250 (-1) .fail .bootFrom := by
  have h4 := run_verify0 env mem hsize0
  have hat := (run_inv env mem 4).here
  rw [h4] at hat
  have hstep := verify_of_holds hat.2 .loadSize1 (.display 250 (-1) .fail .bootFrom)
  rw [hat.1, List.nil_append] at hstep
  rw [run_succ]
  simp only [step, h4]
  exact ⟨congrArg State.verified hstep, congrArg State.pc hstep⟩

/-- Past a good first image, a size in range gets the second one as far as its
    verification. -/
theorem run_verify1 (env : Env) (mem : Nat → UInt8) (hsize0 : env.app0.SizeOk env)
    (hv0 : env.app0.verdict env = true) (hsize1 : env.app1.SizeOk env) :
    (run env mem 8).pc = .verify1 := by
  have h5 : (run env mem 5).pc = .loadSize1 := by
    rw [(run_verified0 env mem hsize0).2, hv0, if_pos rfl]
  have h6 : (run env mem 6).pc = .loadSign1 := by
    rw [run_succ]
    simp only [step, h5, State.load]
  have h7 : (run env mem 7).pc = .checkSize1 := by
    rw [run_succ]
    simp only [step, h6, State.load]
  have hat := (run_inv env mem 7).here
  rw [h7] at hat
  rw [run_succ]
  simp only [step, h7, State.loadData, ← Env.app1_size, memWord_of_hasSize hat.2.2.1,
    firmwareSizeApp1Max]
  rw [if_pos (show 0 < _ ∧ _ ≤ 64 * 1024 from hsize1)]
  rfl

/-- The second verification is made on the bytes of the flash. -/
theorem run_verified1 (env : Env) (mem : Nat → UInt8) (hsize0 : env.app0.SizeOk env)
    (hv0 : env.app0.verdict env = true) (hsize1 : env.app1.SizeOk env) :
    (run env mem 9).verified = [env.app0.record env, env.app1.record env] ∧
      (run env mem 9).pc = if env.app1.verdict env then .display 50 20 .pass .bootFrom
        else .display 250 (-1) .fail .bootFrom := by
  have h8 := run_verify1 env mem hsize0 hv0 hsize1
  have hat := (run_inv env mem 8).here
  rw [h8] at hat
  have hstep := verify_of_holds hat.2.2 (.display 50 20 .pass .bootFrom)
    (.display 250 (-1) .fail .bootFrom)
  rw [hat.1, List.singleton_append] at hstep
  have hrec0 : env.app0.record env = env.app0.accepted env := by
    rw [Image.record, Image.accepted, hv0]
  rw [hrec0, run_succ]
  simp only [step, h8]
  exact ⟨congrArg State.verified hstep, congrArg State.pc hstep⟩

/-- Two images with sizes in range and good verdicts are entered. Every branch
    before the entry tests a value the invariant knows at that place. -/
theorem entry_reached (env : Env) (mem : Nat → UInt8)
    (hsize0 : env.app0.SizeOk env) (hsize1 : env.app1.SizeOk env)
    (hv0 : env.app0.verdict env = true) (hv1 : env.app1.verdict env = true) :
    ∃ n, (run env mem n).pc = .entry := by
  have h9 : (run env mem 9).pc = .display 50 20 .pass .bootFrom := by
    rw [(run_verified1 env mem hsize0 hv0 hsize1).2, hv1, if_pos rfl]
  have h10 : (run env mem 10).pc = .displayLoop 50 (20 : Nat) .bootFrom := by
    rw [run_succ]
    simp only [step, h9]
    rfl
  have h31 : (run env mem 31).pc = .bootFrom := displayLoop_returns env mem 50 .bootFrom 20 10 h10
  refine ⟨32, ?_⟩
  rw [run_succ]
  simp only [step, h31]

/-- The ROM enters the firmware only when both sizes are in range and both
    verifications have passed, with the bytes they were computed on still in
    place; and whatever it does, it stores flash bytes only where it may. -/
theorem entry_only_verified (env : Env) (mem : Nat → UInt8) (n : Nat) :
    (∀ a ∈ (run env mem n).board.written, writable env.frame a) ∧
      ((run env mem n).pc = .entry →
        (env.app0.SizeOk env ∧ env.app1.SizeOk env) ∧
        (firmwareVerify env.crypto env.modeCrypto (env.app0.flashData env)
            (env.app0.flashSign env) 256 = true ∧
          firmwareVerify env.crypto env.modeCrypto (env.app1.flashData env)
            (env.app1.flashSign env) 256 = true) ∧
        (run env mem n).verified
          = [⟨false, env.app0.flashData env, env.app0.flashSign env, true⟩,
            ⟨true, env.app1.flashData env, env.app1.flashSign env, true⟩] ∧
        memBytes (run env mem n).board.mem firmwareLoadApp0Addr (env.app0.flashSize env)
          = env.app0.flashData env ∧
        memBytes (run env mem n).board.mem firmwareLoadApp1Addr (env.app1.flashSize env)
          = env.app1.flashData env) := by
  have hinv := run_inv env mem n
  refine ⟨hinv.written, fun hentry => ?_⟩
  have hcl : Cleared env (run env mem n) := by
    have h := hinv.here
    rwa [hentry] at h
  exact ⟨⟨hcl.app0.sizeOk, hcl.app1.sizeOk⟩, ⟨hcl.app0.passed, hcl.app1.passed⟩, hcl.record,
    hcl.app0.hasData, hcl.app1.hasData⟩

/-- The signature `rsa_sign` makes for the image `61`. -/
def paddedSignature : Signature where
  bytes := (leBytes 256
    0x31c38a3f67ee8981d16471bc45d6ce0d8d69c485189f6b0e236de687fb4443d7d0879d33512baf6c78411673b98f372f319fe9a930ee2aa841879467693135cff268ff15a56513d0e2b888dcedd79be180f23a24c11f90d32becc242267430ab5eb2e4c7977d9ea126cb8408f2189905a05b1c68542dcf5787033b6401a22d38358badb3737efd90d28c3571c4976665da1c4eb77ff00fb166c81d66ac49ef8143c24e244e0dcfa3bcf93b70a8b1f0290f78a191a28d00de4d1f00503662b96aed797c8cab8e0a6ca4aa73b65dc83fcd63cecdcd4d149c875c9da18b9cbd1dcdeb48c486a41675a1c3bd561d5281d0b513439a5f6a20d5464401ecf4d9bef24d).reverse
  length_eq := by rw [List.length_reverse, length_leBytes]

theorem recovered_paddedSignature :
    recovered paddedSignature = beValue (emsaPkcs1 digestOfA) := by
  rw [recovered, pow_pubkeyE_mod]
  decide +kernel

/-- A chip with the image `61` in both slots. -/
def contentOfA (a : Nat) : UInt8 :=
  let offset := a % 0x100000
  if offset = 0 then 0x61
  else if offset = firmwareSizeApp0Addr then 1
  else if firmwareSignApp0Addr ≤ offset then
    paddedSignature.bytes.getD (offset - firmwareSignApp0Addr) 0
  else 0

/-- A power-up with that chip and the software path selected. -/
def envOfA : Env where
  frame :=
    { size0 := 0x2001f000, size1 := 0x2001f004, sign0 := 0x2001f100, sign1 := 0x2001f200
      low := by decide
      high := by decide
      sizes := by decide
      signs := by decide
      size0_sign0 := by decide
      size0_sign1 := by decide
      size1_sign0 := by decide
      size1_sign1 := by decide }
  flash := fun _ => contentOfA
  modeFlash := false
  modeCrypto := false
  crypto := cryptoOfA

theorem verdict_envOfA (im : Image)
    (hsign : im.flashSign envOfA = paddedSignature.bytes) : im.verdict envOfA = true := by
  have hrange : beValue paddedSignature.bytes < pubkeyN := by decide +kernel
  have hblock : recovered paddedSignature
      = beValue (emsaPkcs1 (cryptoOfA.sha256 (im.flashData envOfA))) := recovered_paddedSignature
  have hmode : envOfA.modeCrypto = false := rfl
  have hcrypto : envOfA.crypto = cryptoOfA := rfl
  rw [Image.verdict, hsign, firmwareVerify, hmode, hcrypto, if_neg Bool.false_ne_true]
  exact (swAccepts_iff cryptoOfA _ paddedSignature).mpr ⟨hrange, hblock⟩

/-- That power-up does end in the image, verified from both slots. -/
theorem entry_only_verified_at_a :
    ∃ n, (run envOfA (fun _ => 0) n).pc = .entry ∧
      memBytes (run envOfA (fun _ => 0) n).board.mem firmwareLoadApp0Addr 1 = [0x61] ∧
      (run envOfA (fun _ => 0) n).verified
        = [⟨false, [0x61], paddedSignature.bytes, true⟩,
          ⟨true, [0x61], paddedSignature.bytes, true⟩] := by
  have hsize0 : envOfA.app0.flashSize envOfA = 1 := by decide +kernel
  have hsize1 : envOfA.app1.flashSize envOfA = 1 := by decide +kernel
  have hdata0 : envOfA.app0.flashData envOfA = [0x61] := by decide +kernel
  have hdata1 : envOfA.app1.flashData envOfA = [0x61] := by decide +kernel
  have hsign0 : envOfA.app0.flashSign envOfA = paddedSignature.bytes := by decide +kernel
  have hsign1 : envOfA.app1.flashSign envOfA = paddedSignature.bytes := by decide +kernel
  have hok0 : envOfA.app0.SizeOk envOfA := by
    rw [Image.SizeOk, hsize0]
    decide
  have hok1 : envOfA.app1.SizeOk envOfA := by
    rw [Image.SizeOk, hsize1]
    decide
  rcases entry_reached envOfA (fun _ => 0) hok0 hok1 (verdict_envOfA _ hsign0)
    (verdict_envOfA _ hsign1) with ⟨n, hn⟩
  rcases (entry_only_verified envOfA (fun _ => 0) n).2 hn with ⟨_, _, hrec, hmem0, _⟩
  refine ⟨n, hn, ?_, ?_⟩
  · rw [hsize0, hdata0] at hmem0
    exact hmem0
  · rw [hrec, hdata0, hdata1, hsign0, hsign1]

end Boot

end Wujian100
