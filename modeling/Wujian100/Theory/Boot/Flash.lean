import Wujian100.Core.Boot.Flash

/-!
# What `spi_flash_read` Leaves Behind

The driver's chunked receive loop is one loop over the bytes
(`receiveLoop_eq`), and while a chip is streaming each turn of that loop stores
the next byte of its content at the next address (`receiveOnce_streaming`).
`spiFlashRead_spec` puts the command and the transfer together: the bytes from
`addr` up are in the buffer, the record of writes names exactly the buffer, and
the bus is idle again.

## Main definitions

* `Idle`: No chip is selected.
* `Streaming`: One chip is sending its content.
* `filled`: A memory with part of a chip copied into it.

## Theorems

* `receiveLoop_eq`: Receiving in chunks is receiving byte by byte.
* `receiveOnce_streaming`: The invariant of the byte loop.
* `drvUsiSpiSend_command`: The read command starts the stream.
* `spiFlashRead_spec`: The effect of a read.
-/

namespace Wujian100

namespace Boot

/-- No chip is selected. -/
def Idle (s : Board) : Prop := s.chip = fun _ => .standby

/-- Chip `cs` is sending its content from `addr` on, the other is silent. -/
def Streaming (cs : Bool) (addr : Nat) (s : Board) : Prop :=
  s.chip = fun k => if k = cs then .reading addr else .standby

/-- `mem` with `len` bytes of `content`, from `addr` up, copied to `data`. -/
def filled (content : Nat → UInt8) (addr data len : Nat) (mem : Nat → UInt8) : Nat → UInt8 :=
  fun a => if data ≤ a ∧ a < data + len then content ((addr + (a - data)) % 2 ^ 24) else mem a

theorem receiveOnce_add (flash : Flash) (m n : Nat) (s : Board) :
    receiveOnce flash (m + n) s = receiveOnce flash n (receiveOnce flash m s) := by
  induction m generalizing s with
  | zero => simp only [Nat.zero_add, receiveOnce]
  | succ k ih =>
      rw [show k + 1 + n = k + n + 1 by omega]
      simp only [receiveOnce, ih]

theorem receiveLoop_eq (flash : Flash) (recvNum : Nat) (s : Board) :
    receiveLoop flash recvNum s = receiveOnce flash recvNum s := by
  induction recvNum using Nat.strong_induction_on generalizing s with
  | _ n ih =>
      rw [receiveLoop]
      by_cases hn : n = 0
      · rw [if_pos hn, hn, receiveOnce]
      · have hpos := onceLen_pos hn
        have hle := onceLen_le n
        rw [if_neg hn, ih (n - onceLen n) (by omega), ← receiveOnce_add]
        congr 1
        omega

/-- A streaming chip answers with its next byte. -/
theorem exchange_streaming (flash : Flash) (cs : Bool) (addr : Nat) (s : Board)
    (h : Streaming cs addr s) :
    (s.exchange flash 0).1 = flash cs addr ∧
      Streaming cs ((addr + 1) % 2 ^ 24) (s.exchange flash 0).2 := by
  unfold Streaming at h ⊢
  cases cs with
  | false =>
      refine ⟨by simp [Board.exchange, h, Chip.shift], ?_⟩
      funext k
      cases k <;> simp [Board.exchange, h, Chip.shift]
  | true =>
      refine ⟨by simp [Board.exchange, h, Chip.shift], ?_⟩
      funext k
      cases k <;> simp [Board.exchange, h, Chip.shift]

/-- The invariant of the byte loop: after `n` turns, `n` bytes have been
    stored and the chip stands `n` bytes further on. -/
theorem receiveOnce_streaming (flash : Flash) (cs : Bool) (n : Nat) :
    ∀ (addr : Nat) (s : Board), addr < 2 ^ 24 → Streaming cs addr s →
      Streaming cs ((addr + n) % 2 ^ 24) (receiveOnce flash n s) ∧
        (receiveOnce flash n s).mem = filled (flash cs) addr s.recvBuf n s.mem ∧
        (receiveOnce flash n s).written
          = s.written ++ (List.range n).map (fun i => s.recvBuf + i) := by
  -- By induction on the bytes: the chip streams on from the next address.
  induction n with
  | zero =>
      intro addr s haddr h
      refine ⟨?_, ?_, ?_⟩
      · rw [Nat.add_zero, Nat.mod_eq_of_lt haddr]
        exact h
      · funext a
        simp only [receiveOnce, filled]
        rw [if_neg (by omega)]
      · simp only [receiveOnce, List.range_zero, List.map_nil, List.append_nil]
  | succ k ih =>
      intro addr s haddr h
      rcases exchange_streaming flash cs addr s h with ⟨hbyte, hnext⟩
      have hstream : Streaming cs ((addr + 1) % 2 ^ 24) (s.receiveByte flash) := hnext
      rcases ih _ (s.receiveByte flash) (Nat.mod_lt _ (by omega)) hstream with
        ⟨hchip, hmem, hwritten⟩
      refine ⟨?_, ?_, ?_⟩
      · rw [receiveOnce, show (addr + (k + 1)) % 2 ^ 24 = ((addr + 1) % 2 ^ 24 + k) % 2 ^ 24
          by omega]
        exact hchip
      · rw [receiveOnce, hmem]
        funext a
        simp only [filled, Board.receiveByte, hbyte]
        by_cases hrest : s.recvBuf + 1 ≤ a ∧ a < s.recvBuf + 1 + k
        · rw [if_pos hrest, if_pos (by omega)]
          congr 1
          omega
        · rw [if_neg hrest]
          by_cases ha : a = s.recvBuf
          · rw [if_pos ha, if_pos (by omega), ha, Nat.sub_self, Nat.add_zero,
              Nat.mod_eq_of_lt haddr]
          · rw [if_neg ha, if_neg (by omega)]
      · rw [receiveOnce, hwritten, List.range_succ_eq_map]
        simp only [Board.receiveByte, List.map_cons, List.map_map, Nat.add_zero,
          List.append_assoc, List.singleton_append]
        congr 2
        refine List.map_congr_left (fun i _ => ?_)
        simp only [Function.comp_apply, Nat.succ_eq_add_one]
        omega

/-- The four command bytes select a chip's content from `addr` on. -/
theorem drvUsiSpiSend_command (flash : Flash) (cs : Bool) (addr : Nat) (s : Board)
    (haddr : addr < 2 ^ 24) (h : Idle s) :
    drvUsiSpiSend flash
        [0x03, UInt8.ofNat (addr >>> 16), UInt8.ofNat (addr >>> 8), UInt8.ofNat addr]
        (s.csiGpioPinWrite cs false)
      = { s with chip := fun k => if k = cs then .reading addr else .standby } := by
  have hdecode : (addr >>> 16) % 256 * 65536 + (addr >>> 8) % 256 * 256 + addr % 256 = addr := by
    simp only [Nat.shiftRight_eq_div_pow]
    omega
  unfold Idle at h
  simp only [drvUsiSpiSend, List.foldl_cons, List.foldl_nil, Board.exchange,
    Board.csiGpioPinWrite, h]
  congr 1
  funext k
  by_cases hk : k = cs
  · simp [hk, Chip.shift, Chip.decode, hdecode]
  · simp [hk, Chip.shift]

/-- The effect of a read: the buffer holds the chip's bytes, nothing else was
    written, and the bus is idle. -/
theorem spiFlashRead_spec (flash : Flash) (cs : Bool) (addr data len : Nat) (s : Board)
    (haddr : addr < 2 ^ 24) (hdata : data ≠ 0) (h : Idle s) :
    Idle (spiFlashRead flash cs addr data len s) ∧
      (spiFlashRead flash cs addr data len s).mem = filled (flash cs) addr data len s.mem ∧
      (spiFlashRead flash cs addr data len s).written
        = s.written ++ (List.range len).map (fun i => data + i) := by
  simp only [spiFlashRead, drvUsiSpiSend_command flash cs addr s haddr h, drvUsiSpiReceive]
  by_cases hlen : len = 0
  · -- The driver rejects an empty transfer before it touches anything.
    rw [if_pos (Or.inr hlen)]
    refine ⟨?_, ?_, ?_⟩
    · funext k
      by_cases hk : k = cs <;> simp [Board.csiGpioPinWrite, hk]
    · funext a
      simp only [Board.csiGpioPinWrite, filled]
      rw [if_neg (by omega)]
    · simp only [Board.csiGpioPinWrite, hlen, List.range_zero, List.map_nil, List.append_nil]
  · rw [if_neg (by omega), receiveLoop_eq]
    rcases receiveOnce_streaming flash cs len addr
      { s with chip := fun k => if k = cs then .reading addr else .standby, recvBuf := data }
      haddr rfl with ⟨hchip, hmem, hwritten⟩
    refine ⟨?_, ?_, ?_⟩
    · funext k
      unfold Streaming at hchip
      by_cases hk : k = cs <;> simp [Board.csiGpioPinWrite, hk, hchip]
    · simp only [Board.csiGpioPinWrite, hmem]
    · simp only [Board.csiGpioPinWrite, hwritten]

end Boot

end Wujian100
