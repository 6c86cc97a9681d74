import Wujian100.Core.Boot.Sha2

/-!
# The Padded Message Reaches the Accelerator

Each of the functions that write a block gives the accelerator sixteen words,
and all of them under the LAST bit written before. What is left to show is that
the blocks are those of the padded message.

The loop is followed from its end: with `rem` bytes to go, what it still streams
are the blocks of those bytes with the padding of the whole message behind them.
The padding depends on the length of the message modulo the block only, so the
bound on the number of bytes left decides which of the four endings is right.

## Main definitions

* `Gives`: What a run of accesses gives the accelerator.
* `Streams`: The blocks a part of the driver streams.

## Theorems

* `writeLoop_streams`: The blocks the writing loop streams.
* `tail_short`, `tail_long`, `tail_whole`: The endings of a padded message.
* `calcLoop_streams`: What the loop streams from any turn on.
* `padded_message_streamed`: What `sha2_calc_data` streams is the padded
  message, block for block, with the LAST bit on the last.
-/

namespace Wujian100

namespace Sha2

theorem Mode.blockSize_pos (mode : Mode) : 0 < mode.blockSize := by
  cases mode <;> simp only [Mode.blockSize] <;> omega

theorem Mode.blockSize_words (mode : Mode) : mode.blockSize / 16 * 16 = mode.blockSize := by
  cases mode <;> rfl

theorem Mode.lengthSize_lt (mode : Mode) : mode.lengthSize + 1 < mode.blockSize := by
  cases mode <;> simp only [Mode.blockSize, Mode.lengthSize] <;> omega

theorem Mode.four_le_lengthSize (mode : Mode) : 4 ≤ mode.lengthSize := by
  cases mode <;> simp only [Mode.lengthSize] <;> omega

theorem Mode.blockSize_le (mode : Mode) : mode.blockSize ≤ 128 := by
  cases mode <;> simp only [Mode.blockSize] <;> omega

/-! ## What the accesses give -/

/-- Whatever the registers hold before, the accesses give the words. -/
def Gives (mode : Mode) (as : List Access) (ws : List (Bool × List UInt8)) : Prop :=
  ∀ last lo tail, ∃ last' lo',
    taken mode last lo (as ++ tail) = ws ++ taken mode last' lo' tail

/-- Between two states of the driver the blocks are streamed. -/
def Streams (mode : Mode) (bs : List (Bool × List UInt8)) (d d' : Drv) : Prop :=
  ∃ as, d'.log = d.log ++ as ∧ Gives mode as (bs.flatMap mode.words)

theorem Gives.append {mode : Mode} {as bs : List Access} {ws vs : List (Bool × List UInt8)}
    (ha : Gives mode as ws) (hb : Gives mode bs vs) : Gives mode (as ++ bs) (ws ++ vs) := by
  intro last lo tail
  obtain ⟨last₁, lo₁, h₁⟩ := ha last lo (bs ++ tail)
  obtain ⟨last₂, lo₂, h₂⟩ := hb last₁ lo₁ tail
  refine ⟨last₂, lo₂, ?_⟩
  rw [List.append_assoc, h₁, h₂, List.append_assoc]

theorem Streams.trans {mode : Mode} {bs cs : List (Bool × List UInt8)} {d d' d'' : Drv}
    (hb : Streams mode bs d d') (hc : Streams mode cs d' d'') :
    Streams mode (bs ++ cs) d d'' := by
  obtain ⟨as, has, hgb⟩ := hb
  obtain ⟨as', has', hgc⟩ := hc
  refine ⟨as ++ as', by rw [has', has, List.append_assoc], ?_⟩
  rw [List.flatMap_append]
  exact hgb.append hgc

/-- A word of memory, written back byte by byte. -/
theorem leBytes_word (mem : Nat → UInt8) (i : Nat) :
    leBytes 4 (word mem i) = window mem (4 * i) 4 := by
  have h := leBytes_leValue (window mem (4 * i) 4)
  rwa [length_window] at h

/-- An iteration gives one word of the accelerator. -/
theorem taken_dataIn (mode : Mode) (mem : Nat → UInt8) (i : Nat) (last : Bool) (lo : Nat)
    (tail : List Access) : ∃ lo', taken mode last lo (dataIn mode mem i ++ tail) =
      (last, window mem (mode.blockSize / 16 * i) (mode.blockSize / 16)) ::
        taken mode last lo' tail := by
  have hwide : leBytes 4 (word mem (i * 2)) ++ leBytes 4 (word mem (i * 2 + 1)) =
      window mem (8 * i) 8 := by
    rw [leBytes_word, leBytes_word, show 4 * (i * 2) = 8 * i by omega,
      show 4 * (i * 2 + 1) = 8 * i + 4 by omega]
    exact (window_add mem (8 * i) 4 4).symm
  cases mode with
  | sha224 | sha256 =>
      refine ⟨word mem i, ?_⟩
      simp only [dataIn, List.cons_append, List.nil_append, taken, Mode.wordBytes, leBytes_word,
        Mode.blockSize, Nat.reduceDiv]
  | sha384 | sha512 =>
      refine ⟨word mem (i * 2 + 1), ?_⟩
      simp only [dataIn, List.cons_append, List.nil_append, taken, Mode.wordBytes, hwide,
        Mode.blockSize, Nat.reduceDiv]

/-- The writing loop, by the number of iterations. -/
theorem taken_writeLoop (mode : Mode) (mem : Nat → UInt8) (last : Bool) (k lo : Nat)
    (tail : List Access) : ∃ lo',
      taken mode last lo ((List.range k).flatMap (dataIn mode mem) ++ tail) =
        (List.range k).map (fun i =>
          (last, window mem (mode.blockSize / 16 * i) (mode.blockSize / 16))) ++
        taken mode last lo' tail := by
  induction k generalizing tail with
  | zero => exact ⟨lo, rfl⟩
  | succ k ih =>
      obtain ⟨lo₁, h₁⟩ := ih (dataIn mode mem k ++ tail)
      obtain ⟨lo₂, h₂⟩ := taken_dataIn mode mem k last lo₁ tail
      refine ⟨lo₂, ?_⟩
      simp only [List.range_succ, List.flatMap_append, List.flatMap_singleton, List.map_append,
        List.map_singleton, List.append_assoc, h₁, h₂, List.singleton_append]

/-- A window cut into blocks. -/
theorem blocksOf_window (mem : Nat → UInt8) (s c k : Nat) (hc : 0 < c) :
    blocksOf c (window mem s (c * k)) = (List.range k).map fun i => window mem (s + c * i) c := by
  rw [blocksOf, length_window, Nat.mul_div_cancel_left _ hc]
  refine List.map_congr_left fun i hi => ?_
  have hk : c * k = c * i + (c + c * (k - i - 1)) := by
    have h : k = i + (1 + (k - i - 1)) := by
      have := List.mem_range.mp hi
      omega
    conv_lhs => rw [h]
    rw [Nat.mul_add, Nat.mul_add, Nat.mul_one]
  rw [hk, window_add, List.drop_left' (length_window _ _ _), window_add,
    List.take_left' (length_window _ _ _)]

/-- The blocks the writing loop streams: one, under the LAST bit before it. -/
theorem writeLoop_streams {mode : Mode} {mem : Nat → UInt8} {v : Nat} {d d' : Drv}
    (h : d'.log = d.log ++ .ctrl1 v :: .waitNext :: (List.range 16).flatMap (dataIn mode mem)) :
    Streams mode [(v.testBit 0, window mem 0 mode.blockSize)] d d' := by
  refine ⟨_, h, ?_⟩
  intro last lo tail
  obtain ⟨lo', hlo⟩ := taken_writeLoop mode mem (v.testBit 0) 16 lo tail
  refine ⟨v.testBit 0, lo', ?_⟩
  have hwords : mode.words (v.testBit 0, window mem 0 mode.blockSize) = (List.range 16).map
      fun i => (v.testBit 0, window mem (mode.blockSize / 16 * i) (mode.blockSize / 16)) := by
    have hc : 0 < mode.blockSize / 16 := by cases mode <;> decide
    have hcut := blocksOf_window mem 0 (mode.blockSize / 16) 16 hc
    rw [mode.blockSize_words] at hcut
    rw [Mode.words, hcut, List.map_map]
    refine List.map_congr_left fun i _ => ?_
    rw [Function.comp_apply, Nat.zero_add]
  rw [List.flatMap_singleton, hwords, ← hlo]
  rfl

/-! ## The scratch buffer -/

theorem window_cleared {s n : Nat} (temp : Nat → UInt8) (h : s + n ≤ 128) :
    window (cleared temp) s n = List.replicate n 0 := by
  rw [List.eq_replicate_iff]
  refine ⟨length_window _ _ _, fun b hb => ?_⟩
  obtain ⟨i, hi, rfl⟩ := List.mem_map.mp hb
  have hlt := List.mem_range.mp hi
  rw [cleared, blit_of_mem (by omega) (by omega)]

/-- The end of the message with the mark behind it, and zeros. -/
theorem window_marked {r m : Nat} (temp block : Nat → UInt8) (hr : r < m) (hm : m ≤ 128) :
    window (Function.update (blit (cleared temp) 0 block 0 r) r 0x80) 0 m =
      window block 0 r ++ 0x80 :: List.replicate (m - r - 1) 0 := by
  have hcopy : window (Function.update (blit (cleared temp) 0 block 0 r) r 0x80) 0 r =
      window block 0 r := by
    refine window_congr fun i hi => ?_
    rw [Function.update_of_ne (by omega), blit_of_mem (by omega) (by omega), Nat.sub_zero,
      Nat.zero_add]
  have hzero : window (Function.update (blit (cleared temp) 0 block 0 r) r 0x80) (r + 1)
      (m - r - 1) = List.replicate (m - r - 1) 0 := by
    rw [← window_cleared temp (show r + 1 + (m - r - 1) ≤ 128 by omega)]
    refine window_congr fun i hi => ?_
    rw [Function.update_of_ne (by omega), blit_of_not (by omega)]
  have hmark : window (Function.update (blit (cleared temp) 0 block 0 r) r 0x80) r 1 = [0x80] := by
    simp only [window, List.range_one, List.map_singleton, Nat.add_zero, Function.update_self]
  calc window (Function.update (blit (cleared temp) 0 block 0 r) r 0x80) 0 m
      = window (Function.update (blit (cleared temp) 0 block 0 r) r 0x80) 0
          (r + (1 + (m - r - 1))) := by rw [show r + (1 + (m - r - 1)) = m by omega]
    _ = window block 0 r ++ 0x80 :: List.replicate (m - r - 1) 0 := by
        rw [window_add, window_add, Nat.zero_add, hcopy, hmark, hzero, List.singleton_append]

theorem bitLength_eq {n : Nat} (hn : n < 2 ^ 29) : bitLength n = 8 * n := by
  rw [bitLength, Nat.shiftLeft_eq]
  omega

theorem ofNat_mod (v : Nat) : UInt8.ofNat (v % 256) = UInt8.ofNat v := by
  refine UInt8.toNat_inj.mp ?_
  rw [UInt8.toNat_ofNat', UInt8.toNat_ofNat']
  omega

/-- The stores of the length replace the last four bytes of the block. -/
theorem window_storeLength (mode : Mode) {n : Nat} (temp : Nat → UInt8) (hn : n < 2 ^ 29) :
    window (storeLength mode n temp) 0 mode.blockSize =
      window temp 0 (mode.blockSize - 4) ++ (leBytes 4 (8 * n)).reverse := by
  have hB : 4 ≤ mode.blockSize := by cases mode <;> decide
  have hlow : window (storeLength mode n temp) 0 (mode.blockSize - 4) =
      window temp 0 (mode.blockSize - 4) := by
    refine window_congr fun i hi => ?_
    rw [storeLength, Function.update_of_ne (by omega), Function.update_of_ne (by omega),
      Function.update_of_ne (by omega), Function.update_of_ne (by omega)]
  have hlen : window (storeLength mode n temp) (mode.blockSize - 4) 4 =
      (leBytes 4 (8 * n)).reverse := by
    have hbytes : (leBytes 4 (8 * n)).reverse = [UInt8.ofNat ((8 * n) >>> 24),
        UInt8.ofNat ((8 * n) >>> 16), UInt8.ofNat ((8 * n) >>> 8), UInt8.ofNat (8 * n)] := by
      simp only [leBytes, toDigits, List.map_cons, List.map_nil, List.reverse_cons,
        List.reverse_nil, List.nil_append, List.cons_append, ofNat_mod, Nat.shiftRight_eq_div_pow,
        Nat.div_div_eq_div_mul, Nat.reduceMul, Nat.reducePow]
    rw [hbytes]
    simp only [storeLength, bitLength_eq hn]
    cases mode <;> rfl
  have hsplit : window (storeLength mode n temp) 0 (mode.blockSize - 4 + 4) =
      window temp 0 (mode.blockSize - 4) ++ (leBytes 4 (8 * n)).reverse := by
    rw [window_add, hlow, Nat.zero_add, hlen]
  rwa [Nat.sub_add_cancel hB] at hsplit

/-- Below `2 ^ 29` bytes only the low four bytes of the length field are used. -/
theorem field_eq (mode : Mode) {n : Nat} (hn : n < 2 ^ 29) :
    (leBytes mode.lengthSize (8 * n)).reverse =
      List.replicate (mode.lengthSize - 4) 0 ++ (leBytes 4 (8 * n)).reverse := by
  have hhigh : 8 * n / 256 ^ 4 = 0 := Nat.div_eq_of_lt (by omega)
  have hzero : ∀ k, toDigits 256 k 0 = List.replicate k 0 := by
    intro k
    induction k with
    | zero => rfl
    | succ k ih => rw [toDigits, Nat.zero_div, Nat.zero_mod, ih, List.replicate_succ]
  have hsplit : leBytes (4 + (mode.lengthSize - 4)) (8 * n) =
      leBytes 4 (8 * n) ++ List.replicate (mode.lengthSize - 4) 0 := by
    rw [leBytes, toDigits_add, List.map_append, hhigh, hzero, List.map_replicate]
    rfl
  rw [Nat.add_sub_cancel' mode.four_le_lengthSize] at hsplit
  rw [hsplit, List.reverse_append, List.reverse_replicate]

/-! ## The functions that write a block -/

section Blocks

variable (mode : Mode) {n : Nat} (block : Nat → UInt8) (v : Nat) (d : Drv)

theorem sha2WriteBlock_streams : Streams mode [(v.testBit 0, window block 0 mode.blockSize)] d
    (sha2WriteBlock mode block (d.access (.ctrl1 v))) := by
  refine writeLoop_streams ?_
  simp only [sha2WriteBlock, writeLoop, Drv.access, List.append_assoc, List.cons_append,
    List.nil_append]

theorem sha2WriteBlockFill1_streams (hn : n < 2 ^ 29)
    (hr : n % mode.blockSize + 1 + mode.lengthSize ≤ mode.blockSize) :
    Streams mode [(v.testBit 0, window block 0 (n % mode.blockSize) ++ 0x80 ::
        List.replicate (mode.blockSize - n % mode.blockSize - 1 - mode.lengthSize) 0 ++
          (leBytes mode.lengthSize (8 * n)).reverse)] d
      (sha2WriteBlockFill1 mode n block (d.access (.ctrl1 v))) := by
  have hfour := mode.four_le_lengthSize
  have hle := mode.blockSize_le
  rw [field_eq mode hn, ← List.append_assoc]
  -- The zeros of the buffer run on into the high bytes of the length field.
  have hzeros : window block 0 (n % mode.blockSize) ++ 0x80 ::
        List.replicate (mode.blockSize - n % mode.blockSize - 1 - mode.lengthSize) 0 ++
          List.replicate (mode.lengthSize - 4) 0 =
      window block 0 (n % mode.blockSize) ++ 0x80 ::
        List.replicate (mode.blockSize - 4 - n % mode.blockSize - 1) 0 := by
    rw [List.append_assoc, List.cons_append, List.replicate_append_replicate]
    congr 3
    omega
  rw [hzeros, ← window_marked d.temp block (by omega) (by omega), ← window_storeLength mode _ hn]
  refine writeLoop_streams ?_
  simp only [sha2WriteBlockFill1, writeLoop, Drv.access, List.append_assoc, List.cons_append,
    List.nil_append]

theorem sha2WriteBlockFill2a_streams :
    Streams mode [(v.testBit 0, window block 0 (n % mode.blockSize) ++ 0x80 ::
        List.replicate (mode.blockSize - n % mode.blockSize - 1) 0)] d
      (sha2WriteBlockFill2a mode n block (d.access (.ctrl1 v))) := by
  have hlt : n % mode.blockSize < mode.blockSize := Nat.mod_lt _ mode.blockSize_pos
  rw [← window_marked d.temp block hlt mode.blockSize_le]
  refine writeLoop_streams ?_
  simp only [sha2WriteBlockFill2a, writeLoop, Drv.access, List.append_assoc, List.cons_append,
    List.nil_append]

theorem sha2WriteBlockFill2b_streams (hn : n < 2 ^ 29) :
    Streams mode [(v.testBit 0, List.replicate (mode.blockSize - mode.lengthSize) 0 ++
        (leBytes mode.lengthSize (8 * n)).reverse)] d
      (sha2WriteBlockFill2b mode n (d.access (.ctrl1 v))) := by
  have hfour := mode.four_le_lengthSize
  have hlt := mode.lengthSize_lt
  have hle := mode.blockSize_le
  have hzeros : List.replicate (mode.blockSize - mode.lengthSize) (0 : UInt8) ++
      List.replicate (mode.lengthSize - 4) 0 = window (cleared d.temp) 0 (mode.blockSize - 4) := by
    rw [window_cleared d.temp (by omega), List.replicate_append_replicate]
    congr 1
    omega
  rw [field_eq mode hn, ← List.append_assoc, hzeros, ← window_storeLength mode _ hn]
  refine writeLoop_streams ?_
  simp only [sha2WriteBlockFill2b, writeLoop, Drv.access, List.append_assoc, List.cons_append,
    List.nil_append]

theorem sha2WriteBlockFill3_streams (hn : n < 2 ^ 29) :
    Streams mode [(v.testBit 0, 0x80 :: List.replicate (mode.blockSize - 1 - mode.lengthSize) 0 ++
        (leBytes mode.lengthSize (8 * n)).reverse)] d
      (sha2WriteBlockFill3 mode n (d.access (.ctrl1 v))) := by
  have hfour := mode.four_le_lengthSize
  have hlt := mode.lengthSize_lt
  have hle := mode.blockSize_le
  -- This is the marked buffer with no byte of the message before the mark.
  have hmarked := window_marked d.temp d.temp (show 0 < mode.blockSize - 4 by omega) (by omega)
  have hnone : blit (cleared d.temp) 0 d.temp 0 0 = cleared d.temp := by
    ext i
    rw [blit_of_not (by omega)]
  have hzeros : 0x80 :: List.replicate (mode.blockSize - 1 - mode.lengthSize) (0 : UInt8) ++
      List.replicate (mode.lengthSize - 4) 0 =
        window (Function.update (cleared d.temp) 0 0x80) 0 (mode.blockSize - 4) := by
    rw [hnone] at hmarked
    rw [hmarked, List.cons_append, List.replicate_append_replicate]
    simp only [window, List.range_zero, List.map_nil, List.nil_append]
    congr 2
    omega
  rw [field_eq mode hn, ← List.append_assoc, hzeros, ← window_storeLength mode _ hn]
  refine writeLoop_streams ?_
  simp only [sha2WriteBlockFill3, writeLoop, Drv.access, List.append_assoc, List.cons_append,
    List.nil_append]

end Blocks

/-! ## The endings of a padded message -/

section Tails

variable (mode : Mode) {n : Nat} {rest : List UInt8}

/-- The padding of a message of `n` bytes. -/
def Mode.padding (mode : Mode) (n : Nat) : List UInt8 :=
  Wujian100.padding mode.blockSize 0x80 0 (leBytes mode.lengthSize (8 * n)).reverse n

theorem Mode.padding_eq {k : Nat} (hk : k < mode.blockSize)
    (h : (n % mode.blockSize + 1 + mode.lengthSize + k) % mode.blockSize = 0) :
    mode.padding n =
      0x80 :: List.replicate k 0 ++ (leBytes mode.lengthSize (8 * n)).reverse := by
  refine Wujian100.padding_eq _ _ _ hk ?_
  rw [List.length_reverse, length_leBytes, Nat.add_assoc, Nat.add_assoc, Nat.add_mod, ← h]
  conv_rhs => rw [Nat.add_assoc, Nat.add_assoc, Nat.add_mod, Nat.mod_mod]

/-- There is room for the mark and the length behind the message. -/
theorem tail_short (hr : n % mode.blockSize + 1 + mode.lengthSize ≤ mode.blockSize)
    (hlen : rest.length = n % mode.blockSize) :
    blocksOf mode.blockSize (rest ++ mode.padding n) = [rest ++ 0x80 ::
      List.replicate (mode.blockSize - n % mode.blockSize - 1 - mode.lengthSize) 0 ++
        (leBytes mode.lengthSize (8 * n)).reverse] := by
  have hpad := mode.padding_eq (n := n)
    (k := mode.blockSize - n % mode.blockSize - 1 - mode.lengthSize)
    (by have := mode.blockSize_pos; omega)
    (by rw [show n % mode.blockSize + 1 + mode.lengthSize +
          (mode.blockSize - n % mode.blockSize - 1 - mode.lengthSize) = mode.blockSize by omega,
        Nat.mod_self])
  rw [hpad, List.append_assoc]
  refine blocksOf_single mode.blockSize_pos ?_
  simp only [List.length_append, List.length_cons, List.length_replicate, List.length_reverse,
    length_leBytes, hlen]
  omega

/-- There is room for the mark only; the length goes to a block of its own. -/
theorem tail_long (hr : mode.blockSize < n % mode.blockSize + 1 + mode.lengthSize)
    (hlen : rest.length = n % mode.blockSize) :
    blocksOf mode.blockSize (rest ++ mode.padding n) =
      [rest ++ 0x80 :: List.replicate (mode.blockSize - n % mode.blockSize - 1) 0,
        List.replicate (mode.blockSize - mode.lengthSize) 0 ++
          (leBytes mode.lengthSize (8 * n)).reverse] := by
  have hlt : n % mode.blockSize < mode.blockSize := Nat.mod_lt _ mode.blockSize_pos
  have hL := mode.lengthSize_lt
  have hpad := mode.padding_eq (n := n)
    (k := mode.blockSize - n % mode.blockSize - 1 + (mode.blockSize - mode.lengthSize))
    (by omega)
    (by rw [show n % mode.blockSize + 1 + mode.lengthSize + (mode.blockSize - n % mode.blockSize -
          1 + (mode.blockSize - mode.lengthSize)) = mode.blockSize * 2 by omega,
        Nat.mul_mod_right])
  have hcut : rest ++ mode.padding n =
      (rest ++ 0x80 :: List.replicate (mode.blockSize - n % mode.blockSize - 1) 0) ++
        (List.replicate (mode.blockSize - mode.lengthSize) 0 ++
          (leBytes mode.lengthSize (8 * n)).reverse) := by
    rw [hpad, ← List.replicate_append_replicate]
    simp only [List.append_assoc, List.cons_append]
  rw [hcut, blocksOf_cons mode.blockSize_pos, blocksOf_single mode.blockSize_pos]
  · simp only [List.length_append, List.length_replicate, List.length_reverse, length_leBytes]
    omega
  · simp only [List.length_append, List.length_cons, List.length_replicate, hlen]
    omega

/-- The message ends with a block, and the padding is one. -/
theorem tail_whole (hr : n % mode.blockSize = 0) (hlen : rest.length = mode.blockSize) :
    blocksOf mode.blockSize (rest ++ mode.padding n) =
      [rest, 0x80 :: List.replicate (mode.blockSize - 1 - mode.lengthSize) 0 ++
        (leBytes mode.lengthSize (8 * n)).reverse] := by
  have hL := mode.lengthSize_lt
  have hpad := mode.padding_eq (n := n) (k := mode.blockSize - 1 - mode.lengthSize) (by omega)
    (by rw [hr, show 0 + 1 + mode.lengthSize + (mode.blockSize - 1 - mode.lengthSize) =
          mode.blockSize by omega, Nat.mod_self])
  rw [blocksOf_cons mode.blockSize_pos hlen, hpad, blocksOf_single mode.blockSize_pos]
  simp only [List.length_append, List.length_cons, List.length_replicate, List.length_reverse,
    length_leBytes]
  omega

end Tails

/-! ## The whole message -/

theorem Mode.testBit_more (mode : Mode) : (mode.code <<< 1).testBit 0 = false := by
  cases mode <;> rfl

theorem Mode.testBit_last (mode : Mode) : (mode.code <<< 1 ||| lastBit).testBit 0 = true := by
  cases mode <;> rfl

/-- From any turn on the loop streams the bytes left with the padding of the
    whole message. -/
theorem calcLoop_streams (mode : Mode) (block : Nat → UInt8) {n cur rem : Nat} (d : Drv)
    (hn : n < 2 ^ 29) (hrem : 0 < rem) (hsum : cur + rem = n) (hcur : cur % mode.blockSize = 0) :
    Streams mode (marked (blocksOf mode.blockSize (window block cur rem ++ mode.padding n))) d
      (calcLoop mode block n cur rem d) := by
  have hpos := mode.blockSize_pos
  have hL := mode.lengthSize_lt
  have hmod : n % mode.blockSize = rem % mode.blockSize := by
    rw [← hsum, Nat.add_mod, hcur, Nat.zero_add, Nat.mod_mod]
  have hrest : ∀ k, window (fun i => block (cur + i)) 0 k = window block cur k :=
    fun k => window_congr fun i _ => by rw [Nat.zero_add]
  -- The turns are counted by the bytes left, which fall by a block each.
  induction rem using Nat.strong_induction_on generalizing cur d with
  | _ rem ih =>
      rw [calcLoop, if_neg (by omega)]
      by_cases hshort : rem ≤ mode.blockSize - mode.lengthSize - 1
      · have hr : n % mode.blockSize = rem := by rw [hmod, Nat.mod_eq_of_lt (by omega)]
        have hfill := sha2WriteBlockFill1_streams mode (fun i => block (cur + i))
          (mode.code <<< 1 ||| lastBit) d hn (by omega)
        rw [if_pos hshort, tail_short mode (by omega) (by rw [length_window, hr])]
        rw [mode.testBit_last, hrest, hr] at hfill
        rw [hr]
        exact hfill
      rw [if_neg hshort]
      by_cases hlong : rem ≤ mode.blockSize - 1
      · have hr : n % mode.blockSize = rem := by rw [hmod, Nat.mod_eq_of_lt (by omega)]
        have hfirst := sha2WriteBlockFill2a_streams mode (n := n) (fun i => block (cur + i))
          (mode.code <<< 1) d
        have hsecond := sha2WriteBlockFill2b_streams mode (mode.code <<< 1 ||| lastBit)
          (sha2WriteBlockFill2a mode n (fun i => block (cur + i))
            (d.access (.ctrl1 (mode.code <<< 1)))) hn
        rw [if_pos hlong, tail_long mode (by omega) (by rw [length_window, hr])]
        rw [mode.testBit_more, hrest, hr] at hfirst
        rw [mode.testBit_last] at hsecond
        rw [hr]
        exact hfirst.trans hsecond
      rw [if_neg hlong]
      have hblock := sha2WriteBlock_streams mode (fun i => block (cur + i)) (mode.code <<< 1) d
      rw [mode.testBit_more, hrest] at hblock
      by_cases hwhole : rem = mode.blockSize
      · have hr : n % mode.blockSize = 0 := by rw [hmod, hwhole, Nat.mod_self]
        have hsecond := sha2WriteBlockFill3_streams mode (mode.code <<< 1 ||| lastBit)
          (sha2WriteBlock mode (fun i => block (cur + i))
            (d.access (.ctrl1 (mode.code <<< 1)))) hn
        rw [if_pos hwhole, tail_whole mode hr (by rw [length_window, hwhole])]
        rw [mode.testBit_last] at hsecond
        rw [hwhole]
        exact hblock.trans hsecond
      · have hsplit : window block cur rem = window block cur mode.blockSize ++
            window block (cur + mode.blockSize) (rem - mode.blockSize) := by
          rw [← window_add, Nat.add_sub_cancel' (by omega)]
        have hnext := @ih (rem - mode.blockSize) (by omega) (cur + mode.blockSize)
          (sha2WriteBlock mode (fun i => block (cur + i)) (d.access (.ctrl1 (mode.code <<< 1))))
          (by omega) (by omega) (by rw [Nat.add_mod_right, hcur])
          (by rw [hmod, Nat.mod_eq_sub_mod (by omega)])
          (fun k => window_congr fun i _ => by rw [Nat.zero_add])
        have hmore : blocksOf mode.blockSize (window block (cur + mode.blockSize)
            (rem - mode.blockSize) ++ mode.padding n) ≠ [] := by
          have hwhole := mod_add_length_padding (B := mode.blockSize) (0x80 : UInt8) 0
            (leBytes mode.lengthSize (8 * n)).reverse n hpos
          refine blocksOf_ne_nil hpos (Nat.le_of_dvd ?_ (Nat.dvd_of_mod_eq_zero ?_))
          · rw [List.length_append, length_window]
            omega
          · rw [List.length_append, length_window, Nat.add_mod, ← Nat.mod_eq_sub_mod (by omega),
              ← hmod, ← Nat.add_mod]
            exact hwhole
        rw [if_neg hwhole, hsplit, List.append_assoc, blocksOf_cons hpos (length_window _ _ _),
          marked_cons hmore]
        exact hblock.trans hnext

/-- The accesses that fetch the result. -/
def readLog (mode : Mode) : List Access :=
  let read := Access.ctrl1 (readBit ||| mode.code <<< 1)
  Access.waitDone :: ((List.range mode.count).flatMap (fun i =>
    [read, Access.readLo (i * 2), Access.readHi (i * 2 + 1)]) ++
      List.replicate (16 - mode.count) read)

/-- Reading the result gives the accelerator nothing. -/
theorem sha2ReadResult_streams (mode : Mode) (d : Drv) :
    Streams mode [] d (sha2ReadResult mode d) := by
  have hlog : (sha2ReadResult mode d).log = d.log ++ readLog mode := by
    simp only [sha2ReadResult, readLog, Drv.access, List.append_assoc, List.cons_append,
      List.nil_append]
  refine ⟨readLog mode, hlog, ?_⟩
  intro last lo tail
  cases mode <;> exact ⟨_, _, rfl⟩

/-- What `sha2_calc_data` streams is the padded message: its blocks in order,
    each once and as sixteen words, and the LAST bit on the last one only. -/
theorem padded_message_streamed (mode : Mode) (block temp : Nat → UInt8) (n : Nat) (hn : 1 ≤ n)
    (hlt : n < 2 ^ 29) (last : Bool) (lo : Nat) :
    taken mode last lo (sha2CalcData mode block n temp) =
      (marked (blocksOf mode.blockSize (mode.padded (window block 0 n)))).flatMap mode.words := by
  have hloop := calcLoop_streams mode block { temp, log := [] } hlt hn (Nat.zero_add n)
    (Nat.zero_mod _)
  obtain ⟨as, has, hgives⟩ := hloop.trans (sha2ReadResult_streams mode _)
  obtain ⟨last', lo', h⟩ := hgives last lo []
  rw [List.append_nil, List.append_nil, taken, List.append_nil] at h
  rw [sha2CalcData, has, List.nil_append, h, Mode.padded, Wujian100.padded, length_window]
  rfl

/-- Three bytes with anything behind them, through SHA-256. -/
theorem padded_message_streamed_abc :
    1 ≤ 3 ∧ 3 < 2 ^ 29 ∧
      taken .sha256 false 0 (sha2CalcData .sha256 (fun i => UInt8.ofNat (0x61 + i)) 3
          (fun _ => 0xff)) =
        (marked (blocksOf 64 (Mode.padded .sha256 [0x61, 0x62, 0x63]))).flatMap
          (Mode.words .sha256) :=
  ⟨by decide, by decide, padded_message_streamed .sha256 (fun i => UInt8.ofNat (0x61 + i))
    (fun _ => 0xff) 3 (by decide) (by decide) false 0⟩

example : Mode.padded .sha256 [0x61, 0x62, 0x63] =
    [0x61, 0x62, 0x63, 0x80] ++ List.replicate 59 0 ++ [0x18] := by decide

end Sha2

end Wujian100
