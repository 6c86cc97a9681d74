import Wujian100.Core.Rhino.Kfifo
import Mathlib.Algebra.Order.Ring.Nat
import Mathlib.Tactic.Ring

/-!
# The Byte FIFO Is a Bounded Queue

`in - out` is the number of bytes stored although both run over, since the size
divides `2 ^ 32`: a position taken with `mask` does not notice the wrap.

## Main definitions

* `KfifoHolds`: The FIFO holds a list of bytes.
* `KfifoOp.queueOp`: A call, as a call on a bounded queue.

## Theorems

* `fifoCopyIn_blitted`, `kfifoCopyOut_eq`: What the copies do, however they split.
* `kfifoStep_bounded`: One call does what the queue does.
* `kfifo_refines_bounded`: All calls do.
-/

namespace Wujian100

namespace Rhino

/-- The FIFO has `2 ^ k` bytes of buffer and holds the list from `out` on. -/
structure KfifoHolds (k : Nat) (f : Kfifo) (q : List UInt8) : Prop where
  size : f.size.toNat = 2 ^ k
  mask : f.mask.toNat = 2 ^ k - 1
  used : (f.in_ - f.out).toNat = q.length
  fits : q.length ≤ 2 ^ k
  free : f.freeBytes = f.size - (f.in_ - f.out)
  holds : RingHolds (2 ^ k) f.data f.out.toNat q

/-- The same call on a queue. -/
def KfifoOp.queueOp : KfifoOp → BoundedOp UInt8
  | .in buf len => .put buf len.toNat
  | .out buf len => .get buf len.toNat
  | .outPeek buf len => .peek buf len.toNat
  | .outAll buf => .drain buf

/-! ## Positions and lengths -/

section Positions

variable {k : Nat} {f : Kfifo} {q : List UInt8}

theorem toNat_fifoMin (x y : UInt32) : (fifoMin x y).toNat = min x.toNat y.toNat := by
  unfold fifoMin
  split_ifs with h
  · rw [gt_iff_lt, UInt32.lt_iff_toNat_lt] at h
    omega
  · rw [gt_iff_lt, UInt32.lt_iff_toNat_lt] at h
    omega

/-- The lesser of a length and what there is. -/
theorem toNat_clamp (x y : UInt32) : (if x > y then y else x).toNat = min x.toNat y.toNat :=
  toNat_fifoMin x y

theorem KfifoHolds.size_lt (h : KfifoHolds k f q) : 2 ^ k < 2 ^ 32 := by
  rw [← h.size]
  exact f.size.toNat_lt

theorem KfifoHolds.width (h : KfifoHolds k f q) : k < 32 :=
  (Nat.pow_lt_pow_iff_right (by omega)).mp h.size_lt

theorem KfifoHolds.dvd (h : KfifoHolds k f q) : 2 ^ k ∣ 2 ^ 32 :=
  pow_dvd_pow 2 h.width.le

/-- `mask + 1` is the size. -/
theorem KfifoHolds.toNat_mask_succ (h : KfifoHolds k f q) : (f.mask + 1).toNat = 2 ^ k := by
  have hpos : 0 < 2 ^ k := Nat.two_pow_pos k
  rw [UInt32.toNat_add, h.mask, UInt32.toNat_one, Nat.sub_add_cancel hpos]
  exact Nat.mod_eq_of_lt h.size_lt

/-- What `mask` leaves of a counter. -/
theorem KfifoHolds.toNat_and_mask (h : KfifoHolds k f q) (x : UInt32) :
    (x &&& f.mask).toNat = x.toNat % 2 ^ k := by
  rw [UInt32.toNat_and, h.mask, Nat.and_two_pow_sub_one_eq_mod]

theorem KfifoHolds.toNat_unused (h : KfifoHolds k f q) : f.fifoUnused.toNat = 2 ^ k - q.length := by
  have hle : f.in_ - f.out ≤ f.mask + 1 := by
    rw [UInt32.le_iff_toNat_le, h.toNat_mask_succ, h.used]
    exact h.fits
  rw [Kfifo.fifoUnused, UInt32.toNat_sub_of_le _ _ hle, h.toNat_mask_succ, h.used]

/-- The next byte goes behind the last one. -/
theorem KfifoHolds.in_mod (h : KfifoHolds k f q) :
    f.in_.toNat % 2 ^ k = (f.out.toNat + q.length) % 2 ^ k := by
  have hin : f.in_ = f.out + (f.in_ - f.out) := by grind
  rw [hin, UInt32.toNat_add, h.used, Nat.mod_mod_of_dvd _ h.dvd]

end Positions

/-! ## Copies -/

section Copies

variable {k : Nat} {f : Kfifo} {q : List UInt8}

/-- Either copy splits where the buffer ends. -/
theorem KfifoHolds.toNat_split (h : KfifoHolds k f q) (len off : UInt32) :
    (fifoMin len (f.mask + 1 - (off &&& f.mask))).toNat =
      min len.toNat (2 ^ k - off.toNat % 2 ^ k) := by
  have hlt : off.toNat % 2 ^ k < 2 ^ k := Nat.mod_lt _ (Nat.two_pow_pos k)
  have hle : off &&& f.mask ≤ f.mask + 1 := by
    rw [UInt32.le_iff_toNat_le, h.toNat_mask_succ, h.toNat_and_mask]
    exact hlt.le
  rw [toNat_fifoMin, UInt32.toNat_sub_of_le _ _ hle, h.toNat_mask_succ, h.toNat_and_mask]

theorem toNat_rest {len l : UInt32} {n : Nat} (hl : l.toNat = min len.toNat n) :
    (len - l).toNat = len.toNat - min len.toNat n := by
  have hle : l ≤ len := by
    rw [UInt32.le_iff_toNat_le]
    omega
  rw [UInt32.toNat_sub_of_le _ _ hle, hl]

/-- Bytes copied in are behind `off`, in one piece or two. -/
theorem fifoCopyIn_blitted (h : KfifoHolds k f q) (src : Nat → UInt8)
    (len off : UInt32) (hlen : len.toNat ≤ 2 ^ k) :
    Blitted (2 ^ k) f.data (off.toNat % 2 ^ k) (window src 0 len.toNat)
      (f.fifoCopyIn src len off).data := by
  have hlt : off.toNat % 2 ^ k < 2 ^ k := Nat.mod_lt _ (Nat.two_pow_pos k)
  have hl := h.toNat_split len off
  unfold Kfifo.fifoCopyIn
  dsimp only
  rw [toNat_rest hl, hl, h.toNat_and_mask]
  by_cases hfit : len.toNat ≤ 2 ^ k - off.toNat % 2 ^ k
  · rw [Nat.min_eq_left hfit, Nat.sub_self, blit_zero]
    exact blitted_straight (by omega)
  · have hsplit := blitted_split f.data src 0 hlt (by omega) hlen
    rw [Nat.zero_add] at hsplit
    rw [Nat.min_eq_right (by omega)]
    exact hsplit

/-- Bytes copied out are the oldest ones. -/
theorem kfifoCopyOut_eq (h : KfifoHolds k f q) (dst : Nat → UInt8) {len : UInt32}
    (hlen : len.toNat ≤ q.length) :
    f.kfifoCopyOut dst len f.out = overlay dst (q.take len.toNat) := by
  have hlt : f.out.toNat % 2 ^ k < 2 ^ k := Nat.mod_lt _ (Nat.two_pow_pos k)
  have hl := h.toNat_split len f.out
  have hfits := h.fits
  have htake : (q.take len.toNat).length = len.toNat := by
    rw [List.length_take]
    omega
  -- The list from `out` on, as positions of the buffer.
  have hholds : RingHolds (2 ^ k) f.data (f.out.toNat % 2 ^ k) (q.take len.toNat) := by
    have hq := h.holds
    rw [← List.take_append_drop len.toNat q, RingHolds.append_iff] at hq
    exact hq.1.congr (Nat.mod_mod _ _)
  unfold Kfifo.kfifoCopyOut
  dsimp only
  rw [toNat_rest hl, hl, h.toNat_and_mask]
  by_cases hfit : len.toNat ≤ 2 ^ k - f.out.toNat % 2 ^ k
  · rw [Nat.min_eq_left hfit, Nat.sub_self, blit_zero]
    have hcopied := copied_straight dst hholds (by rw [htake]; omega)
    rw [htake] at hcopied
    exact hcopied
  · rw [Nat.min_eq_right (by omega)]
    have hcopied := copied_split dst hholds hlt (by rw [htake]; omega) (by rw [htake]; omega)
    rw [htake] at hcopied
    exact hcopied

end Copies

/-! ## The calls -/

section Calls

variable {k : Nat} {f : Kfifo} {q : List UInt8}

/-- `fifo_in` appends what there is room for. -/
theorem fifoIn_holds (h : KfifoHolds k f q) (buf : Nat → UInt8) (len : UInt32) :
    (f.fifoIn buf len).1.toNat = min len.toNat (2 ^ k - q.length) ∧
      KfifoHolds k (f.fifoIn buf len).2
        (q ++ window buf 0 (min len.toNat (2 ^ k - q.length))) := by
  have hclamp := toNat_clamp len f.fifoUnused
  rw [h.toNat_unused] at hclamp
  have hfits := h.fits
  have hlt := h.size_lt
  have hused := h.used
  unfold Kfifo.fifoIn
  dsimp only
  generalize (if len > f.fifoUnused then f.fifoUnused else len) = n at hclamp ⊢
  refine ⟨hclamp, h.size, h.mask, ?_, ?_, ?_, ?_⟩
  · have hmore : f.in_ + n - f.out = (f.in_ - f.out) + n := by grind
    change (f.in_ + n - f.out).toNat = _
    rw [hmore, UInt32.toNat_add, hused, hclamp, List.length_append, length_window]
    exact Nat.mod_eq_of_lt (by omega)
  · rw [List.length_append, length_window]
    omega
  · change f.freeBytes - n = f.size - (f.in_ + n - f.out)
    rw [h.free]
    grind
  · have hblit := fifoCopyIn_blitted h buf n f.in_ (by omega)
    rw [hclamp] at hblit
    refine h.holds.extend (hblit.congr ?_) ?_
    · rw [Nat.mod_mod, h.in_mod]
    · rw [length_window]
      omega

/-- What is left when the oldest bytes are gone. -/
theorem KfifoHolds.drop (h : KfifoHolds k f q) {n : UInt32} (hn : n.toNat ≤ q.length) :
    KfifoHolds k { f with out := f.out + n, freeBytes := f.freeBytes + n } (q.drop n.toNat) := by
  have hfits := h.fits
  have hused := h.used
  refine ⟨h.size, h.mask, ?_, ?_, ?_, ?_⟩
  · have hless : f.in_ - (f.out + n) = (f.in_ - f.out) - n := by grind
    have hle : n ≤ f.in_ - f.out := by
      rw [UInt32.le_iff_toNat_le, hused]
      exact hn
    change (f.in_ - (f.out + n)).toNat = _
    rw [hless, UInt32.toNat_sub_of_le _ _ hle, hused, List.length_drop]
  · rw [List.length_drop]
    omega
  · change f.freeBytes + n = f.size - (f.in_ - (f.out + n))
    rw [h.free]
    grind
  · have hq := h.holds
    rw [← List.take_append_drop n.toNat q, RingHolds.append_iff, List.length_take,
      Nat.min_eq_left hn] at hq
    refine hq.2.congr ?_
    change (f.out + n).toNat % 2 ^ k = _
    rw [UInt32.toNat_add, Nat.mod_mod_of_dvd _ h.dvd]

theorem internalFifoOutPeek_eq (h : KfifoHolds k f q) (buf : Nat → UInt8) (len : UInt32) :
    (f.internalFifoOutPeek buf len).1.toNat = min len.toNat q.length ∧
      (f.internalFifoOutPeek buf len).2 = overlay buf (q.take (min len.toNat q.length)) := by
  have hclamp := toNat_clamp len (f.in_ - f.out)
  rw [h.used] at hclamp
  unfold Kfifo.internalFifoOutPeek
  dsimp only
  generalize (if len > f.in_ - f.out then f.in_ - f.out else len) = n at hclamp ⊢
  refine ⟨hclamp, ?_⟩
  rw [kfifoCopyOut_eq h buf (by omega), hclamp]

theorem fifoOut_holds (h : KfifoHolds k f q) (buf : Nat → UInt8) (len : UInt32) :
    (f.fifoOut buf len).1.1.toNat = min len.toNat q.length ∧
      (f.fifoOut buf len).1.2 = overlay buf (q.take (min len.toNat q.length)) ∧
        KfifoHolds k (f.fifoOut buf len).2 (q.drop (min len.toNat q.length)) := by
  rcases internalFifoOutPeek_eq h buf len with ⟨hlen, hbuf⟩
  refine ⟨hlen, hbuf, ?_⟩
  rw [← hlen]
  exact h.drop (by omega)

/-- `size - free_bytes` is what is stored. -/
theorem KfifoHolds.toNat_stored (h : KfifoHolds k f q) :
    (f.size - f.freeBytes).toNat = q.length := by
  have hall : f.size - f.freeBytes = f.in_ - f.out := by
    rw [h.free]
    grind
  rw [hall, h.used]

theorem fifoOutAll_holds (h : KfifoHolds k f q) (buf : Nat → UInt8) :
    (f.fifoOutAll buf).1.1.toNat = q.length ∧ (f.fifoOutAll buf).1.2 = overlay buf q ∧
      KfifoHolds k (f.fifoOutAll buf).2 [] := by
  have hstored := h.toNat_stored
  unfold Kfifo.fifoOutAll
  dsimp only
  split_ifs with hzero
  · rw [hzero, UInt32.toNat_zero, eq_comm, List.length_eq_zero_iff] at hstored
    subst hstored
    exact ⟨rfl, rfl, h⟩
  · have hout := fifoOut_holds h buf (f.size - f.freeBytes)
    rw [hstored, Nat.min_self, List.take_length, List.drop_length] at hout
    exact hout

/-- One call does what the queue does. -/
theorem kfifoStep_bounded (h : KfifoHolds k f q) (op : KfifoOp) :
    (f.step op).1 = (bounded (2 ^ k) q op.queueOp).1 ∧
      KfifoHolds k (f.step op).2 (bounded (2 ^ k) q op.queueOp).2 := by
  cases op with
  | «in» buf len =>
      rcases fifoIn_holds h buf len with ⟨hlen, hnext⟩
      exact ⟨congrArg BoundedOut.moved hlen, hnext⟩
  | out buf len =>
      rcases fifoOut_holds h buf len with ⟨hlen, hbuf, hnext⟩
      exact ⟨congrArg₂ BoundedOut.copied hlen hbuf, hnext⟩
  | outPeek buf len =>
      rcases internalFifoOutPeek_eq h buf len with ⟨hlen, hbuf⟩
      exact ⟨congrArg₂ BoundedOut.copied hlen hbuf, h⟩
  | outAll buf =>
      rcases fifoOutAll_holds h buf with ⟨hlen, hbuf, hnext⟩
      exact ⟨congrArg₂ BoundedOut.copied hlen hbuf, hnext⟩

/-- A power of two from two on is a size `fifo_init` takes. -/
theorem kfifoInit_holds (f : Kfifo) (buffer : Nat → UInt8) {size : UInt32} (hk : 1 ≤ k)
    (hsize : size.toNat = 2 ^ k) :
    (f.init buffer size).1 = 0 ∧ KfifoHolds k (f.init buffer size).2 [] := by
  have htwo : 2 ^ 1 ≤ 2 ^ k := Nat.pow_le_pow_right (by omega) hk
  have hone : 1 ≤ size := by
    rw [UInt32.le_iff_toNat_le, UInt32.toNat_one]
    omega
  have hmask : (size - 1).toNat = 2 ^ k - 1 := by
    rw [UInt32.toNat_sub_of_le _ _ hone, hsize, UInt32.toNat_one]
  have hpower : isPowerOf2 size = true := by
    have hne : size ≠ 0 := by
      rintro rfl
      rw [UInt32.toNat_zero] at hsize
      omega
    have hand : size &&& (size - 1) = 0 := by
      rw [← UInt32.toNat_inj, UInt32.toNat_and, hmask, hsize, Nat.and_two_pow_sub_one_eq_mod,
        Nat.mod_self, UInt32.toNat_zero]
    unfold isPowerOf2
    simp [hne, hand]
  have hnot : ¬size < 2 := by
    rw [UInt32.lt_iff_toNat_lt, hsize]
    change ¬2 ^ k < 2
    omega
  unfold Kfifo.init
  dsimp only
  rw [hpower, if_neg (by simp), if_neg hnot]
  refine ⟨rfl, hsize, hmask, ?_, Nat.zero_le _, ?_, ?_⟩
  · change ((0 : UInt32) - 0).toNat = 0
    rw [UInt32.sub_self, UInt32.toNat_zero]
  · change size = size - (0 - 0)
    grind
  · intro i b hb
    cases hb

/-- However far `in` and `out` have run: callers see what a queue of `size` bytes would
    show them, and `free_bytes` is what it has left. -/
theorem kfifo_refines_bounded (f : Kfifo) (buffer : Nat → UInt8) (size : UInt32) (k : Nat)
    (hk : 1 ≤ k) (hsize : size.toNat = 2 ^ k) (ops : List KfifoOp) :
    (f.init buffer size).1 = 0 ∧
      let run := answers Kfifo.step (f.init buffer size).2 ops
      let queue := answers (bounded size.toNat) [] (ops.map KfifoOp.queueOp)
      run.1 = queue.1 ∧ (run.2.in_ - run.2.out).toNat = queue.2.length ∧
        run.2.freeBytes = size - (run.2.in_ - run.2.out) := by
  rcases kfifoInit_holds f buffer hk hsize with ⟨hok, hinit⟩
  refine ⟨hok, ?_⟩
  rw [hsize]
  rcases answers_simulates KfifoOp.queueOp (R := KfifoHolds k)
    (fun f q op h => kfifoStep_bounded h op) ops hinit with ⟨hout, hlast⟩
  refine ⟨hout, hlast.used, ?_⟩
  have hsame : (answers Kfifo.step (f.init buffer size).2 ops).2.size = size := by
    rw [← UInt32.toNat_inj, hlast.size, hsize]
  have hfree := hlast.free
  rw [hsame] at hfree
  exact hfree

/-- A message that straddles the end of a buffer of four bytes. -/
def straddlingFifo : List KfifoOp :=
  [.in (fun i => UInt8.ofNat i) 3, .out (fun _ => 0) 2, .in (fun i => UInt8.ofNat (7 + i)) 9,
    .outPeek (fun _ => 0) 3, .outAll (fun _ => 0)]

theorem kfifo_refines_bounded_straddling :
    let f : Kfifo := ⟨0, 0, 0, fun _ => 0, 0, 0⟩
    (answers Kfifo.step (f.init (fun _ => 0) 4).2 straddlingFifo).1 =
      (answers (bounded 4) [] (straddlingFifo.map KfifoOp.queueOp)).1 :=
  (kfifo_refines_bounded _ (fun _ => 0) 4 2 (by omega) rfl straddlingFifo).2.1

end Calls

end Rhino

end Wujian100
