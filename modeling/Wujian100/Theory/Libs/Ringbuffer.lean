import Wujian100.Core.Libs.Ringbuffer
import Mathlib.Tactic.Ring

/-!
# The Ring Buffer Library and Bounded Queues

A buffer of up to `2 ^ 31` bytes is a queue: positions and lengths then have sums
that a `uint32_t` can say. In a longer one `write + writelen` runs over, and the
remainder is taken of what is left of it.

## Main definitions

* `RingbufferHolds`: The buffer holds a list of bytes.
* `RingbufferOp.queueOp`, `unfailing`: A call, as a call on a queue that always answers.
* `Ringbuffer.Refines`: A run that the queue also takes.

## Theorems

* `ringbufferIn_eq`, `ringbufferOut_eq`: What the calls do, whatever the size.
* `step_unfailing`: One call does what the queue does, up to this size.
* `ringbuffer_refines_iff`: And only up to it.
* `ringbuffer_position_lost`: What happens in a longer one.
-/

namespace Wujian100

namespace Libs

/-- The same call on a queue. -/
def RingbufferOp.queueOp : RingbufferOp → BoundedOp UInt8
  | .in datptr len => .put datptr len.toNat
  | .out (some outbuf) len => .get outbuf len.toNat
  | .out none len => .skip len.toNat
  | .reset => .clear

/-- A queue that always answers. -/
def unfailing (cap : Nat) (q : List UInt8) (op : BoundedOp UInt8) :
    Option (BoundedOut UInt8) × List UInt8 :=
  (some (bounded cap q op).1, (bounded cap q op).2)

/-- Callers see what a queue of `size` bytes would show them, `data_len` is the number
    of bytes stored, and `write` is so far behind `read`. -/
def Ringbuffer.Refines (f : Ringbuffer) (ops : List RingbufferOp) : Prop :=
  let run := answers Ringbuffer.step f ops
  let queue := answers (unfailing f.size.toNat) [] (ops.map RingbufferOp.queueOp)
  run.1 = queue.1 ∧ run.2.dataLen.toNat = queue.2.length ∧
    run.2.write.toNat = (run.2.read.toNat + run.2.dataLen.toNat) % run.2.size.toNat

/-- The buffer has `cap` bytes and holds the list from `p` on. -/
structure RingbufferHolds (cap p : Nat) (f : Ringbuffer) (q : List UInt8) : Prop where
  size : f.size.toNat = cap
  read : f.read.toNat = p
  inside : p < cap
  len : f.dataLen.toNat = q.length
  fits : q.length ≤ cap
  write : f.write.toNat = (p + q.length) % cap
  holds : RingHolds cap f.buffer p q

/-! ## Copies -/

section Copies

variable {cap p : Nat} {f : Ringbuffer} {q : List UInt8}

theorem RingbufferHolds.write_lt (h : RingbufferHolds cap p f q) : f.write.toNat < cap := by
  rw [h.write]
  exact Nat.mod_lt _ (by have := h.inside; omega)

theorem RingbufferHolds.toNat_avail (h : RingbufferHolds cap p f q) :
    (f.size - f.dataLen).toNat = cap - q.length := by
  have hle : f.dataLen ≤ f.size := by
    rw [UInt32.le_iff_toNat_le, h.size, h.len]
    exact h.fits
  rw [UInt32.toNat_sub_of_le _ _ hle, h.size, h.len]

/-- What is left of the buffer behind a position. -/
theorem toNat_behind {x : UInt32} (h : RingbufferHolds cap p f q) (hx : x.toNat < cap) :
    (f.size - x).toNat = cap - x.toNat := by
  have hle : x ≤ f.size := by
    rw [UInt32.le_iff_toNat_le, h.size]
    exact hx.le
  rw [UInt32.toNat_sub_of_le _ _ hle, h.size]

theorem copyIn_eq (f : Ringbuffer) (h : f.size.toNat = cap) {d n : UInt32} (src : Nat → UInt8)
    (s : UInt32)
    (hn : d.toNat + n.toNat ≤ cap) :
    f.copyIn d src s n = some { f with buffer := blit f.buffer d.toNat src s.toNat n.toNat } := by
  unfold Ringbuffer.copyIn
  rw [if_pos (by omega)]

theorem copyOut_eq (h : f.size.toNat = cap) {s n : UInt32} (dst : Nat → UInt8) (d : UInt32)
    (hn : s.toNat + n.toNat ≤ cap) :
    f.copyOut dst d s n = some (blit dst d.toNat f.buffer s.toNat n.toNat) := by
  unfold Ringbuffer.copyOut
  rw [if_pos (by omega)]

/-- The copies of `ringbuffer_in` stay inside the buffer and write behind what it
    holds. -/
theorem fill_eq (h : RingbufferHolds cap p f q) (datptr : Nat → UInt8) {n : UInt32}
    (hn : n.toNat ≤ cap - q.length) :
    ∃ buffer, f.fill datptr n = some { f with buffer := buffer } ∧
      RingHolds cap buffer p (q ++ window datptr 0 n.toNat) := by
  have hp := h.inside
  have hfits := h.fits
  have hwrite := h.write
  have hwlt := h.write_lt
  have hroom : q.length + (window datptr 0 n.toNat).length ≤ cap := by
    rw [length_window]
    omega
  -- Bytes written from `write` on are behind the list.
  have hextend : ∀ {buffer : Nat → UInt8}, Blitted cap f.buffer f.write.toNat
      (window datptr 0 n.toNat) buffer → RingHolds cap buffer p (q ++ window datptr 0 n.toNat) := by
    intro buffer hb
    refine h.holds.extend (hb.congr ?_) hroom
    rw [hwrite, Nat.mod_mod]
  have hone : f.write.toNat + n.toNat ≤ cap → ∃ buffer,
      f.copyIn f.write datptr 0 n = some { f with buffer := buffer } ∧
        RingHolds cap buffer p (q ++ window datptr 0 n.toNat) :=
    fun hle => ⟨_, copyIn_eq f h.size datptr 0 hle, hextend (blitted_straight hle)⟩
  unfold Ringbuffer.fill
  dsimp only
  by_cases hwrap : f.write < f.read
  · -- The list runs over the end, and what is free is in one piece before `read`.
    rw [if_pos hwrap]
    rw [UInt32.lt_iff_toNat_lt, h.read, hwrite] at hwrap
    have hover : cap ≤ p + q.length := by
      by_contra hlt
      rw [Nat.mod_eq_of_lt (by omega)] at hwrap
      omega
    rw [Nat.mod_eq_sub_mod hover] at hwrite
    have hmod : (p + q.length - cap) % cap = p + q.length - cap := Nat.mod_eq_of_lt (by omega)
    exact hone (by omega)
  · rw [if_neg hwrap]
    have htmp := toNat_behind h hwlt
    by_cases hfit : n ≤ f.size - f.write
    · rw [if_pos hfit]
      rw [UInt32.le_iff_toNat_le, htmp] at hfit
      exact hone (by omega)
    · rw [if_neg hfit, copyIn_eq f h.size datptr 0 (by omega), Option.bind_eq_bind, Option.bind_some]
      rw [UInt32.not_le, UInt32.lt_iff_toNat_lt, htmp] at hfit
      have hrest : (n - (f.size - f.write)).toNat = n.toNat - (cap - f.write.toNat) := by
        have hle : f.size - f.write ≤ n := by
          rw [UInt32.le_iff_toNat_le, htmp]
          exact hfit.le
        rw [UInt32.toNat_sub_of_le _ _ hle, htmp]
      refine ⟨_, copyIn_eq _ (by exact h.size) datptr _ ?_, ?_⟩
      · rw [hrest, UInt32.toNat_zero]
        omega
      · have hsplit := blitted_split f.buffer datptr 0 hwlt (n := n.toNat) (by omega) (by omega)
        rw [Nat.zero_add] at hsplit
        rw [hrest, htmp]
        exact hextend hsplit

/-- The copies of `ringbuffer_out` stay inside the buffer and take the oldest bytes. -/
theorem spill_eq (h : RingbufferHolds cap p f q) (outbuf : Nat → UInt8) {n : UInt32}
    (hn : n.toNat ≤ q.length) :
    f.spill outbuf n = some (overlay outbuf (q.take n.toNat)) := by
  have hp := h.inside
  have hfits := h.fits
  have htake : (q.take n.toNat).length = n.toNat := by
    rw [List.length_take]
    omega
  have hholds : RingHolds cap f.buffer f.read.toNat (q.take n.toNat) := by
    have hq := h.holds
    rw [← List.take_append_drop n.toNat q, RingHolds.append_iff] at hq
    rw [h.read]
    exact hq.1
  have htmp : (f.size - f.read).toNat = cap - f.read.toNat := toNat_behind h (by rw [h.read]; exact hp)
  have hread := h.read
  unfold Ringbuffer.spill
  dsimp only
  by_cases hfit : n ≤ f.size - f.read
  · rw [if_pos hfit]
    rw [UInt32.le_iff_toNat_le, htmp] at hfit
    have hcopied := copied_straight outbuf hholds (by rw [htake]; omega)
    rw [htake] at hcopied
    rw [copyOut_eq h.size outbuf 0 (by omega), UInt32.toNat_zero, hcopied]
  · rw [if_neg hfit, copyOut_eq h.size outbuf 0 (by omega), Option.bind_eq_bind, Option.bind_some]
    rw [UInt32.not_le, UInt32.lt_iff_toNat_lt, htmp] at hfit
    have hrest : (n - (f.size - f.read)).toNat = n.toNat - (cap - f.read.toNat) := by
      have hle : f.size - f.read ≤ n := by
        rw [UInt32.le_iff_toNat_le, htmp]
        exact hfit.le
      rw [UInt32.toNat_sub_of_le _ _ hle, htmp]
    have hcopied := copied_split outbuf hholds (by omega) (by rw [htake]; omega)
      (by rw [htake]; omega)
    rw [htake] at hcopied
    rw [copyOut_eq h.size _ _ (by rw [hrest, UInt32.toNat_zero]; omega), hrest, htmp,
      UInt32.toNat_zero, hcopied]

end Copies

/-! ## The calls -/

section Calls

variable {cap p : Nat} {f : Ringbuffer} {q : List UInt8}

/-- What `ringbuffer_in` does. -/
theorem ringbufferIn_eq (h : RingbufferHolds cap p f q) (datptr : Nat → UInt8) (len : UInt32) :
    ∃ n buffer, n.toNat = min len.toNat (cap - q.length) ∧
      f.ringbufferIn datptr len = some (n, { f with
        buffer := buffer
        write := (f.write + n) % f.size
        dataLen := f.dataLen + n }) ∧
      RingHolds cap buffer p (q ++ window datptr 0 n.toNat) := by
  have havail := h.toNat_avail
  unfold Ringbuffer.ringbufferIn Ringbuffer.isFull Ringbuffer.avail Ringbuffer.len
  by_cases hfull : f.size - f.dataLen = 0
  · -- A full buffer is left as it is, which is where a write of nothing leads.
    rw [hfull, UInt32.toNat_zero] at havail
    have hwrite : (f.write + 0) % f.size = f.write := by
      rw [UInt32.add_zero, ← UInt32.toNat_inj, UInt32.toNat_mod, h.size]
      exact Nat.mod_eq_of_lt h.write_lt
    refine ⟨0, f.buffer, ?_, ?_, ?_⟩
    · rw [UInt32.toNat_zero]
      omega
    · rw [if_pos (by simp [hfull]), hwrite, UInt32.add_zero]
    · rw [UInt32.toNat_zero, window, List.range_zero, List.map_nil, List.append_nil]
      exact h.holds
  · have hn : (if f.size - f.dataLen > len then len else f.size - f.dataLen).toNat =
        min len.toNat (cap - q.length) := by
      split_ifs with hlen
      · rw [gt_iff_lt, UInt32.lt_iff_toNat_lt, havail] at hlen
        omega
      · rw [gt_iff_lt, UInt32.lt_iff_toNat_lt, havail] at hlen
        omega
    rcases fill_eq h datptr (n := if f.size - f.dataLen > len then len else f.size - f.dataLen)
      (by omega) with ⟨buffer, hfill, hholds⟩
    refine ⟨_, buffer, hn, ?_, hholds⟩
    rw [if_neg (by simp [hfull])]
    dsimp only
    rw [hfill, Option.map_some]

/-- What `ringbuffer_out` does. -/
theorem ringbufferOut_eq (h : RingbufferHolds cap p f q) (outbuf : Option (Nat → UInt8))
    (len : UInt32) :
    ∃ n, n.toNat = min len.toNat q.length ∧
      f.ringbufferOut outbuf len = some ((n, outbuf.map fun dst => overlay dst (q.take n.toNat)),
        { f with read := (f.read + n) % f.size, dataLen := f.dataLen - n }) := by
  unfold Ringbuffer.ringbufferOut Ringbuffer.isEmpty Ringbuffer.len
  by_cases hempty : f.dataLen = 0
  · have hnil : q.length = 0 := by
      rw [← h.len, hempty, UInt32.toNat_zero]
    have hread : (f.read + 0) % f.size = f.read := by
      rw [UInt32.add_zero, ← UInt32.toNat_inj, UInt32.toNat_mod, h.size, h.read]
      exact Nat.mod_eq_of_lt h.inside
    refine ⟨0, ?_, ?_⟩
    · rw [UInt32.toNat_zero]
      omega
    · rw [if_pos (by simp [hempty]), hread, hempty, UInt32.sub_zero]
      cases outbuf with
      | none => rw [Option.map_none, ← hempty]
      | some outbuf =>
          have hsame : overlay outbuf [] = outbuf := rfl
          rw [Option.map_some, UInt32.toNat_zero, List.take_zero, hsame, ← hempty]
  · have hn : (if len > f.dataLen then f.dataLen else len).toNat = min len.toNat q.length := by
      split_ifs with hlen
      · rw [gt_iff_lt, UInt32.lt_iff_toNat_lt, h.len] at hlen
        rw [h.len]
        omega
      · rw [gt_iff_lt, UInt32.lt_iff_toNat_lt, h.len] at hlen
        omega
    refine ⟨_, hn, ?_⟩
    rw [if_neg (by simp [hempty])]
    dsimp only
    cases outbuf with
    | none => rfl
    | some outbuf =>
        dsimp only
        rw [spill_eq h outbuf (by omega), Option.map_some, Option.map_some]

/-- Where the sum can be said, the bytes are stored. -/
theorem RingbufferHolds.put (h : RingbufferHolds cap p f q) {buffer : Nat → UInt8} {n : UInt32}
    {l : List UInt8} (hn : n.toNat = l.length) (hfits : q.length + l.length ≤ cap)
    (hsum : f.write.toNat + n.toNat < 2 ^ 32) (hholds : RingHolds cap buffer p (q ++ l)) :
    RingbufferHolds cap p { f with
      buffer := buffer
      write := (f.write + n) % f.size
      dataLen := f.dataLen + n } (q ++ l) := by
  have hlen := h.len
  have hcap : cap < 2 ^ 32 := by
    rw [← h.size]
    exact f.size.toNat_lt
  refine ⟨h.size, h.read, h.inside, ?_, ?_, ?_, hholds⟩
  · rw [UInt32.toNat_add, hlen, hn, List.length_append]
    exact Nat.mod_eq_of_lt (by omega)
  · rw [List.length_append]
    exact hfits
  · rw [UInt32.toNat_mod, UInt32.toNat_add, Nat.mod_eq_of_lt hsum, h.size, h.write, hn,
      List.length_append, Nat.mod_add_mod, Nat.add_assoc]

theorem RingbufferHolds.get (h : RingbufferHolds cap p f q) {n : UInt32} (hn : n.toNat ≤ q.length)
    (hsum : p + n.toNat < 2 ^ 32) :
    RingbufferHolds cap ((p + n.toNat) % cap) { f with
      read := (f.read + n) % f.size
      dataLen := f.dataLen - n } (q.drop n.toNat) := by
  have hp := h.inside
  have hlen := h.len
  have hfits := h.fits
  have hread : ((f.read + n) % f.size).toNat = (p + n.toNat) % cap := by
    rw [UInt32.toNat_mod, UInt32.toNat_add, h.read, Nat.mod_eq_of_lt hsum, h.size]
  refine ⟨h.size, hread, Nat.mod_lt _ (by omega), ?_, ?_, ?_, ?_⟩
  · have hle : n ≤ f.dataLen := by
      rw [UInt32.le_iff_toNat_le, hlen]
      exact hn
    rw [UInt32.toNat_sub_of_le _ _ hle, hlen, List.length_drop]
  · rw [List.length_drop]
    omega
  · change f.write.toNat = _
    rw [h.write, List.length_drop, Nat.mod_add_mod]
    congr 1
    omega
  · have hq := h.holds
    rw [← List.take_append_drop n.toNat q, RingHolds.append_iff, List.length_take,
      Nat.min_eq_left hn] at hq
    exact hq.2.congr (Nat.mod_mod _ _)

theorem reset_ringbufferHolds (hcap : 0 < cap) (hsize : f.size.toNat = cap) :
    RingbufferHolds cap 0 f.reset [] := by
  refine ⟨hsize, rfl, hcap, rfl, Nat.zero_le _, ?_, ?_⟩
  · exact (Nat.zero_mod cap).symm
  · intro i b hb
    cases hb

/-- One call does what the queue does, as long as its sums can be said. -/
theorem step_unfailing (h : RingbufferHolds cap p f q) (hcap : cap ≤ 2 ^ 31) (op : RingbufferOp) :
    (f.step op).1 = (unfailing cap q op.queueOp).1 ∧
      ∃ p', RingbufferHolds cap p' (f.step op).2 (unfailing cap q op.queueOp).2 := by
  have hp := h.inside
  have hfits := h.fits
  have hwrite := h.write_lt
  cases op with
  | «in» datptr len =>
      rcases ringbufferIn_eq h datptr len with ⟨n, buffer, hn, hin, hholds⟩
      have hput := h.put (by rw [length_window]) (by rw [length_window]; omega) (by omega) hholds
      unfold Ringbuffer.step
      dsimp only
      rw [hin]
      dsimp only
      rw [hn] at hput ⊢
      exact ⟨rfl, p, hput⟩
  | out outbuf len =>
      rcases ringbufferOut_eq h outbuf len with ⟨n, hn, hout⟩
      have hget := h.get (n := n) (by omega) (by omega)
      unfold Ringbuffer.step
      dsimp only
      rw [hout]
      cases outbuf with
      | none =>
          dsimp only [Option.map]
          rw [hn] at hget ⊢
          exact ⟨rfl, _, hget⟩
      | some outbuf =>
          dsimp only [Option.map]
          rw [hn] at hget ⊢
          exact ⟨rfl, _, hget⟩
  | reset => exact ⟨rfl, 0, reset_ringbufferHolds (by omega) h.size⟩

end Calls

/-! ## Runs -/

section Runs

theorem refines_of_le (f : Ringbuffer) (hpos : 0 < f.size) (hsize : f.size.toNat ≤ 2 ^ 31)
    (ops : List RingbufferOp) : f.reset.Refines ops := by
  rw [UInt32.lt_iff_toNat_lt, UInt32.toNat_zero] at hpos
  have hreset : ∃ p, RingbufferHolds f.size.toNat p f.reset [] := ⟨0, reset_ringbufferHolds hpos rfl⟩
  rcases answers_simulates RingbufferOp.queueOp
    (R := fun g q => ∃ p, RingbufferHolds f.size.toNat p g q)
    (fun g q op ⟨p, h⟩ => step_unfailing h hsize op) ops hreset with ⟨hout, p, hlast⟩
  refine ⟨hout, hlast.len, ?_⟩
  rw [hlast.write, hlast.read, hlast.len, hlast.size]

/-- `read` is brought to the last byte, and the buffer is filled from there. -/
def fillFromLast (f : Ringbuffer) : List RingbufferOp :=
  [.in (fun _ => 0) (f.size - 1), .out none (f.size - 1), .in (fun _ => 0) f.size]

/-- In a longer buffer `write` is not where it should be. -/
theorem not_refines_of_lt (f : Ringbuffer) (hsize : 2 ^ 31 < f.size.toNat) :
    ¬f.reset.Refines (fillFromLast f) := by
  have hmax : f.size.toNat < 2 ^ 32 := f.size.toNat_lt
  have hone : (f.size - 1).toNat = f.size.toNat - 1 := by
    have hle : 1 ≤ f.size := by
      rw [UInt32.le_iff_toNat_le, UInt32.toNat_one]
      omega
    rw [UInt32.toNat_sub_of_le _ _ hle, UInt32.toNat_one]
  have h₀ : RingbufferHolds f.size.toNat 0 f.reset [] := reset_ringbufferHolds (by omega) rfl
  rcases ringbufferIn_eq h₀ (fun _ => 0) (f.size - 1) with ⟨n₁, buffer₁, hn₁, hin₁, hholds₁⟩
  rw [List.length_nil, hone, Nat.sub_zero, Nat.min_eq_left (by omega)] at hn₁
  have h₁ := h₀.put (l := window (fun _ => 0) 0 n₁.toNat) (by rw [length_window])
    (by rw [length_window, List.length_nil]; omega) (by change 0 + n₁.toNat < _; omega) hholds₁
  rcases ringbufferOut_eq h₁ none (f.size - 1) with ⟨n₂, hn₂, hout₂⟩
  rw [List.nil_append, length_window, hone, hn₁, Nat.min_self] at hn₂
  have h₂ := h₁.get (n := n₂) (by rw [List.nil_append, length_window]; omega) (by omega)
  have hdrop : (List.drop n₂.toNat ([] ++ window (fun _ => (0 : UInt8)) 0 n₁.toNat)).length = 0 := by
    rw [List.nil_append, List.length_drop, length_window]
    omega
  rcases ringbufferIn_eq h₂ (fun _ => 0) f.size with ⟨n₃, buffer₃, hn₃, hin₃, -⟩
  rw [hdrop, Nat.sub_zero, Nat.min_self] at hn₃
  have hwrite₂ := h₂.write
  have hread₂ := h₂.read
  have hlen₂ := h₂.len
  rw [hdrop] at hwrite₂ hlen₂
  have hlast : (f.size.toNat - 1) % f.size.toNat = f.size.toNat - 1 := Nat.mod_eq_of_lt (by omega)
  rw [Nat.zero_add, hn₂, hlast] at hwrite₂ hread₂
  rw [Nat.add_zero, hlast] at hwrite₂
  rintro ⟨-, -, hpos⟩
  simp only [fillFromLast, answers, Ringbuffer.step, hin₁, hout₂, Option.map_none, hin₃] at hpos
  rw [UInt32.toNat_mod, UInt32.toNat_add, UInt32.toNat_add, hwrite₂, hn₃, hread₂, hlen₂] at hpos
  change _ % f.size.toNat = _ % f.size.toNat at hpos
  -- The sum has lost `2 ^ 32`, and what is left is a position before the right one.
  have hover : (f.size.toNat - 1 + f.size.toNat) % 2 ^ 32 = 2 * f.size.toNat - 1 - 2 ^ 32 := by
    omega
  have hfull : (0 + f.size.toNat) % 2 ^ 32 = f.size.toNat := by
    omega
  rw [hover, hfull, Nat.add_mod_right, hlast, Nat.mod_eq_of_lt (by omega)] at hpos
  omega

/-- A buffer is a queue, whatever is called, exactly when its size is at most
    `2 ^ 31`. -/
theorem ringbuffer_refines_iff (f : Ringbuffer) (hpos : 0 < f.size) :
    (∀ ops, f.reset.Refines ops) ↔ f.size.toNat ≤ 2 ^ 31 := by
  constructor
  · intro h
    by_contra hlt
    exact not_refines_of_lt f (by omega) (h (fillFromLast f))
  · exact refines_of_le f hpos

theorem ringbuffer_refines_iff_eight :
    let f : Ringbuffer := ⟨fun _ => 0, 8, 5, 3, 2⟩
    ∀ ops, f.reset.Refines ops :=
  (ringbuffer_refines_iff _ (by decide)).mpr (by decide)

theorem ringbuffer_position_lost :
    let f : Ringbuffer := ⟨fun _ => 0, 0x80000001, 0, 0, 0⟩
    ¬f.reset.Refines (fillFromLast f) :=
  not_refines_of_lt _ (by decide)

end Runs

end Libs

end Wujian100
