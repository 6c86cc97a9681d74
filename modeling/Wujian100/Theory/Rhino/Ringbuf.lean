import Wujian100.Core.Rhino.Ringbuf

/-!
# The Ring Buffer is a Queue

A ring of variable length keeps its messages one behind the other, each with its
length in front, from `head` on and around the end. `head` and `tail` may both
rest at `end`, where the next copy takes them to `buf`; modulo the length they
are what they should be, and `freesize` tells a full ring from an empty one.

Both copies of `ringbuf_push` split where the free space runs over the end, and
only there: in front of `head` the free space is in one piece. Both copies of
`ringbuf_pop` split where the bytes do.

## Main definitions

* `Stored`: The ring stores a list of bytes.
* `encode`: The bytes of a queue of messages.
* `Queued`: The ring stores a queue of messages.
* `fifo`: The queue a ring of variable length is for.

## Theorems

* `copyIn_stored`: Both copies of a push extend the bytes.
* `copyLen_stored`, `copyData_stored`: Both copies of a pop take from the front.
* `push_queued`, `pop_queued`: One push, one pop.
* `ring_refines_fifo`: Every run does what the queue does.
-/

namespace Wujian100

namespace Rhino

/-! ## The bytes of the ring -/

/-- The ring stores the bytes from `head` on. -/
structure Stored (r : Ringbuf) (l : List UInt8) : Prop where
  head : r.head ≤ r.end_
  tail : r.tail ≤ r.end_
  around : r.tail % r.end_ = (r.head + l.length) % r.end_
  free : r.freesize + l.length = r.end_
  cells : RingHolds r.end_ r.mem r.head l

/-- What no copy changes. -/
structure SameShape (r s : Ringbuf) : Prop where
  end_ : s.end_ = r.end_
  type : s.type = r.type
  blkSize : s.blkSize = r.blkSize

theorem SameShape.trans {r s t : Ringbuf} (h : SameShape r s) (h' : SameShape s t) :
    SameShape r t :=
  ⟨h'.end_.trans h.end_, h'.type.trans h.type, h'.blkSize.trans h.blkSize⟩

/-- A remainder of less than twice the modulus. -/
theorem mod_of_lt_two_mul {a n : Nat} (h : a < 2 * n) :
    a % n = if a < n then a else a - n := by
  by_cases hlt : a < n
  · rw [if_pos hlt, Nat.mod_eq_of_lt hlt]
  · rw [if_neg hlt, Nat.mod_eq_sub_mod (by omega), Nat.mod_eq_of_lt (by omega)]

section Stored

variable {r : Ringbuf} {l l' : List UInt8}

theorem wrapTail_shape (r : Ringbuf) : SameShape r r.wrapTail := by
  unfold Ringbuf.wrapTail
  split_ifs
  · exact ⟨rfl, rfl, rfl⟩
  · exact ⟨rfl, rfl, rfl⟩

theorem wrapHead_shape (r : Ringbuf) : SameShape r r.wrapHead := by
  unfold Ringbuf.wrapHead
  split_ifs
  · exact ⟨rfl, rfl, rfl⟩
  · exact ⟨rfl, rfl, rfl⟩

/-- At `end` or at `buf`, the tail is the same cell. -/
theorem wrapTail_stored (h : Stored r l) (hpos : 0 < r.end_) :
    Stored r.wrapTail l ∧ r.wrapTail.tail < r.end_ := by
  unfold Ringbuf.wrapTail
  by_cases he : r.tail = r.end_
  · rw [if_pos he]
    refine ⟨⟨h.head, Nat.zero_le _, ?_, h.free, h.cells⟩, hpos⟩
    have := h.around
    rw [he, Nat.mod_self] at this
    rw [← this]
    exact Nat.zero_mod _
  · rw [if_neg he]
    have := h.tail
    exact ⟨h, by omega⟩

theorem wrapHead_stored (h : Stored r l) (hpos : 0 < r.end_) :
    Stored r.wrapHead l ∧ r.wrapHead.head < r.end_ := by
  unfold Ringbuf.wrapHead
  by_cases he : r.head = r.end_
  · rw [if_pos he]
    refine ⟨⟨Nat.zero_le _, h.tail, ?_, h.free, h.cells.congr ?_⟩, hpos⟩
    · have := h.around
      rw [he, Nat.add_mod_left] at this
      rw [this, Nat.zero_add]
    · rw [he, Nat.mod_self, Nat.zero_mod]
  · rw [if_neg he]
    have := h.head
    exact ⟨h, by omega⟩

/-- Appending in one piece. -/
theorem append_stored {src : Nat → UInt8} {s n : Nat} (h : Stored r l)
    (hn : r.tail + n ≤ r.end_) (hfit : l.length + n ≤ r.end_) :
    Stored (r.append src s n) (l ++ window src s n) := by
  have hfree := h.free
  refine ⟨h.head, hn, ?_, ?_, ?_⟩
  · rw [List.length_append, length_window, ← Nat.add_assoc]
    exact Nat.ModEq.add_right n h.around
  · rw [List.length_append, length_window]
    change r.freesize - n + _ = r.end_
    omega
  · refine h.cells.extend ?_ (by rw [length_window]; exact hfit)
    exact (blitted_straight hn).congr h.around.symm

theorem copyIn_shape (r : Ringbuf) (src : Nat → UInt8) (n : Nat) :
    SameShape r (r.copyIn src n) := by
  unfold Ringbuf.copyIn
  dsimp only
  split_ifs
  · exact (wrapTail_shape r).trans ⟨rfl, rfl, rfl⟩
  · exact (wrapTail_shape r).trans ⟨rfl, rfl, rfl⟩

/-- Both copies of a push extend the bytes. -/
theorem copyIn_stored (src : Nat → UInt8) {n : Nat} (h : Stored r l) (hn : 0 < n)
    (hfit : l.length + n ≤ r.end_) : Stored (r.copyIn src n) (l ++ window src 0 n) := by
  have hshape := wrapTail_shape r
  rcases wrapTail_stored h (by omega) with ⟨hw, hlt⟩
  unfold Ringbuf.copyIn
  dsimp only
  generalize r.wrapTail = w at hshape hw hlt
  rw [← hshape.end_] at hfit hlt
  have hfree := hw.free
  have hhead := hw.head
  have haround := hw.around
  rw [Nat.mod_eq_of_lt hlt, mod_of_lt_two_mul (by omega)] at haround
  by_cases hsplit : w.tail ≥ w.head ∧ w.end_ - w.tail < n ∧ w.end_ - w.tail > 0
  · rw [if_pos hsplit]
    refine ⟨hhead, ?_, ?_, ?_, ?_⟩
    · change 0 + (n - (w.end_ - w.tail)) ≤ w.end_
      omega
    · rw [List.length_append, length_window]
      change (0 + (n - (w.end_ - w.tail))) % w.end_ = (w.head + (l.length + n)) % w.end_
      rw [← Nat.add_assoc w.head, Nat.add_mod (w.head + l.length), ← hw.around, ← Nat.add_mod,
        show w.tail + n = 0 + (n - (w.end_ - w.tail)) + w.end_ by omega, Nat.add_mod_right]
    · rw [List.length_append, length_window]
      change w.freesize - (w.end_ - w.tail) - (n - (w.end_ - w.tail)) + _ = w.end_
      omega
    · refine hw.cells.extend ?_ (by rw [length_window]; exact hfit)
      have hb := (blitted_split w.mem src 0 hlt hsplit.2.1 (by omega)).congr hw.around.symm
      rw [Nat.zero_add] at hb
      exact hb
  · rw [if_neg hsplit]
    -- In front of `head` the free bytes are in one piece.
    refine append_stored hw ?_ hfit
    by_cases hge : w.tail ≥ w.head
    · omega
    · by_cases hover : w.head + l.length < w.end_
      · rw [if_pos hover] at haround
        omega
      · rw [if_neg hover] at haround
        omega

/-- Taking from the front in one piece. -/
theorem take_stored {dst : Nat → UInt8} {d n : Nat} (h : Stored r (l ++ l')) (hl : l.length = n)
    (hn : r.head + n ≤ r.end_) :
    Stored (r.take dst d n).ring l' ∧ window (r.take dst d n).dst d n = l := by
  rcases RingHolds.append_iff.mp h.cells with ⟨hc, hc'⟩
  have hfree := h.free
  have haround := h.around
  rw [List.length_append] at hfree haround
  subst hl
  refine ⟨⟨hn, h.tail, ?_, ?_, hc'⟩, window_straight hc hn⟩
  · change r.tail % r.end_ = (r.head + l.length + l'.length) % r.end_
    rw [haround, Nat.add_assoc]
  · change r.freesize + l.length + l'.length = r.end_
    omega

/-- Taking from the front in two pieces. -/
theorem take_take_stored {dst : Nat → UInt8} {n k : Nat} (h : Stored r (l ++ l'))
    (hl : l.length = n) (hlt : r.head < r.end_) (hk : r.end_ - r.head = k) (hn : k < n) :
    let c := r.take dst 0 k
    let c' := { c.ring with head := 0 }.take c.dst k (n - k)
    Stored c'.ring l' ∧ window c'.dst 0 n = l := by
  rcases RingHolds.append_iff.mp h.cells with ⟨hc, hc'⟩
  have hfree := h.free
  have haround := h.around
  rw [List.length_append] at hfree haround
  have hlen : l.length ≤ r.end_ := by omega
  subst hl hk
  dsimp only
  refine ⟨⟨?_, h.tail, ?_, ?_, hc'.congr ?_⟩, ?_⟩
  · change 0 + (l.length - (r.end_ - r.head)) ≤ r.end_
    omega
  · change r.tail % r.end_ = (0 + (l.length - (r.end_ - r.head)) + l'.length) % r.end_
    rw [haround, show r.head + (l.length + l'.length)
        = 0 + (l.length - (r.end_ - r.head)) + l'.length + r.end_ by omega, Nat.add_mod_right]
  · change r.freesize + (r.end_ - r.head) + (l.length - (r.end_ - r.head)) + l'.length = r.end_
    omega
  · change (0 + (l.length - (r.end_ - r.head))) % r.end_ = _
    rw [show r.head + l.length = 0 + (l.length - (r.end_ - r.head)) + r.end_ by omega,
      Nat.add_mod_right]
  · have hs := window_split dst 0 hc hlt hlen hn
    rw [Nat.zero_add] at hs
    exact hs

theorem copyLen_stored {n : Nat} (h : Stored r (l ++ l')) (hl : l.length = n)
    (hlt : r.head < r.end_) :
    Stored (r.copyLen n).ring l' ∧ window (r.copyLen n).dst 0 n = l := by
  unfold Ringbuf.copyLen
  dsimp only
  by_cases hsplit : r.end_ - r.head < n ∧ r.end_ - r.head > 0
  · rw [if_pos hsplit]
    exact take_take_stored h hl hlt rfl hsplit.1
  · rw [if_neg hsplit]
    exact take_stored h hl (by omega)

/-- With a byte free, data that runs over the end leaves `tail` behind `head`. -/
theorem copyData_stored (pdata : Nat → UInt8) {n : Nat} (h : Stored r (l ++ l'))
    (hl : l.length = n) (hlt : r.head < r.end_) (hroom : 0 < r.freesize) :
    Stored (r.copyData pdata n).ring l' ∧ window (r.copyData pdata n).dst 0 n = l := by
  have hfree := h.free
  have haround := h.around
  have htail := h.tail
  rw [List.length_append] at hfree haround
  unfold Ringbuf.copyData
  dsimp only
  by_cases hover : r.end_ - r.head < n
  · have hbehind : r.tail < r.head := by
      by_cases he : r.tail = r.end_
      · rw [he, Nat.mod_self, mod_of_lt_two_mul (by omega), if_neg (by omega)] at haround
        omega
      · rw [Nat.mod_eq_of_lt (by omega), mod_of_lt_two_mul (by omega), if_neg (by omega)]
          at haround
        omega
    rw [if_pos ⟨hbehind, hover⟩]
    exact take_take_stored h hl hlt rfl hover
  · rw [if_neg (by omega)]
    exact take_stored h hl (by omega)

theorem copyLen_shape (r : Ringbuf) (n : Nat) : SameShape r (r.copyLen n).ring := by
  unfold Ringbuf.copyLen
  dsimp only
  split_ifs
  · exact ⟨rfl, rfl, rfl⟩
  · exact ⟨rfl, rfl, rfl⟩

theorem copyData_shape (r : Ringbuf) (pdata : Nat → UInt8) (n : Nat) :
    SameShape r (r.copyData pdata n).ring := by
  unfold Ringbuf.copyData
  dsimp only
  split_ifs
  · exact ⟨rfl, rfl, rfl⟩
  · exact ⟨rfl, rfl, rfl⟩

/-- Behind the message the receiver's memory is left alone. -/
theorem copyData_frame {pdata : Nat → UInt8} {n i : Nat} (hi : n ≤ i) :
    (r.copyData pdata n).dst i = pdata i := by
  unfold Ringbuf.copyData
  dsimp only
  split_ifs with hsplit
  · exact (blit_of_not (by omega)).trans (blit_of_not (by omega))
  · exact blit_of_not (by omega)

end Stored

/-! ## The length in front of a message -/

/-- The bytes in front of a message of that length. -/
def header (len : Nat) : List UInt8 :=
  window (headlenCompress len).2 0 (compressLen len)

theorem length_header (len : Nat) : (header len).length = compressLen len :=
  length_window _ _ _

theorem compressLen_pos (len : Nat) : 0 < compressLen len := by
  unfold compressLen
  split_ifs <;> decide

theorem compressLen_le {len : Nat} (h : len ≤ len3BytesMax) : compressLen len ≤ 3 := by
  unfold compressLen
  split_ifs <;> decide

-- The marks are the top two bits of a byte, so these are read off all its values.
theorem lenBytesOf_one : ∀ n, n < 128 → lenBytesOf (UInt8.ofNat n) = 1 := by decide

theorem lenBytesOf_two : ∀ n, n < 64 → lenBytesOf (0x80 ||| UInt8.ofNat n) = 2 := by decide

theorem lenBytesOf_three : ∀ n, n < 64 → lenBytesOf (0xC0 ||| UInt8.ofNat n) = 3 := by decide

theorem mark_one : ∀ n, n < 128 → 0x7f &&& UInt8.ofNat n = UInt8.ofNat n := by decide

theorem unmark_two : ∀ n, n < 64 → (0x80 ||| UInt8.ofNat n) &&& 0x3f = UInt8.ofNat n := by decide

theorem unmark_three : ∀ n, n < 64 → (0xC0 ||| UInt8.ofNat n) &&& 0x3f = UInt8.ofNat n := by decide

theorem toNat_beByte (len i : Nat) : (beByte len i).toNat = len / 256 ^ (3 - i) % 256 := by
  unfold beByte
  rw [UInt8.toNat_ofNat']

/-- What is read back from a header: how long it is, and the length. -/
theorem header_decoded {len : Nat} (h : len ≤ len3BytesMax) {f : Nat → UInt8}
    (hf : window f 0 (compressLen len) = header len) :
    lenBytesOf (f 0) = compressLen len ∧ headlenDecompress (compressLen len) f = len := by
  have hbyte : ∀ i, i < compressLen len → f i = (headlenCompress len).2 i := by
    intro i hi
    have hget := congrArg (fun l => l[i]?) hf
    simp only [header, window, List.getElem?_map, List.getElem?_range hi, Option.map_some,
      Nat.zero_add, Option.some.injEq] at hget
    exact hget
  unfold headlenDecompress
  unfold headlenCompress at hbyte
  dsimp only at hbyte
  unfold len3BytesMax at h
  -- One case for each length of the header, as in the source.
  by_cases h1 : len ≤ 0x7f
  · have hc : compressLen len = 1 := if_pos h1
    have h0 := hbyte 0 (by omega)
    rw [hc] at h0
    simp only [if_true] at h0
    have hb : beByte len 3 = UInt8.ofNat len := by simp [beByte]
    rw [hb, mark_one len (by omega)] at h0
    rw [hc]
    refine ⟨by rw [h0]; exact lenBytesOf_one len (by omega), ?_⟩
    simp only [List.range_one, List.foldl_cons, List.foldl_nil, h0]
    simp
    omega
  · by_cases h2 : len ≤ 0x3fff
    · have hc : compressLen len = 2 := by
        unfold compressLen len1ByteMax len2BytesMax
        rw [if_neg h1, if_pos h2]
      have h0 := hbyte 0 (by omega)
      have h1' := hbyte 1 (by omega)
      rw [hc] at h0 h1'
      simp at h0 h1'
      have hb : beByte len 2 = UInt8.ofNat (len / 256) := by simp [beByte]
      rw [hb] at h0
      rw [hc]
      refine ⟨by rw [h0]; exact lenBytesOf_two _ (by omega), ?_⟩
      rw [show List.range 2 = [0, 1] from rfl]
      simp only [List.foldl_cons, List.foldl_nil, h0, h1']
      simp [unmark_two _ (show len / 256 < 64 by omega), toNat_beByte]
      omega
    · have hc : compressLen len = 3 := by
        unfold compressLen len1ByteMax len2BytesMax len3BytesMax
        rw [if_neg h1, if_neg h2, if_pos h]
      have h0 := hbyte 0 (by omega)
      have h1' := hbyte 1 (by omega)
      have h2' := hbyte 2 (by omega)
      rw [hc] at h0 h1' h2'
      simp at h0 h1' h2'
      have hb : beByte len 1 = UInt8.ofNat (len / 65536) := by simp [beByte]
      rw [hb] at h0
      rw [hc]
      refine ⟨by rw [h0]; exact lenBytesOf_three _ (by omega), ?_⟩
      rw [show List.range 3 = [0, 1, 2] from rfl]
      simp only [List.foldl_cons, List.foldl_nil, h0, h1', h2']
      simp [unmark_three _ (show len / 65536 < 64 by omega), toNat_beByte]
      omega

/-! ## Messages -/

/-- The bytes of a queue of messages. -/
def encode (q : List (List UInt8)) : List UInt8 :=
  q.flatMap fun m => header m.length ++ m

/-- A length a message may have. -/
def ValidLen (len : Nat) : Prop :=
  1 ≤ len ∧ len ≤ len3BytesMax

/-- The ring is of variable length and stores the messages. -/
structure Queued (r : Ringbuf) (q : List (List UInt8)) : Prop where
  type : r.type = .dyn
  stored : Stored r (encode q)
  valid : ∀ m ∈ q, ValidLen m.length

theorem encode_snoc (q : List (List UInt8)) (m : List UInt8) :
    encode (q ++ [m]) = encode q ++ header m.length ++ m := by
  simp [encode, List.append_assoc]

theorem encode_cons (m : List UInt8) (q : List (List UInt8)) :
    encode (m :: q) = header m.length ++ (m ++ encode q) := by
  simp [encode, List.append_assoc]

section Queued

variable {r : Ringbuf} {q : List (List UInt8)}

theorem not_full_of_room (htype : r.type = .dyn) (h : 2 ≤ r.freesize) : r.isFull = false := by
  unfold Ringbuf.isFull
  rw [htype]
  simp
  omega

/-- A push appends the message if it and its length fit, and does nothing
    otherwise. -/
theorem push_queued (h : Queued r q) (data : Nat → UInt8) {len : Nat} (hlen : ValidLen len) :
    if compressLen len + len ≤ r.freesize then
      (r.push data len).1 = .success ∧
        Queued (r.push data len).2 (q ++ [window data 0 len]) ∧
        SameShape r (r.push data len).2
    else r.push data len = (.ringbufFull, r) := by
  have hpos := compressLen_pos len
  have hle := compressLen_le hlen.2
  have hfree := h.stored.free
  have hone := hlen.1
  unfold Ringbuf.push
  by_cases hfit : compressLen len + len ≤ r.freesize
  · have hfull := not_full_of_room h.type (show 2 ≤ r.freesize by omega)
    rw [if_pos hfit, hfull, if_neg (by simp), h.type]
    dsimp only [headlenCompress]
    rw [if_neg (by omega), if_neg (by omega)]
    have hc := copyIn_stored (headlenCompress len).2 h.stored hpos (by omega)
    have hshape := copyIn_shape r (headlenCompress len).2 (compressLen len)
    have hd := copyIn_stored data hc hlen.1 (by
      rw [List.length_append, length_window, hshape.end_]
      omega)
    have hshape' := hshape.trans (copyIn_shape _ data len)
    refine ⟨rfl, ⟨hshape'.type.trans h.type, ?_, ?_⟩, hshape'⟩
    · rw [encode_snoc, length_window]
      exact hd
    · intro m hm
      rcases List.mem_append.mp hm with hm | hm
      · exact h.valid m hm
      · rw [List.mem_singleton.mp hm, length_window]
        exact hlen
  · rw [if_neg hfit]
    by_cases hfull : r.isFull = true
    · rw [if_pos hfull]
    · rw [if_neg hfull, h.type]
      dsimp only [headlenCompress]
      rw [if_neg (by omega), if_pos (by omega)]

theorem isEmpty_iff (h : Queued r q) : r.isEmpty = true ↔ q = [] := by
  have hfree := h.stored.free
  unfold Ringbuf.isEmpty
  rw [beq_iff_eq]
  cases q with
  | nil => simpa [encode] using hfree
  | cons m q =>
      have hpos := compressLen_pos m.length
      rw [encode_cons, List.length_append, length_header] at hfree
      constructor
      · intro he
        omega
      · intro hnil
        exact absurd hnil (by simp)

theorem pop_nil (h : Queued r []) (pdata : Nat → UInt8) (plen : Nat) :
    r.pop pdata plen = ⟨.ringbufEmpty, r, pdata, plen⟩ := by
  unfold Ringbuf.pop
  rw [if_pos ((isEmpty_iff h).mpr rfl)]

/-- A pop takes the oldest message, and leaves what is behind it in the memory of
    the receiver. -/
theorem pop_queued {m : List UInt8} (h : Queued r (m :: q)) (pdata : Nat → UInt8) (plen : Nat) :
    (r.pop pdata plen).stat = .success ∧ (r.pop pdata plen).plen = m.length ∧
      window (r.pop pdata plen).pdata 0 m.length = m ∧
      (∀ i, m.length ≤ i → (r.pop pdata plen).pdata i = pdata i) ∧
      Queued (r.pop pdata plen).ring q ∧ SameShape r (r.pop pdata plen).ring := by
  have hvalid := h.valid m List.mem_cons_self
  have hpos := compressLen_pos m.length
  have hne : r.isEmpty ≠ true := by
    intro he
    exact absurd ((isEmpty_iff h).mp he) (by simp)
  have hstored := h.stored
  rw [encode_cons] at hstored
  have hfree := hstored.free
  rw [List.length_append, length_header] at hfree
  rcases wrapHead_stored hstored (by omega) with ⟨hw, hlt⟩
  have hshape := wrapHead_shape r
  unfold Ringbuf.pop
  rw [if_neg hne, h.type]
  dsimp only
  generalize r.wrapHead = w at hw hlt hshape
  rw [← hshape.end_] at hlt
  rcases copyLen_stored hw (length_header _) hlt with ⟨hlenStored, hwin⟩
  rcases header_decoded hvalid.2 hwin with ⟨_, hdec⟩
  -- The byte at `head` is the first of the header.
  have hfirst : lenBytesOf (w.mem w.head) = compressLen m.length := by
    rcases RingHolds.append_iff.mp hw.cells with ⟨hcells, _⟩
    have hread := hcells.eq_of_window (f := fun i => w.mem ((w.head + i) % w.end_)) (e := 0)
      (fun i _ => by rw [Nat.zero_add])
    rw [length_header] at hread
    have h0 := (header_decoded hvalid.2 hread).1
    rwa [Nat.add_zero, Nat.mod_eq_of_lt hlt] at h0
  rw [hfirst, if_neg (by omega)]
  have hshape1 := hshape.trans (copyLen_shape w (compressLen m.length))
  have hfree1 := hlenStored.free
  have hshape2 := hshape1.trans (wrapHead_shape _)
  rcases wrapHead_stored hlenStored (by rw [hshape1.end_]; omega) with ⟨hd, hdlt⟩
  rw [(hshape1.end_).trans hshape2.end_.symm] at hdlt
  rw [hdec]
  have hroom : 0 < (w.copyLen (compressLen m.length)).ring.wrapHead.freesize := by
    have hf := hd.free
    rw [hshape2.end_] at hf
    omega
  rcases copyData_stored pdata hd rfl hdlt hroom with ⟨hq, hdata⟩
  have hshape3 := hshape2.trans (copyData_shape _ pdata m.length)
  refine ⟨rfl, rfl, hdata, fun i hi => copyData_frame hi, ⟨?_, hq, ?_⟩, hshape3⟩
  · exact hshape3.type.trans h.type
  · intro m' hm'
    exact h.valid m' (List.mem_cons_of_mem _ hm')

theorem reset_queued (h : Queued r q) : Queued r.reset [] := by
  refine ⟨h.type, ⟨Nat.zero_le _, Nat.zero_le _, rfl, rfl, ?_⟩, ?_⟩
  · intro i b hb
    exact absurd hb (by simp [encode])
  · intro m hm
    exact absurd hm (by simp)

end Queued

/-! ## Messages of one length -/

/-- The ring is of fixed length and stores the messages: blocks of it, none
    across the end. -/
structure Blocks (r : Ringbuf) (q : List (List UInt8)) : Prop where
  type : r.type = .fix
  pos : 0 < r.blkSize
  dvdEnd : r.blkSize ∣ r.end_
  dvdHead : r.blkSize ∣ r.head
  dvdTail : r.blkSize ∣ r.tail
  stored : Stored r q.flatten
  sizes : ∀ m ∈ q, m.length = r.blkSize

section Blocks

variable {r : Ringbuf} {q : List (List UInt8)}

/-- In front of the end there is room for a whole block. -/
theorem block_le {b i n : Nat} (hi : b ∣ i) (hn : b ∣ n) (h : i < n) : i + b ≤ n := by
  rcases hi with ⟨j, rfl⟩
  rcases hn with ⟨k, rfl⟩
  have hjk : j + 1 ≤ k := Nat.lt_of_mul_lt_mul_left h
  calc b * j + b = b * (j + 1) := by rw [Nat.mul_add, Nat.mul_one]
    _ ≤ b * k := Nat.mul_le_mul_left b hjk

theorem Blocks.wrapTail_dvd (h : Blocks r q) : r.blkSize ∣ r.wrapTail.tail := by
  unfold Ringbuf.wrapTail
  split_ifs
  · exact Nat.dvd_zero _
  · exact h.dvdTail

theorem Blocks.wrapHead_dvd (h : Blocks r q) : r.blkSize ∣ r.wrapHead.head := by
  unfold Ringbuf.wrapHead
  split_ifs
  · exact Nat.dvd_zero _
  · exact h.dvdHead

theorem wrapTail_head (r : Ringbuf) : r.wrapTail.head = r.head := by
  unfold Ringbuf.wrapTail
  split_ifs
  · rfl
  · rfl

theorem wrapHead_tail (r : Ringbuf) : r.wrapHead.tail = r.tail := by
  unfold Ringbuf.wrapHead
  split_ifs
  · rfl
  · rfl

/-- A push of a whole block, where there is room. -/
theorem push_blocks (h : Blocks r q) {data : Nat → UInt8} {len : Nat} (hlen : len = r.blkSize)
    (hroom : r.isFull = false) :
    (r.push data len).1 = .success ∧ Blocks (r.push data len).2 (q ++ [window data 0 len]) ∧
      SameShape r (r.push data len).2 := by
  have hfree := h.stored.free
  have hpos := h.pos
  have hfit : r.blkSize ≤ r.freesize := by
    unfold Ringbuf.isFull at hroom
    rw [h.type] at hroom
    simpa using hroom
  have hdvd := h.wrapTail_dvd
  have hhead := wrapTail_head r
  have hshape := wrapTail_shape r
  -- After the wrap there is room for a whole block before the end.
  rcases wrapTail_stored h.stored (by omega) with ⟨hw, hlt⟩
  unfold Ringbuf.push
  rw [hroom, if_neg (by simp), h.type]
  dsimp only
  generalize r.wrapTail = w at hdvd hhead hshape hw hlt
  have hle : w.tail + r.blkSize ≤ r.end_ := block_le hdvd h.dvdEnd hlt
  refine ⟨rfl, ⟨hshape.type.trans h.type, ?_, ?_, ?_, ?_, ?_, ?_⟩, ?_⟩
  · exact (show w.blkSize = _ from hshape.blkSize) ▸ h.pos
  · exact (show w.end_ = _ from hshape.end_) ▸ hshape.blkSize ▸ h.dvdEnd
  · change w.blkSize ∣ w.head
    rw [hhead, hshape.blkSize]
    exact h.dvdHead
  · change w.blkSize ∣ w.tail + r.blkSize
    rw [hshape.blkSize]
    exact Nat.dvd_add hdvd (Nat.dvd_refl _)
  · rw [List.flatten_concat, hlen]
    exact append_stored hw (by rw [hshape.end_]; exact hle) (by rw [hshape.end_]; omega)
  · intro m hm
    change m.length = w.blkSize
    rw [hshape.blkSize]
    rcases List.mem_append.mp hm with hm | hm
    · exact h.sizes m hm
    · rw [List.mem_singleton.mp hm, length_window, hlen]
  · exact ⟨hshape.end_, hshape.type, hshape.blkSize⟩

theorem push_full {data : Nat → UInt8} {len : Nat} (h : r.isFull = true) :
    r.push data len = (.ringbufFull, r) := by
  unfold Ringbuf.push
  rw [if_pos h]

theorem Blocks.isEmpty_iff (h : Blocks r q) : r.isEmpty = true ↔ q = [] := by
  have hfree := h.stored.free
  unfold Ringbuf.isEmpty
  rw [beq_iff_eq]
  cases q with
  | nil => simpa using hfree
  | cons m q =>
      have hsize := h.sizes m List.mem_cons_self
      have hpos := h.pos
      rw [List.flatten_cons, List.length_append] at hfree
      constructor
      · intro he
        omega
      · intro hnil
        exact absurd hnil (by simp)

/-- A pop takes the oldest block. -/
theorem pop_blocks {m : List UInt8} (h : Blocks r (m :: q)) (pdata : Nat → UInt8) (plen : Nat) :
    (r.pop pdata plen).stat = .success ∧
      window (r.pop pdata plen).pdata 0 (r.pop pdata plen).plen = m ∧
      Blocks (r.pop pdata plen).ring q ∧ SameShape r (r.pop pdata plen).ring := by
  have hne : r.isEmpty ≠ true := by
    intro he
    exact absurd (h.isEmpty_iff.mp he) (by simp)
  have hsize := h.sizes m List.mem_cons_self
  have hpos := h.pos
  have hstored := h.stored
  rw [List.flatten_cons] at hstored
  have hfree := hstored.free
  rw [List.length_append] at hfree
  have hdvd := h.wrapHead_dvd
  have htail := wrapHead_tail r
  have hshape := wrapHead_shape r
  -- After the wrap a whole block lies before the end, since all blocks have one size.
  rcases wrapHead_stored hstored (by omega) with ⟨hw, hlt⟩
  unfold Ringbuf.pop
  rw [if_neg hne, h.type]
  dsimp only
  generalize r.wrapHead = w at hdvd htail hshape hw hlt
  have hle : w.head + r.blkSize ≤ r.end_ := block_le hdvd h.dvdEnd hlt
  rcases @take_stored w m q.flatten pdata 0 r.blkSize hw hsize (by rw [hshape.end_]; exact hle)
    with ⟨hq, hm⟩
  refine ⟨rfl, hm, ⟨hshape.type.trans h.type, ?_, ?_, ?_, ?_, hq, ?_⟩, ?_⟩
  · exact (show w.blkSize = _ from hshape.blkSize) ▸ h.pos
  · exact (show w.end_ = _ from hshape.end_) ▸ hshape.blkSize ▸ h.dvdEnd
  · change w.blkSize ∣ w.head + r.blkSize
    rw [hshape.blkSize]
    exact Nat.dvd_add hdvd (Nat.dvd_refl _)
  · change w.blkSize ∣ w.tail
    rw [htail, hshape.blkSize]
    exact h.dvdTail
  · intro m' hm'
    change m'.length = w.blkSize
    rw [hshape.blkSize]
    exact h.sizes m' (List.mem_cons_of_mem _ hm')
  · exact ⟨hshape.end_, hshape.type, hshape.blkSize⟩

end Blocks

/-! ## Either kind of ring -/

/-- The ring stores the messages, each in its own way. -/
def Holds (r : Ringbuf) (q : List (List UInt8)) : Prop :=
  Queued r q ∨ Blocks r q

section Holds

variable {r : Ringbuf} {q : List (List UInt8)}

/-- A push that fails leaves the ring as it was, and one that succeeds appends the
    message, in a ring of fixed length if the message fills a block. -/
theorem push_holds (h : Holds r q) {data : Nat → UInt8} {len : Nat} (hpos : 1 ≤ len)
    (hfits : r.type = .fix → r.isFull = false → len = r.blkSize) :
    ((r.push data len).1 = .success ∧ Holds (r.push data len).2 (q ++ [window data 0 len]) ∧
      SameShape r (r.push data len).2) ∨ (r.push data len).1 ≠ .success := by
  rcases h with h | h
  · by_cases hlen : len ≤ len3BytesMax
    · have hpush := push_queued h data ⟨hpos, hlen⟩
      by_cases hfit : compressLen len + len ≤ r.freesize
      · rw [if_pos hfit] at hpush
        exact .inl ⟨hpush.1, .inl hpush.2.1, hpush.2.2⟩
      · rw [if_neg hfit] at hpush
        rw [hpush]
        exact .inr (by simp)
    · -- No header says a length of more than three bytes.
      refine .inr ?_
      have hbytes : compressLen len = 5 := by
        unfold compressLen
        unfold len3BytesMax at hlen
        rw [if_neg (by unfold len1ByteMax; omega), if_neg (by unfold len2BytesMax; omega),
          if_neg (by unfold len3BytesMax; omega)]
      unfold Ringbuf.push
      split_ifs
      · simp
      · rw [h.type]
        dsimp only [headlenCompress]
        rw [hbytes, if_pos (by decide)]
        simp
  · by_cases hfull : r.isFull = true
    · rw [push_full hfull]
      exact .inr (by simp)
    · rw [Bool.not_eq_true] at hfull
      rcases push_blocks h (hfits h.type hfull) hfull with ⟨hs, hq, hshape⟩
      exact .inl ⟨hs, .inr hq, hshape⟩

theorem Holds.isEmpty_iff (h : Holds r q) : r.isEmpty = true ↔ q = [] := by
  rcases h with h | h
  · exact Rhino.isEmpty_iff h
  · exact h.isEmpty_iff

/-- A pop takes the oldest message, and says how long it is. -/
theorem pop_holds {m : List UInt8} (h : Holds r (m :: q)) (pdata : Nat → UInt8) (plen : Nat) :
    window (r.pop pdata plen).pdata 0 (r.pop pdata plen).plen = m ∧
      Holds (r.pop pdata plen).ring q ∧ SameShape r (r.pop pdata plen).ring := by
  rcases h with h | h
  · rcases pop_queued h pdata plen with ⟨_, hlen, hm, _, hq, hshape⟩
    rw [hlen]
    exact ⟨hm, .inl hq, hshape⟩
  · rcases pop_blocks h pdata plen with ⟨_, hm, hq, hshape⟩
    exact ⟨hm, .inr hq, hshape⟩

theorem reset_holds (h : Holds r q) : Holds r.reset [] := by
  rcases h with h | h
  · exact .inl (reset_queued h)
  · refine .inr ⟨h.type, h.pos, h.dvdEnd, Nat.dvd_zero _, Nat.dvd_zero _, ?_, ?_⟩
    · refine ⟨Nat.zero_le _, Nat.zero_le _, rfl, rfl, ?_⟩
      intro i b hb
      exact absurd hb (by simp)
    · intro m hm
      exact absurd hm (by simp)

end Holds

/-! ## Runs -/

/-- A call on the ring. -/
inductive RingOp where
  | push (data : Nat → UInt8) (len : Nat)
  | pop (pdata : Nat → UInt8) (plen : Nat)
  | reset

/-- What the caller sees: for a pop also the message it finds in its memory. -/
inductive RingOut where
  | pushed (stat : Kstat)
  | popped (stat : Kstat) (message : List UInt8)
  | reset

/-- The lengths messages have. -/
def RingOp.Valid : RingOp → Prop
  | .push _ len => ValidLen len
  | _ => True

/-- One call. -/
def Ringbuf.step (r : Ringbuf) : RingOp → RingOut × Ringbuf
  | .push data len => (.pushed (r.push data len).1, (r.push data len).2)
  | .pop pdata plen =>
      let p := r.pop pdata plen
      (.popped p.stat (if p.stat = .success then window p.pdata 0 p.plen else []), p.ring)
  | .reset => (.reset, r.reset)

/-- The bytes a queue takes: each message, and the length in front of it. -/
def bytes (q : List (List UInt8)) : Nat :=
  (q.map fun m => compressLen m.length + m.length).sum

/-- The same call on a queue of messages with room for `cap` bytes. -/
def fifo (cap : Nat) (q : List (List UInt8)) : RingOp → RingOut × List (List UInt8)
  | .push data len =>
      if compressLen len + len ≤ cap - bytes q ∧ 2 ≤ cap - bytes q then
        (.pushed .success, q ++ [window data 0 len])
      else (.pushed .ringbufFull, q)
  | .pop _ _ =>
      match q with
      | [] => (.popped .ringbufEmpty [], [])
      | m :: q => (.popped .success m, q)
  | .reset => (.reset, [])

/-- Several calls. -/
def runOps {σ : Type} (step : σ → RingOp → RingOut × σ) (s : σ) : List RingOp → List RingOut × σ
  | [] => ([], s)
  | op :: ops =>
      let o := step s op
      let rest := runOps step o.2 ops
      (o.1 :: rest.1, rest.2)

theorem length_encode (q : List (List UInt8)) : (encode q).length = bytes q := by
  unfold encode bytes
  induction q with
  | nil => rfl
  | cons m q ih =>
      rw [List.flatMap_cons, List.length_append, ih, List.length_append, length_header,
        List.map_cons, List.sum_cons]

theorem bytes_le {r : Ringbuf} {q : List (List UInt8)} (h : Queued r q) :
    r.freesize + bytes q = r.end_ := by
  rw [← length_encode]
  exact h.stored.free

/-- One call does what the queue does. -/
theorem step_fifo {r : Ringbuf} {q : List (List UInt8)} (h : Queued r q) {op : RingOp}
    (hop : op.Valid) :
    (r.step op).1 = (fifo r.end_ q op).1 ∧ Queued (r.step op).2 (fifo r.end_ q op).2 ∧
      (r.step op).2.end_ = r.end_ := by
  have hfree : r.freesize = r.end_ - bytes q := by
    have := bytes_le h
    omega
  cases op with
  | push data len =>
      have hpush := push_queued h data hop
      have hpos := compressLen_pos len
      have hone : 1 ≤ len := hop.1
      unfold Ringbuf.step fifo
      dsimp only
      by_cases hfit : compressLen len + len ≤ r.freesize
      · rw [if_pos hfit] at hpush
        rw [if_pos (by omega), hpush.1]
        exact ⟨rfl, hpush.2.1, hpush.2.2.end_⟩
      · rw [if_neg hfit] at hpush
        rw [if_neg (by omega), hpush]
        exact ⟨rfl, h, rfl⟩
  | pop pdata plen =>
      unfold Ringbuf.step fifo
      cases q with
      | nil =>
          dsimp only
          rw [pop_nil h]
          exact ⟨rfl, h, rfl⟩
      | cons m q =>
          rcases pop_queued h pdata plen with ⟨hstat, hlen, hmsg, _, hq, hshape⟩
          dsimp only
          rw [hstat, if_pos rfl, hlen, hmsg]
          exact ⟨rfl, hq, hshape.end_⟩
  | reset => exact ⟨rfl, reset_queued h, rfl⟩

/-- Every run does what the queue does. -/
theorem runOps_fifo {r : Ringbuf} {q : List (List UInt8)} (h : Queued r q) (ops : List RingOp)
    (hops : ∀ op ∈ ops, op.Valid) :
    (runOps Ringbuf.step r ops).1 = (runOps (fifo r.end_) q ops).1 ∧
      Queued (runOps Ringbuf.step r ops).2 (runOps (fifo r.end_) q ops).2 ∧
      (runOps Ringbuf.step r ops).2.end_ = r.end_ := by
  induction ops generalizing r q with
  | nil => exact ⟨rfl, h, rfl⟩
  | cons op ops ih =>
      rcases step_fifo h (hops op List.mem_cons_self) with ⟨hout, hq, hend⟩
      rcases ih hq (fun o ho => hops o (List.mem_cons_of_mem _ ho)) with ⟨houts, hq', hend'⟩
      rw [hend] at houts hq' hend'
      unfold runOps
      dsimp only
      exact ⟨by rw [hout, houts], hq', hend'⟩

/-- A ring of variable length is a queue of messages: from `ringbuf_init` on, for
    any length of the buffer and any calls with messages of 1 to `0x3fffff` bytes,
    the callers see what the queue would show them, and `freesize` is what the
    queued messages and their lengths leave of the buffer. -/
theorem ring_refines_fifo (mem : Nat → UInt8) (len blockSize : Nat) (ops : List RingOp)
    (hops : ∀ op ∈ ops, op.Valid) :
    let run := runOps Ringbuf.step (.init mem len .dyn blockSize) ops
    let queue := runOps (fifo len) [] ops
    run.1 = queue.1 ∧ run.2.freesize + bytes queue.2 = len := by
  have hinit : Queued (.init mem len .dyn blockSize) [] := by
    refine ⟨rfl, ⟨Nat.zero_le _, Nat.zero_le _, rfl, rfl, ?_⟩, ?_⟩
    · intro i b hb
      exact absurd hb (by simp [encode])
    · intro m hm
      exact absurd hm (by simp)
  rcases runOps_fifo hinit ops hops with ⟨hout, hq, hend⟩
  have hfree := bytes_le hq
  rw [hend] at hfree
  exact ⟨hout, hfree⟩

/-- A message of two bytes straddles the end of a buffer of four. -/
def straddling : List RingOp :=
  [.push (fun _ => 7) 2, .pop (fun _ => 0) 0, .push (fun i => UInt8.ofNat i) 2,
    .pop (fun _ => 0) 0]

theorem ring_refines_fifo_straddling :
    (runOps Ringbuf.step (.init (fun _ => 0) 4 .dyn 0) straddling).1
      = (runOps (fifo 4) [] straddling).1 := by
  refine (ring_refines_fifo (fun _ => 0) 4 0 straddling ?_).1
  intro op hop
  simp only [straddling, List.mem_cons, List.not_mem_nil, or_false] at hop
  rcases hop with rfl | rfl | rfl | rfl
  · exact ⟨by decide, by decide⟩
  · trivial
  · exact ⟨by decide, by decide⟩
  · trivial

end Rhino

end Wujian100
