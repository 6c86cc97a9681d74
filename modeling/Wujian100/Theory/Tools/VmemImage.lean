import Mathlib.Data.List.Chain
import Wujian100.Theory.Tools.Srec2vmem

/-!
# The Words of the Image

At an address the image holds what was written last. Among the records that begin at or before
the address it is the last one that decides: if the address is in its four words it holds that
word, and else only the filling of the gap after it can have written there. The filling leaves
out the last word of the gap.

## Main definitions

* `WellFormed`: The records of a file are aligned, increase and do not overlap.
* `RightImage`: The image holds the bytes of the records.
* `Fits`: The records for which it does.

## Theorems

* `outputs_near`, `outputs_far`: What an address holds.
* `image_right`: Records that fit are written right.
* `fits_of_right`: No others are.
* `hex2vmem_right_iff`: When the image of a file is right.
-/

namespace Wujian100

namespace Tools

namespace Srec

/-- The records are aligned, increase, and do not overlap. -/
def WellFormed (rs : List SRecord) : Prop :=
  (∀ r ∈ rs, r.addr % 4 = 0) ∧
    rs.Pairwise fun r r' => r.addr < r'.addr ∧ r.addr + r.data.length ≤ r'.addr

/-- Word `i` of the record, in the image of a file that begins at `base`. -/
def SRecord.word (base : Nat) (r : SRecord) (i : Nat) : Int := ((r.addr : Int) - base) / 4 + i

/-- Every word with bytes of a record holds them, and in the mode that fills gaps every word
    from the first to the last address is written, with zeros where there are no bytes. -/
def RightImage (skipMode : String) (base : Nat) (rs : List SRecord)
    (out : List (Int × List Char)) : Prop :=
  (∀ r ∈ rs, ∀ i, 4 * i < r.data.length → ∃ text, lastWrite out (r.word base i) = some text ∧
    Spells text ((wordBytes r.data i).flatMap nibbles)) ∧
  (skipMode = "n" → ∀ a : Int, 0 ≤ a → (∃ r ∈ rs, a ≤ r.word base 0) →
    ∃ text, lastWrite out a = some text ∧
      ((∀ r ∈ rs, ∀ i, 4 * i < r.data.length → a ≠ r.word base i) →
        Spells text (List.replicate 8 0)))

/-- The records have at most four words, the bytes of a word that they do not have all of are
    zero, and in the mode that fills gaps they begin at most four words after each other. -/
def Fits (skipMode : String) (rs : List SRecord) : Prop :=
  (∀ r ∈ rs, r.data.length ≤ 16 ∧
    ∀ j, 4 * (r.data.length / 4) ≤ j → r.data.getD j 0 = 0) ∧
  (skipMode = "n" → rs.IsChain fun r r' => r'.addr ≤ r.addr + 16)

/-! ### What an address holds -/

section Outputs

variable {skipMode : String} {base : Nat} {ps pre post : List Piece} {p q : Piece}
  {a prev cur : Int}

/-- Filling a gap stops short of its last word. -/
theorem fillGap_out (h : a < prev ∨ cur - 1 ≤ a) :
    lastWrite (fillGap skipMode prev cur) a = none := by
  by_cases hmode : skipMode = "n"
  · rw [fillGap, if_pos hmode]
    dsimp only
    by_cases hgap : cur - prev > 1
    · rw [if_pos hgap]
      exact lastWrite_writeRun_out (by omega)
    · rw [if_neg hgap]
      rfl
  · rw [fillGap, if_neg hmode]
    rfl

theorem fillGap_of_ne (h : skipMode ≠ "n") : fillGap skipMode prev cur = [] := if_neg h

/-- Later records leave the words before them as they are. -/
theorem outputs_before (hprev : a < prev) (h : ∀ q ∈ ps, a < q.start base) :
    lastWrite (outputs skipMode base prev ps) a = none := by
  induction ps generalizing prev with
  | nil => rfl
  | cons q ps ih =>
      have hq := h q List.mem_cons_self
      rw [outputs, lastWrite_append, lastWrite_append, fillGap_out (Or.inl hprev),
        lastWrite_writeRun_out (Or.inl hq), Option.or_none, Option.or_none]
      exact ih (by omega) fun q' hq' => h q' (List.mem_cons_of_mem q hq')

/-- Earlier records do not reach beyond their four words. -/
theorem outputs_after (h : ∀ q ∈ ps, q.start base + 4 ≤ a) :
    lastWrite (outputs skipMode base prev ps) a = none := by
  induction ps generalizing prev with
  | nil => rfl
  | cons q ps ih =>
      have hq := h q List.mem_cons_self
      rw [outputs, lastWrite_append, lastWrite_append, fillGap_out (Or.inr (by omega)),
        lastWrite_writeRun_out (Or.inr (by omega)), Option.or_none, Option.or_none]
      exact ih fun q' hq' => h q' (List.mem_cons_of_mem q hq')

theorem outputs_split (skipMode : String) (base : Nat) (p : Piece) (pre post : List Piece)
    (prev : Int) :
    ∃ prev', outputs skipMode base prev (pre ++ p :: post)
      = outputs skipMode base prev pre ++ (fillGap skipMode prev' (p.start base)
          ++ writeRun (p.start base) 4 p.word)
        ++ outputs skipMode base (p.start base + 4) post := by
  induction pre generalizing prev with
  | nil => exact ⟨prev, rfl⟩
  | cons q pre ih =>
      obtain ⟨prev', heq⟩ := ih (q.start base + 4)
      refine ⟨prev', ?_⟩
      rw [List.cons_append, outputs, heq, outputs]
      simp only [List.append_assoc]

/-- An address in the four words of the last record that begins before it. -/
theorem outputs_near (hle : p.start base ≤ a) (hlt : a < p.start base + 4)
    (hpost : ∀ q ∈ post, a < q.start base) :
    lastWrite (outputs skipMode base prev (pre ++ p :: post)) a
      = some (p.word (a - p.start base).toNat) := by
  obtain ⟨prev', heq⟩ := outputs_split skipMode base p pre post prev
  have hword : lastWrite (writeRun (p.start base) 4 p.word)
      (p.start base + ((a - p.start base).toNat : Int)) = some (p.word (a - p.start base).toNat) :=
    lastWrite_writeRun (by omega)
  rw [show p.start base + ((a - p.start base).toNat : Int) = a by omega] at hword
  rw [heq, lastWrite_append, lastWrite_append, lastWrite_append, outputs_before (by omega) hpost,
    Option.none_or, hword, Option.some_or, Option.some_or]

theorem outputs_word {i : Nat} (hi : i < 4) (hpost : ∀ q ∈ post, p.start base + i < q.start base) :
    lastWrite (outputs skipMode base prev (pre ++ p :: post)) (p.start base + i)
      = some (p.word i) := by
  rw [outputs_near (by omega) (by omega) hpost, add_sub_cancel_left, Int.toNat_natCast]

/-- An address beyond them holds what was written for the records after that one. -/
theorem outputs_far (hle : p.start base + 4 ≤ a) (hpre : ∀ q ∈ pre, q.start base < p.start base) :
    lastWrite (outputs skipMode base prev (pre ++ p :: post)) a
      = lastWrite (outputs skipMode base (p.start base + 4) post) a := by
  obtain ⟨prev', heq⟩ := outputs_split skipMode base p pre post prev
  have hnone : lastWrite (outputs skipMode base prev pre) a = none :=
    outputs_after fun q hq => by
      have := hpre q hq
      omega
  rw [heq, lastWrite_append, lastWrite_append, lastWrite_append, hnone,
    fillGap_out (Or.inr (by omega)), lastWrite_writeRun_out (Or.inr (by omega)), Option.or_none,
    Option.or_none, Option.or_none]

/-- Before the next record this is the filling of the gap. -/
theorem outputs_gap (hq : a < q.start base) (hpost : ∀ q' ∈ post, a < q'.start base) :
    lastWrite (outputs skipMode base prev (q :: post)) a
      = lastWrite (fillGap skipMode prev (q.start base)) a := by
  rw [outputs, lastWrite_append, lastWrite_append, outputs_before (by omega) hpost,
    lastWrite_writeRun_out (Or.inl hq), Option.none_or, Option.none_or]

end Outputs

/-! ### The pieces of a file -/

/-- The pieces of well-formed records that begin at `base`. -/
structure Ordered (base : Nat) (ps : List Piece) : Prop where
  le : ∀ p ∈ ps, base ≤ p.record.addr
  aligned : ∀ p ∈ ps, ((p.record.addr : Int) - base) % 4 = 0
  order : ps.Pairwise fun p q => p.record.addr < q.record.addr ∧
    p.record.addr + p.record.data.length ≤ q.record.addr

section Ordered

variable {skipMode : String} {base : Nat} {ps pre post : List Piece} {p q : Piece}

theorem ordered_of_wellFormed {first : SRecord} {others : List SRecord}
    (h : WellFormed (first :: others)) (hmap : ps.map Piece.record = first :: others) :
    Ordered first.addr ps := by
  have hmem : ∀ p ∈ ps, p.record ∈ first :: others := fun p hp =>
    hmap ▸ List.mem_map_of_mem hp
  have hle : ∀ r ∈ first :: others, first.addr ≤ r.addr := by
    intro r hr
    rcases List.mem_cons.mp hr with rfl | hr
    · exact le_rfl
    · exact (List.rel_of_pairwise_cons h.2 hr).1.le
  refine ⟨fun p hp => hle _ (hmem p hp), fun p hp => ?_, ?_⟩
  · have hp := h.1 _ (hmem p hp)
    have hfirst := h.1 _ (List.mem_cons_self (a := first) (l := others))
    omega
  · have := h.2
    rw [← hmap, List.pairwise_map] at this
    exact this

theorem Ordered.start_nonneg (h : Ordered base ps) (hp : p ∈ ps) : 0 ≤ p.start base := by
  have := h.le p hp
  rw [Piece.start]
  omega

theorem Ordered.start_mul (h : Ordered base ps) (hp : p ∈ ps) :
    4 * p.start base = (p.record.addr : Int) - base := by
  have := h.aligned p hp
  rw [Piece.start]
  omega

/-- Earlier pieces begin earlier. -/
theorem Ordered.before (h : Ordered base (pre ++ p :: post)) :
    ∀ q ∈ pre, q.start base < p.start base := by
  intro q hq
  have hlt := (List.pairwise_append.mp h.order).2.2 q hq p List.mem_cons_self
  have hqs := h.start_mul (List.mem_append_left _ hq)
  have hps := h.start_mul (List.mem_append_right pre (List.mem_cons_self (a := p) (l := post)))
  omega

/-- The words with bytes of a piece end before the later ones. -/
theorem Ordered.after (h : Ordered base (pre ++ p :: post)) {i : Nat}
    (hi : 4 * i < p.record.data.length) : ∀ q ∈ post, p.start base + i < q.start base := by
  intro q hq
  have hpair := (List.pairwise_append.mp h.order).2.1
  have hle := List.rel_of_pairwise_cons hpair hq
  have hqs := h.start_mul (List.mem_append_right pre (List.mem_cons_of_mem p hq))
  have hps := h.start_mul (List.mem_append_right pre (List.mem_cons_self (a := p) (l := post)))
  omega

theorem Ordered.after_start (h : Ordered base (pre ++ p :: post)) :
    ∀ q ∈ post, p.start base < q.start base := by
  intro q hq
  have hpair := (List.pairwise_append.mp h.order).2.1
  have hlt := List.rel_of_pairwise_cons hpair hq
  have hqs := h.start_mul (List.mem_append_right pre (List.mem_cons_of_mem p hq))
  have hps := h.start_mul (List.mem_append_right pre (List.mem_cons_self (a := p) (l := post)))
  omega

/-- The last piece that begins at or before an address. -/
theorem exists_last {a : Int} (h : ∃ p ∈ ps, p.start base ≤ a) :
    ∃ pre p post, ps = pre ++ p :: post ∧ p.start base ≤ a ∧ ∀ q ∈ post, a < q.start base := by
  induction ps with
  | nil => exact absurd h.choose_spec.1 List.not_mem_nil
  | cons x ps ih =>
      by_cases hlater : ∃ p ∈ ps, p.start base ≤ a
      · obtain ⟨pre, p, post, rfl, hle, hpost⟩ := ih hlater
        exact ⟨x :: pre, p, post, rfl, hle, hpost⟩
      · refine ⟨[], x, ps, rfl, ?_, fun q hq => lt_of_not_ge fun hle => hlater ⟨q, hq, hle⟩⟩
        obtain ⟨p, hp, hle⟩ := h
        rcases List.mem_cons.mp hp with rfl | hp
        · exact hle
        · exact absurd ⟨p, hp, hle⟩ hlater

/-- A zero word. -/
theorem spells_zeroWord : Spells zeroWord (List.replicate 8 0) := rfl

theorem wordBytes_zero {data : List Nat} {i : Nat} (h : ∀ j, 4 * i ≤ j → data.getD j 0 = 0) :
    (wordBytes data i).flatMap nibbles = List.replicate 8 0 := by
  rw [wordBytes, h (4 * i) le_rfl, h (4 * i + 1) (by omega), h (4 * i + 2) (by omega),
    h (4 * i + 3) (by omega)]
  rfl

/-- Bytes whose digits are zero are zero. -/
theorem zero_of_wordBytes {data : List Nat} {i : Nat}
    (h : (wordBytes data i).flatMap nibbles = List.replicate 8 0) {j : Nat} (hj : j < 4) :
    data.getD (4 * i + j) 0 = 0 := by
  have hbyte : ∀ b, nibbles b = [0, 0] → b = 0 := by
    intro b hb
    obtain ⟨hhi, hlo⟩ := List.cons.inj hb
    have hlo := (List.cons.inj hlo).1
    omega
  rw [wordBytes] at h
  simp only [List.flatMap_cons, List.flatMap_nil, nibbles, List.cons_append, List.nil_append,
    List.replicate, List.cons.injEq, and_true] at h
  obtain ⟨h0, h1, h2, h3, h4, h5, h6, h7⟩ := h
  interval_cases j
  · exact hbyte _ (by rw [nibbles, Nat.add_zero, h0, h1])
  · exact hbyte _ (by rw [nibbles, h2, h3])
  · exact hbyte _ (by rw [nibbles, h4, h5])
  · exact hbyte _ (by rw [nibbles, h6, h7])

/-- A word of a piece whose record has no byte of it, or none but zeros. -/
theorem Piece.Shows.zero (h : p.Shows) {i : Nat} (hi : p.record.data.length < 4 * (i + 1)) :
    p.word i = zeroWord := by
  have := h i
  rwa [if_neg (by omega)] at this

theorem Piece.Shows.full (h : p.Shows) {i : Nat} (hi : 4 * (i + 1) ≤ p.record.data.length) :
    Spells (p.word i) ((wordBytes p.record.data i).flatMap nibbles) := by
  have := h i
  rwa [if_pos hi] at this

/-! ### When the image is right -/

theorem Piece.word_eq (p : Piece) (i : Nat) : p.record.word base i = p.start base + i := rfl

/-- A piece of at most four words is written with all its bytes, if those of the word that it
    does not have all of are zero. -/
theorem word_right (hord : Ordered base ps) (hshows : ∀ p ∈ ps, p.Shows) (hp : p ∈ ps)
    (hlen : p.record.data.length ≤ 16)
    (hzero : ∀ j, 4 * (p.record.data.length / 4) ≤ j → p.record.data.getD j 0 = 0) {i : Nat}
    (hi : 4 * i < p.record.data.length) (prev : Int) :
    ∃ text, lastWrite (outputs skipMode base prev ps) (p.record.word base i) = some text ∧
      Spells text ((wordBytes p.record.data i).flatMap nibbles) := by
  obtain ⟨pre, post, rfl⟩ := List.append_of_mem hp
  refine ⟨p.word i, outputs_word (by omega) (hord.after hi), ?_⟩
  by_cases hall : 4 * (i + 1) ≤ p.record.data.length
  · exact (hshows p hp).full hall
  · rw [(hshows p hp).zero (by omega), wordBytes_zero fun j hj => hzero j (by omega)]
    exact spells_zeroWord

/-- Where the pieces begin at most four words after each other every word up to the last one is
    in the words of a piece. -/
theorem gap_right (hord : Ordered base ps) (hshows : ∀ p ∈ ps, p.Shows)
    (hchain : ps.IsChain fun p q => q.record.addr ≤ p.record.addr + 16) {a : Int}
    (hfirst : ∃ p ∈ ps, p.start base ≤ a) (hlast : ∃ p ∈ ps, a ≤ p.start base) (prev : Int) :
    ∃ text, lastWrite (outputs skipMode base prev ps) a = some text ∧
      ((∀ p ∈ ps, ∀ i, 4 * i < p.record.data.length → a ≠ p.record.word base i) →
        Spells text (List.replicate 8 0)) := by
  obtain ⟨pre, p, post, rfl, hle, hpost⟩ := exists_last hfirst
  have hp : p ∈ pre ++ p :: post := List.mem_append_right pre List.mem_cons_self
  have hlt : a < p.start base + 4 := by
    cases post with
    | nil =>
        -- The address is that of the last piece.
        obtain ⟨q, hq, hqa⟩ := hlast
        rcases List.mem_append.mp hq with hq | hq
        · have := hord.before q hq
          omega
        · obtain rfl := List.mem_singleton.mp hq
          omega
    | cons q post =>
        have hstep := List.isChain_iff_forall_rel_of_append_cons_cons.mp hchain rfl
        have hnext := hpost q List.mem_cons_self
        have hps := hord.start_mul hp
        have hqs := hord.start_mul
          (List.mem_append_right pre (List.mem_cons_of_mem p List.mem_cons_self))
        omega
  refine ⟨_, outputs_near hle hlt hpost, fun hnone => ?_⟩
  -- No byte of the piece is there.
  have hi : p.record.data.length < 4 * ((a - p.start base).toNat + 1) := by
    by_contra hge
    refine hnone p hp (a - p.start base).toNat (by omega) ?_
    rw [Piece.word_eq]
    omega
  rw [(hshows p hp).zero hi]
  exact spells_zeroWord

/-- The records of a right image begin at most four words after each other where gaps are
    filled. -/
theorem chain_of_right (skipMode : String) (prev : Int)
    (hord : Ordered base (pre ++ p :: q :: post))
    (h : ∀ a : Int, 0 ≤ a → a ≤ q.start base →
      lastWrite (outputs skipMode base prev (pre ++ p :: q :: post)) a ≠ none) :
    q.record.addr ≤ p.record.addr + 16 := by
  have hp : p ∈ pre ++ p :: q :: post := List.mem_append_right pre List.mem_cons_self
  have hq : q ∈ pre ++ p :: q :: post :=
    List.mem_append_right pre (List.mem_cons_of_mem p List.mem_cons_self)
  have hps := hord.start_mul hp
  have hqs := hord.start_mul hq
  have h0 := hord.start_nonneg hp
  by_contra hfar
  -- The last word before the next record is missing.
  refine h (q.start base - 1) (by omega) (by omega) ?_
  have hqord : Ordered base ((pre ++ [p]) ++ q :: post) := by
    rwa [List.append_assoc, List.singleton_append]
  rw [outputs_far (by omega) hord.before, outputs_gap (by omega) fun q' hq' => by
    have := hqord.after_start q' hq'
    omega]
  exact fillGap_out (Or.inr (by omega))

/-- The records of a right image have at most four words. -/
theorem length_of_right (skipMode : String) (prev : Int) (hord : Ordered base (pre ++ p :: post))
    (hgap : skipMode = "n" → ∀ q post', post = q :: post' → q.record.addr ≤ p.record.addr + 16)
    (h : 16 < p.record.data.length →
      lastWrite (outputs skipMode base prev (pre ++ p :: post)) (p.start base + 4) ≠ none) :
    p.record.data.length ≤ 16 := by
  by_contra hlong
  have hp : p ∈ pre ++ p :: post := List.mem_append_right pre List.mem_cons_self
  have hpost := hord.after (show 4 * 4 < p.record.data.length by omega)
  refine h (by omega) ?_
  rw [outputs_far le_rfl hord.before]
  cases post with
  | nil => rfl
  | cons q post =>
      have hq := hpost q List.mem_cons_self
      rw [outputs_gap (by exact_mod_cast hq) fun q' hq' => by
        exact_mod_cast hpost q' (List.mem_cons_of_mem q hq')]
      by_cases hmode : skipMode = "n"
      · -- The next record would have to begin within the bytes of this one.
        have hclose := hgap hmode q post rfl
        have hps := hord.start_mul hp
        have hqs := hord.start_mul
          (List.mem_append_right pre (List.mem_cons_of_mem p List.mem_cons_self))
        omega
      · rw [fillGap_of_ne hmode]
        rfl

/-- The bytes of a word that a record of a right image does not have all of are zero. -/
theorem zero_of_right (hord : Ordered base (pre ++ p :: post)) (hshows : p.Shows) {prev : Int}
    (hlen : p.record.data.length ≤ 16)
    (h : ∀ i, 4 * i < p.record.data.length →
      ∃ text, lastWrite (outputs skipMode base prev (pre ++ p :: post)) (p.record.word base i)
        = some text ∧ Spells text ((wordBytes p.record.data i).flatMap nibbles)) :
    ∀ j, 4 * (p.record.data.length / 4) ≤ j → p.record.data.getD j 0 = 0 := by
  intro j hj
  rcases Nat.lt_or_ge j p.record.data.length with hlt | hge
  · have hi : 4 * (p.record.data.length / 4) < p.record.data.length := by omega
    generalize hw : p.record.data.length / 4 = i at hi hj
    obtain ⟨text, hlast, hspells⟩ := h i hi
    have hword : lastWrite (outputs skipMode base prev (pre ++ p :: post)) (p.record.word base i)
        = some (p.word i) := outputs_word (by omega) (hord.after hi)
    obtain rfl : p.word i = text := Option.some.inj (hword.symm.trans hlast)
    rw [hshows.zero (by omega)] at hspells
    have hzero := zero_of_wordBytes (hspells.injective spells_zeroWord) (j := j - 4 * i) (by omega)
    rwa [show 4 * i + (j - 4 * i) = j by omega] at hzero
  · exact List.getD_eq_default _ _ hge

/-- A right image is one of records that fit, and the other way round. -/
theorem rightImage_iff (hord : Ordered base ps) (hshows : ∀ p ∈ ps, p.Shows)
    (hfirst : ∃ p ∈ ps, p.start base = 0) :
    RightImage skipMode base (ps.map Piece.record) (outputs skipMode base 0 ps) ↔
      Fits skipMode (ps.map Piece.record) := by
  obtain ⟨p₀, hp₀, hzero⟩ := hfirst
  constructor
  · rintro ⟨hwords, hgaps⟩
    -- Where gaps are filled no address up to a record is left out.
    have hchain : skipMode = "n" → ∀ pre p q post, ps = pre ++ p :: q :: post →
        q.record.addr ≤ p.record.addr + 16 := by
      rintro hmode pre p q post rfl
      refine chain_of_right skipMode 0 hord fun a h0 ha => ?_
      have hq : q.record ∈ (pre ++ p :: q :: post).map Piece.record :=
        List.mem_map_of_mem (List.mem_append_right pre
          (List.mem_cons_of_mem p List.mem_cons_self))
      obtain ⟨text, htext, -⟩ := hgaps hmode a h0
        ⟨q.record, hq, by rw [Piece.word_eq]; omega⟩
      rw [htext]
      exact Option.some_ne_none text
    refine ⟨fun r hr => ?_, fun hmode => ?_⟩
    · obtain ⟨p, hp, rfl⟩ := List.mem_map.mp hr
      have hall := hwords p.record hr
      obtain ⟨pre, post, rfl⟩ := List.append_of_mem hp
      have hlen : p.record.data.length ≤ 16 := by
        refine length_of_right skipMode 0 hord
          (fun hmode q post' heq => hchain hmode pre p q post' (by rw [heq])) fun hlong => ?_
        obtain ⟨text, htext, -⟩ := hall 4 (by omega)
        exact fun hnone => Option.some_ne_none text (htext.symm.trans hnone)
      exact ⟨hlen, zero_of_right hord (hshows p hp) hlen hall⟩
    · rw [List.isChain_map]
      exact List.isChain_iff_forall_rel_of_append_cons_cons.mpr fun p q pre post heq =>
        hchain hmode pre p q post heq
  · rintro ⟨hfit, hchain⟩
    refine ⟨fun r hr i hi => ?_, fun hmode a h0 hlast => ?_⟩
    · obtain ⟨p, hp, rfl⟩ := List.mem_map.mp hr
      exact word_right hord hshows hp (hfit _ hr).1 (hfit _ hr).2 hi 0
    · have hclose := hchain hmode
      rw [List.isChain_map] at hclose
      obtain ⟨r, hr, ha⟩ := hlast
      obtain ⟨p, hp, rfl⟩ := List.mem_map.mp hr
      rw [Piece.word_eq] at ha
      obtain ⟨text, htext, hnone⟩ := gap_right hord hshows hclose
        ⟨p₀, hp₀, hzero.le.trans h0⟩ ⟨p, hp, by omega⟩ 0
      refine ⟨text, htext, fun h => hnone fun q hq => h q.record (List.mem_map_of_mem hq)⟩

end Ordered

/-- For the lines of a file of well-formed records `hex2vmem` reads up to the end record, and
    the image it writes is right if and only if the records fit. -/
theorem hex2vmem_right_iff (skipMode : String) (lines : List (List Char)) (first : SRecord)
    (others : List SRecord) (hfile : FileOf lines first others)
    (hwf : WellFormed (first :: others)) :
    ∃ s, hex2vmem skipMode lines Vmem.start = (.closed, s) ∧
      (RightImage skipMode first.addr (first :: others) s.ofile ↔
        Fits skipMode (first :: others)) := by
  have hle : ∀ r ∈ others, first.addr ≤ r.addr := fun r hr =>
    (List.rel_of_pairwise_cons hwf.2 hr).1.le
  obtain ⟨ps, s, hmap, hshows, heq, hout⟩ := hex2vmem_file skipMode hfile hle
  have hord := ordered_of_wellFormed hwf hmap
  have hfirst : ∃ p ∈ ps, p.start first.addr = 0 := by
    obtain ⟨p, hp, hrec⟩ := List.mem_map.mp (hmap ▸ List.mem_cons_self : first ∈ ps.map _)
    refine ⟨p, hp, ?_⟩
    rw [Piece.start, hrec, Int.sub_self]
    rfl
  refine ⟨s, heq, ?_⟩
  rw [hout, ← hmap]
  exact rightImage_iff hord hshows hfirst

/-- Two records of a whole word and the end record, with two words of a gap. -/
def gapLines : List (List Char) :=
  [['S', '1', '0', '7', '0', '0', '1', '0', 'D', 'e', 'A', 'd', '0', '1', '0', '2', '5', 'A', '\n'],
    ['S', '1', '0', '7', '0', '0', '1', 'C', '0', '3', '0', '4', '0', '5', '0', '6', 'C', 'A', '\n'],
    ['S', '9', '0', '3', '\n']]

theorem hex2vmem_right_gap :
    ∃ s, hex2vmem "n" gapLines Vmem.start = (.closed, s) ∧
      RightImage "n" 16 [⟨.s1, 16, [222, 173, 1, 2]⟩, ⟨.s1, 28, [3, 4, 5, 6]⟩] s.ofile := by
  have hfile : FileOf gapLines ⟨.s1, 16, [222, 173, 1, 2]⟩ [⟨.s1, 28, [3, 4, 5, 6]⟩] := by
    refine ⟨[], [_, _], _, [], rfl, fun line hline => absurd hline List.not_mem_nil,
      List.Forall₂.cons ?_ (List.Forall₂.cons ?_ List.Forall₂.nil), '0', '3', [0, 3], ['\n'], rfl,
      rfl⟩
    · exact ⟨'0', '7', [0, 7], ['0', '0', '1', '0'], [0, 0, 1, 0],
        ['D', 'e', 'A', 'd', '0', '1', '0', '2'], ['5', 'A', '\n'], rfl, rfl, rfl, rfl, rfl, rfl, rfl⟩
    · exact ⟨'0', '7', [0, 7], ['0', '0', '1', 'C'], [0, 0, 1, 12],
        ['0', '3', '0', '4', '0', '5', '0', '6'], ['C', 'A', '\n'], rfl, rfl, rfl, rfl, rfl, rfl, rfl⟩
  have hwf : WellFormed [⟨.s1, 16, [222, 173, 1, 2]⟩, ⟨.s1, 28, [3, 4, 5, 6]⟩] :=
    ⟨by decide, List.pairwise_pair.mpr (by decide)⟩
  obtain ⟨s, heq, hright⟩ := hex2vmem_right_iff "n" _ _ _ hfile hwf
  refine ⟨s, heq, hright.mpr ⟨fun r hr => ?_, fun _ => List.isChain_pair.mpr (by decide)⟩⟩
  rcases List.mem_pair.mp hr with rfl | rfl
  · exact ⟨by decide, fun j hj => List.getD_eq_default _ _ hj⟩
  · exact ⟨by decide, fun j hj => List.getD_eq_default _ _ hj⟩

/-- Of a record of two bytes neither is written. -/
theorem hex2vmem_wrong :
    FileOf [['S', '1', '0', '5', '0', '0', '0', '0', '0', '1', '0', '2', 'F', '7', '\n'],
        ['S', '9', '0', '3', '\n']] ⟨.s1, 0, [1, 2]⟩ [] ∧
      WellFormed [⟨.s1, 0, [1, 2]⟩] ∧
      ¬RightImage "n" 0 [⟨.s1, 0, [1, 2]⟩]
        (hex2vmem "n" [['S', '1', '0', '5', '0', '0', '0', '0', '0', '1', '0', '2', 'F', '7', '\n'],
          ['S', '9', '0', '3', '\n']] Vmem.start).2.ofile := by
  refine ⟨?_, ⟨by decide, List.pairwise_singleton _ _⟩, fun h => ?_⟩
  · refine ⟨[], [_], _, [], rfl, fun line hline => absurd hline List.not_mem_nil,
      List.Forall₂.cons ?_ List.Forall₂.nil, '0', '3', [0, 3], ['\n'], rfl, rfl⟩
    exact ⟨'0', '5', [0, 5], ['0', '0', '0', '0'], [0, 0, 0, 0], ['0', '1', '0', '2'],
      ['F', '7', '\n'], rfl, rfl, rfl, rfl, rfl, rfl, rfl⟩
  · obtain ⟨text, htext, hspells⟩ := h.1 _ List.mem_cons_self 0 (by decide)
    have hzero : lastWrite (hex2vmem "n" [['S', '1', '0', '5', '0', '0', '0', '0', '0', '1', '0',
        '2', 'F', '7', '\n'], ['S', '9', '0', '3', '\n']] Vmem.start).2.ofile 0
        = some zeroWord := by decide
    obtain rfl : zeroWord = text := Option.some.inj (hzero.symm.trans htext)
    exact absurd (hspells.injective spells_zeroWord) (by decide)

end Srec

end Tools

end Wujian100
