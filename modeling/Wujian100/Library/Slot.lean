import Mathlib.Data.List.Basic
import Mathlib.Logic.Relation

/-!
# One-Place Channels

A channel between two parties that share one control word and a buffer. The
writer checks that the word is not marked full, copies its data into the
buffer, and posts a word that carries a tag and a size and has two marks set.
On the other side an interrupt takes the first mark off and raises a flag, and
the reader, once it sees the flag, reads the word and the buffer, lowers the
flag, and takes the second mark off. Taking a mark off is a load and a store,
with anything in between.

`Chan` is one channel: the shared word and buffer, the flag, where each of the
three threads stands, and what has been posted and read so far. `Step` is one
access by one thread. The word is any type with the operations of a `Layout`.

The argument is that a posted message is a token. It is in the hands of the
interrupt while the first mark is on, of the flag once that is raised, and of
the reader until the second mark is off, and whoever holds it is the only one
that writes the word. Hence a load and its store see the same word, and nothing
is lost between them.

## Main definitions

* `Layout`: The control word, and the laws of its fields.
* `Msg`: A tag, a length and the bytes.
* `Writer`, `Reader`, `Irq`: Where the three threads stand.
* `Chan`: A channel.
* `Prepare`: What the writer does before it posts.
* `Step`: One access.
* `Token`: Who holds a posted message.
* `Inv`: The invariant.
* `Raw`: A channel whose word has not been cleared yet.

## Theorems

* `inv_prepare`, `raw_prepare`: The writer's accesses before the post.
* `inv_step`: Every access keeps the invariant.
* `inv_steps`: And so does any number of them.
* `inv_of_raw`: Clearing the word establishes it.
-/

namespace Wujian100

namespace Slot

/-- A control word with a full mark, an interrupt mark, a tag and a size. A
    posted size up to `limit` can be read back. -/
structure Layout (W T : Type) where
  full : W → Bool
  intr : W → Bool
  tag : W → T
  size : W → Nat
  clearFull : W → W
  clearIntr : W → W
  zero : W
  post : T → Nat → W
  limit : Nat
  full_zero : full zero = false
  intr_zero : intr zero = false
  full_post : ∀ t n, full (post t n) = true
  intr_post : ∀ t n, intr (post t n) = true
  tag_post : ∀ t n, tag (post t n) = t
  size_post : ∀ t n, n ≤ limit → size (post t n) = n
  full_clearIntr : ∀ w, full (clearIntr w) = full w
  intr_clearIntr : ∀ w, intr (clearIntr w) = false
  tag_clearIntr : ∀ w, tag (clearIntr w) = tag w
  size_clearIntr : ∀ w, size (clearIntr w) = size w
  full_clearFull : ∀ w, full (clearFull w) = false
  intr_clearFull : ∀ w, intr (clearFull w) = intr w

/-- A message, as it is posted and as it is read. -/
structure Msg (T B : Type) where
  tag : T
  len : Nat
  payload : List B
deriving DecidableEq

/-- The writer: elsewhere, copying from byte `k` on, or about to post. -/
inductive Writer (T B : Type) where
  | away
  | copying (tag : T) (data : List B) (k : Nat)
  | posting (tag : T) (data : List B)

/-- The reader: elsewhere, about to read the size, about to read the tag,
    copying, about to lower the flag, about to load the word, about to store
    it. -/
inductive Reader (W T B : Type) where
  | away
  | sizing (room : Nat)
  | tagging (size : Nat)
  | copying (tag : T) (size : Nat) (done : List B)
  | lowering (m : Msg T B)
  | loading (m : Msg T B)
  | storing (m : Msg T B) (w : W)

/-- The interrupt: elsewhere, about to load the word, about to store it, about
    to raise the flag. -/
inductive Irq (W : Type) where
  | away
  | loading
  | storing (w : W)
  | raising

/-- A channel. -/
structure Chan (W T B : Type) where
  word : W
  ram : Nat → B
  flag : Bool
  writer : Writer T B
  reader : Reader W T B
  irq : Irq W
  sent : List (Msg T B)
  read : List (Msg T B)

section Steps

variable {W T B : Type}

/-- What the writer does before it posts. A size above the limit is not
    prepared. -/
inductive Prepare (L : Layout W T) : Chan W T B → Chan W T B → Prop
  | check (v : Chan W T B) (tag : T) (data : List B) (hw : v.writer = .away)
      (hfull : L.full v.word = false) (hlen : data.length ≤ L.limit) :
      Prepare L v { v with writer := .copying tag data 0 }
  | copy (v : Chan W T B) (tag : T) (data : List B) (k : Nat) (b : B)
      (hw : v.writer = .copying tag data k) (hb : data[k]? = some b) :
      Prepare L v
        { v with
          ram := fun a => if a = k then b else v.ram a
          writer := .copying tag data (k + 1) }
  | copied (v : Chan W T B) (tag : T) (data : List B) (k : Nat)
      (hw : v.writer = .copying tag data k) (hk : data.length ≤ k) :
      Prepare L v { v with writer := .posting tag data }

/-- One access. -/
inductive Step (L : Layout W T) : Chan W T B → Chan W T B → Prop
  | prepare (v v' : Chan W T B) (h : Prepare L v v') : Step L v v'
  | post (v : Chan W T B) (tag : T) (data : List B) (hw : v.writer = .posting tag data) :
      Step L v
        { v with
          word := L.post tag data.length
          writer := .away
          sent := v.sent ++ [⟨tag, data.length, data⟩] }
  | irqSee (v : Chan W T B) (hi : v.irq = .away) (hintr : L.intr v.word = true) :
      Step L v { v with irq := .loading }
  | irqLoad (v : Chan W T B) (hi : v.irq = .loading) :
      Step L v { v with irq := .storing v.word }
  | irqStore (v : Chan W T B) (w : W) (hi : v.irq = .storing w) :
      Step L v { v with word := L.clearIntr w, irq := .raising }
  | irqRaise (v : Chan W T B) (hi : v.irq = .raising) :
      Step L v { v with flag := true, irq := .away }
  | start (v : Chan W T B) (room : Nat) (hr : v.reader = .away) (hflag : v.flag = true) :
      Step L v { v with reader := .sizing room }
  | refuse (v : Chan W T B) (room : Nat) (hr : v.reader = .sizing room) :
      Step L v { v with reader := .away }
  | size (v : Chan W T B) (room : Nat) (hr : v.reader = .sizing room) :
      Step L v { v with reader := .tagging (L.size v.word) }
  | tag (v : Chan W T B) (size : Nat) (hr : v.reader = .tagging size) :
      Step L v { v with reader := .copying (L.tag v.word) size [] }
  | byte (v : Chan W T B) (tag : T) (size : Nat) (done : List B)
      (hr : v.reader = .copying tag size done) (hlt : done.length < size) :
      Step L v { v with reader := .copying tag size (done ++ [v.ram done.length]) }
  | whole (v : Chan W T B) (tag : T) (size : Nat) (done : List B)
      (hr : v.reader = .copying tag size done) (hle : size ≤ done.length) :
      Step L v { v with reader := .lowering ⟨tag, size, done⟩ }
  | lower (v : Chan W T B) (m : Msg T B) (hr : v.reader = .lowering m) :
      Step L v { v with flag := false, reader := .loading m }
  | load (v : Chan W T B) (m : Msg T B) (hr : v.reader = .loading m) :
      Step L v { v with reader := .storing m v.word }
  | store (v : Chan W T B) (m : Msg T B) (w : W) (hr : v.reader = .storing m w) :
      Step L v
        { v with word := L.clearFull w, reader := .away, read := v.read ++ [m] }

/-- The buffer holds the first `k` bytes of `data`. -/
def Copied (ram : Nat → B) (data : List B) (k : Nat) : Prop :=
  ∀ i b, i < k → data[i]? = some b → ram i = b

/-- What the writer has done so far is in the buffer. -/
def WriterOk (L : Layout W T) (v : Chan W T B) : Prop :=
  match v.writer with
  | .away => True
  | .copying _ data k => data.length ≤ L.limit ∧ Copied v.ram data k
  | .posting _ data => data.length ≤ L.limit ∧ Copied v.ram data data.length

/-- The reader is past its start and has not lowered the flag. -/
def Reader.Reading : Reader W T B → Prop
  | .sizing _ => True
  | .tagging _ => True
  | .copying _ _ _ => True
  | .lowering _ => True
  | _ => False

/-- What the reader has read so far is a beginning of `m`. -/
def ReaderOk (m : Msg T B) : Reader W T B → Prop
  | .away => True
  | .sizing _ => True
  | .tagging size => size = m.len
  | .copying tag size done => tag = m.tag ∧ size = m.len ∧ done <+: m.payload
  | .lowering m' => m' = m
  | .loading _ => False
  | .storing _ _ => False

/-- Who holds the message `m` that has been posted. -/
inductive Token (L : Layout W T) (v : Chan W T B) (m : Msg T B) : Prop
  | posted (hintr : L.intr v.word = true) (hflag : v.flag = false) (hr : v.reader = .away)
      (hi : v.irq = .away ∨ v.irq = .loading ∨ v.irq = .storing v.word)
  | cleared (hintr : L.intr v.word = false) (hflag : v.flag = false) (hr : v.reader = .away)
      (hi : v.irq = .raising)
  | raised (hintr : L.intr v.word = false) (hflag : v.flag = true) (hr : ReaderOk m v.reader)
      (hi : v.irq = .away)
  | lowered (hintr : L.intr v.word = false) (hflag : v.flag = false)
      (hr : v.reader = .loading m ∨ v.reader = .storing m v.word) (hi : v.irq = .away)

/-- Nothing is posted: everything sent has been read, and all but the writer
    are elsewhere. -/
structure Empty (L : Layout W T) (v : Chan W T B) : Prop where
  full : L.full v.word = false
  intr : L.intr v.word = false
  flag : v.flag = false
  reader : v.reader = .away
  irq : v.irq = .away
  read : v.read = v.sent
  writer : WriterOk L v

/-- The message `m` is posted: it is the one that has not been read, the word
    and the buffer carry it, and the writer is elsewhere. -/
structure Full (L : Layout W T) (v : Chan W T B) (m : Msg T B) : Prop where
  full : L.full v.word = true
  writer : v.writer = .away
  sent : v.sent = v.read ++ [m]
  tag : L.tag v.word = m.tag
  size : L.size v.word = m.len
  len : m.len = m.payload.length
  ram : Copied v.ram m.payload m.len
  token : Token L v m

/-- The invariant of a channel. -/
def Inv (L : Layout W T) (v : Chan W T B) : Prop := Empty L v ∨ ∃ m, Full L v m

/-- A channel whose word holds anything: the writer may be preparing, nobody
    else has moved. -/
structure Raw (L : Layout W T) (v : Chan W T B) : Prop where
  flag : v.flag = false
  reader : v.reader = .away
  irq : v.irq = .away
  sent : v.sent = []
  read : v.read = []
  writer : WriterOk L v

variable {L : Layout W T} {v v' : Chan W T B}

/-- Copying the next byte. -/
theorem copied_succ {ram : Nat → B} {data : List B} {k : Nat} {b : B}
    (hb : data[k]? = some b) (h : Copied ram data k) :
    Copied (fun a => if a = k then b else ram a) data (k + 1) := by
  intro i c hi hc
  by_cases hik : i = k
  · rw [hik, hb] at hc
    exact (if_pos hik).trans (Option.some.inj hc)
  · exact (if_neg hik).trans (h i c (by omega) hc)

/-- Preparing changes the buffer and the writer only, and keeps the buffer in
    step with the writer. -/
theorem prepare_frame (h : Prepare L v v') :
    v'.word = v.word ∧ v'.flag = v.flag ∧ v'.reader = v.reader ∧ v'.irq = v.irq ∧
      v'.sent = v.sent ∧ v'.read = v.read ∧ v'.writer ≠ .away ∧
      (v.writer = .away → L.full v.word = false) ∧ (WriterOk L v → WriterOk L v') := by
  cases h with
  | check tag data hw hfull hlen =>
      refine ⟨rfl, rfl, rfl, rfl, rfl, rfl, nofun, fun _ => hfull, fun _ => ⟨hlen, ?_⟩⟩
      intro i b hi _
      omega
  | copy tag data k b hw hb =>
      refine ⟨rfl, rfl, rfl, rfl, rfl, rfl, nofun, fun h => ?_, fun hok => ?_⟩
      · rw [hw] at h
        cases h
      · unfold WriterOk at hok ⊢
        rw [hw] at hok
        exact ⟨hok.1, copied_succ hb hok.2⟩
  | copied tag data k hw hk =>
      refine ⟨rfl, rfl, rfl, rfl, rfl, rfl, nofun, fun h => ?_, fun hok => ?_⟩
      · rw [hw] at h
        cases h
      · unfold WriterOk at hok ⊢
        rw [hw] at hok
        exact ⟨hok.1, fun i b hi hb => hok.2 i b (by omega) hb⟩

theorem raw_prepare (hraw : Raw L v) (h : Prepare L v v') : Raw L v' := by
  rcases prepare_frame h with ⟨_, hflag, hreader, hirq, hsent, hread, _, _, hwriter⟩
  exact ⟨by rw [hflag, hraw.flag], by rw [hreader, hraw.reader], by rw [hirq, hraw.irq],
    by rw [hsent, hraw.sent], by rw [hread, hraw.read], hwriter hraw.writer⟩

theorem raw_prepares (hraw : Raw L v) (h : Relation.ReflTransGen (Prepare L) v v') : Raw L v' := by
  induction h with
  | refl => exact hraw
  | tail _ hprep ih => exact raw_prepare ih hprep

/-- Clearing the word of a raw channel empties it. -/
theorem inv_of_raw (hraw : Raw L v) : Inv L { v with word := L.zero } :=
  Or.inl ⟨L.full_zero, L.intr_zero, hraw.flag, hraw.reader, hraw.irq,
    by rw [hraw.read, hraw.sent], hraw.writer⟩

theorem inv_prepare (hinv : Inv L v) (h : Prepare L v v') : Inv L v' := by
  rcases prepare_frame h with
    ⟨hword, hflag, hreader, hirq, hsent, hread, _, hchecked, hwriter⟩
  rcases hinv with hempty | ⟨m, hfull⟩
  · exact Or.inl ⟨by rw [hword, hempty.full], by rw [hword, hempty.intr],
      by rw [hflag, hempty.flag], by rw [hreader, hempty.reader], by rw [hirq, hempty.irq],
      by rw [hread, hsent, hempty.read], hwriter hempty.writer⟩
  · -- The check of a full word fails, and past it the writer is not away.
    have hnot := hchecked hfull.writer
    rw [hfull.full] at hnot
    cases hnot

/-- The writer can post only into an empty channel. -/
theorem empty_of_writer (hinv : Inv L v) (hw : v.writer ≠ .away) : Empty L v := by
  rcases hinv with hempty | ⟨m, hfull⟩
  · exact hempty
  · exact absurd hfull.writer hw

/-- The reader can be reading only a posted message. -/
theorem full_of_reader (hinv : Inv L v) (hr : v.reader ≠ .away) : ∃ m, Full L v m := by
  rcases hinv with hempty | hfull
  · exact absurd hempty.reader hr
  · exact hfull

theorem full_of_irq (hinv : Inv L v) (hi : v.irq ≠ .away) : ∃ m, Full L v m := by
  rcases hinv with hempty | hfull
  · exact absurd hempty.irq hi
  · exact hfull

/-- The flag is up only for a posted message that the reader has not taken. -/
theorem full_of_flag (hinv : Inv L v) (hflag : v.flag = true) : ∃ m, Full L v m := by
  rcases hinv with hempty | hfull
  · rw [hempty.flag] at hflag
    cases hflag
  · exact hfull

/-- Until it has taken the message, a reader holds it through the flag. -/
theorem raised_of_reader (hinv : Inv L v) {r : Reader W T B} (hr : v.reader = r)
    (hreading : r.Reading) :
    ∃ m, Full L v m ∧ L.intr v.word = false ∧ v.flag = true ∧ v.irq = .away ∧ ReaderOk m r := by
  have haway : v.reader ≠ .away := by
    intro h
    rw [← hr, h] at hreading
    exact hreading
  rcases full_of_reader hinv haway with ⟨m, hfull⟩
  cases hfull.token with
  | posted _ _ hr' _ => exact absurd hr' haway
  | cleared _ _ hr' _ => exact absurd hr' haway
  | raised hintr hflag hok hi => exact ⟨m, hfull, hintr, hflag, hi, hr ▸ hok⟩
  | lowered _ _ hr' _ =>
      rw [hr] at hr'
      rcases hr' with rfl | rfl
      · exact hreading.elim
      · exact hreading.elim

/-- A reader that holds the message through the flag may move on to any place
    that agrees with it. -/
theorem inv_reading {m : Msg T B} {r : Reader W T B} (h : Full L v m)
    (hintr : L.intr v.word = false) (hflag : v.flag = true) (hi : v.irq = .away)
    (hr : ReaderOk m r) : Inv L { v with reader := r } :=
  Or.inr ⟨m, h.full, h.writer, h.sent, h.tag, h.size, h.len, h.ram, .raised hintr hflag hr hi⟩

theorem inv_post (hinv : Inv L v) {tag : T} {data : List B}
    (hw : v.writer = .posting tag data) :
    Inv L
      { v with
        word := L.post tag data.length
        writer := .away
        sent := v.sent ++ [⟨tag, data.length, data⟩] } := by
  have hempty := empty_of_writer hinv (by rw [hw]; nofun)
  have hok := hempty.writer
  unfold WriterOk at hok
  rw [hw] at hok
  exact Or.inr ⟨⟨tag, data.length, data⟩, L.full_post _ _, rfl, by rw [hempty.read],
    L.tag_post _ _, L.size_post _ _ hok.1, rfl, hok.2,
    .posted (L.intr_post _ _) hempty.flag hempty.reader (Or.inl hempty.irq)⟩

/-- The interrupt sees its mark only while the message is still its own. -/
theorem inv_irqSee (hinv : Inv L v) (hintr : L.intr v.word = true) :
    Inv L { v with irq := .loading } := by
  rcases hinv with hempty | ⟨m, hfull⟩
  · rw [hempty.intr] at hintr
    cases hintr
  · refine Or.inr ⟨m, hfull.full, hfull.writer, hfull.sent, hfull.tag, hfull.size, hfull.len,
      hfull.ram, ?_⟩
    cases hfull.token with
    | posted _ hflag hr _ => exact .posted hintr hflag hr (Or.inr (Or.inl rfl))
    | cleared hnot _ _ _ => rw [hintr] at hnot; cases hnot
    | raised hnot _ _ _ => rw [hintr] at hnot; cases hnot
    | lowered hnot _ _ _ => rw [hintr] at hnot; cases hnot

/-- The interrupt works on a message that nobody has taken over from it. -/
theorem posted_of_irq {m : Msg T B} (h : Full L v m) (hi : v.irq ≠ .away)
    (hraise : v.irq ≠ .raising) :
    L.intr v.word = true ∧ v.flag = false ∧ v.reader = .away ∧
      (v.irq = .loading ∨ v.irq = .storing v.word) := by
  cases h.token with
  | posted hintr hflag hr hi' => exact ⟨hintr, hflag, hr, hi'.resolve_left hi⟩
  | cleared _ _ _ hi' => exact absurd hi' hraise
  | raised _ _ _ hi' => exact absurd hi' hi
  | lowered _ _ _ hi' => exact absurd hi' hi

theorem inv_irqLoad (hinv : Inv L v) (hi : v.irq = .loading) :
    Inv L { v with irq := .storing v.word } := by
  rcases full_of_irq hinv (by rw [hi]; nofun) with ⟨m, hfull⟩
  rcases posted_of_irq hfull (by rw [hi]; nofun) (by rw [hi]; nofun) with ⟨hintr, hflag, hr, _⟩
  exact Or.inr ⟨m, hfull.full, hfull.writer, hfull.sent, hfull.tag, hfull.size, hfull.len,
    hfull.ram, .posted hintr hflag hr (Or.inr (Or.inr rfl))⟩

theorem inv_irqStore (hinv : Inv L v) {w : W} (hi : v.irq = .storing w) :
    Inv L { v with word := L.clearIntr w, irq := .raising } := by
  rcases full_of_irq hinv (by rw [hi]; nofun) with ⟨m, hfull⟩
  rcases posted_of_irq hfull (by rw [hi]; nofun) (by rw [hi]; nofun) with ⟨_, hflag, hr, hi'⟩
  -- The word that was loaded is still the word: only the interrupt holds it.
  have hw : w = v.word := by
    rw [hi] at hi'
    rcases hi' with hi' | hi'
    · cases hi'
    · exact Irq.storing.inj hi'
  rw [hw]
  exact Or.inr ⟨m, by rw [L.full_clearIntr, hfull.full], hfull.writer, hfull.sent,
    by rw [L.tag_clearIntr, hfull.tag], by rw [L.size_clearIntr, hfull.size], hfull.len,
    hfull.ram, .cleared (L.intr_clearIntr _) hflag hr rfl⟩

theorem inv_irqRaise (hinv : Inv L v) (hi : v.irq = .raising) :
    Inv L { v with flag := true, irq := .away } := by
  rcases full_of_irq hinv (by rw [hi]; nofun) with ⟨m, hfull⟩
  refine Or.inr ⟨m, hfull.full, hfull.writer, hfull.sent, hfull.tag, hfull.size, hfull.len,
    hfull.ram, ?_⟩
  cases hfull.token with
  | posted _ _ _ hi' => rw [hi] at hi'; rcases hi' with hi' | hi' | hi' <;> cases hi'
  | cleared hintr _ hr _ => exact .raised hintr rfl (by rw [hr]; trivial) rfl
  | raised _ _ _ hi' => rw [hi] at hi'; cases hi'
  | lowered _ _ _ hi' => rw [hi] at hi'; cases hi'

theorem inv_start (hinv : Inv L v) (room : Nat) (hflag : v.flag = true) :
    Inv L { v with reader := .sizing room } := by
  rcases full_of_flag hinv hflag with ⟨m, hfull⟩
  cases hfull.token with
  | posted _ hnot _ _ => rw [hflag] at hnot; cases hnot
  | cleared _ hnot _ _ => rw [hflag] at hnot; cases hnot
  | raised hintr _ _ hi => exact inv_reading hfull hintr hflag hi trivial
  | lowered _ hnot _ _ => rw [hflag] at hnot; cases hnot

/-- The next byte of a message that is being copied. -/
theorem copying_byte {m : Msg T B} (h : Full L v m) {done : List B}
    (hdone : done <+: m.payload) (hlt : done.length < m.len) :
    done ++ [v.ram done.length] <+: m.payload := by
  have hlt' : done.length < m.payload.length := by rw [← h.len]; exact hlt
  have hbyte := h.ram done.length _ hlt (List.getElem?_eq_getElem hlt')
  have htake : done = m.payload.take done.length := List.prefix_iff_eq_take.mp hdone
  rw [hbyte, List.prefix_iff_eq_take, List.length_append, List.length_singleton,
    List.take_add_one, List.getElem?_eq_getElem hlt', ← htake]
  rfl

/-- A reader with the message in hand is the last to touch the word. -/
theorem lowered_of_reader {m m' : Msg T B} (h : Full L v m)
    (hr : v.reader = .loading m' ∨ ∃ w, v.reader = .storing m' w) :
    m' = m ∧ L.intr v.word = false ∧ v.flag = false ∧ v.irq = .away ∧
      (v.reader = .loading m ∨ v.reader = .storing m v.word) := by
  cases h.token with
  | posted _ _ hr' _ => rw [hr'] at hr; rcases hr with hr | ⟨_, hr⟩ <;> cases hr
  | cleared _ _ hr' _ => rw [hr'] at hr; rcases hr with hr | ⟨_, hr⟩ <;> cases hr
  | raised _ _ hok _ =>
      rcases hr with hr | ⟨_, hr⟩
      · rw [hr] at hok
        exact hok.elim
      · rw [hr] at hok
        exact hok.elim
  | lowered hintr hflag hr' hi =>
      refine ⟨?_, hintr, hflag, hi, hr'⟩
      rcases hr with hr | ⟨w, hr⟩
      · rw [hr] at hr'
        rcases hr' with hr' | hr'
        · exact Reader.loading.inj hr'
        · cases hr'
      · rw [hr] at hr'
        rcases hr' with hr' | hr'
        · cases hr'
        · exact (Reader.storing.inj hr').1

theorem inv_lower (hinv : Inv L v) {m : Msg T B} (hr : v.reader = .lowering m) :
    Inv L { v with flag := false, reader := .loading m } := by
  rcases raised_of_reader hinv hr trivial with ⟨m', hfull, hintr, _, hi, hok⟩
  have hm : m = m' := hok
  rw [hm]
  exact Or.inr ⟨m', hfull.full, hfull.writer, hfull.sent, hfull.tag, hfull.size, hfull.len,
    hfull.ram, .lowered hintr rfl (Or.inl rfl) hi⟩

theorem inv_load (hinv : Inv L v) {m : Msg T B} (hr : v.reader = .loading m) :
    Inv L { v with reader := .storing m v.word } := by
  rcases full_of_reader hinv (by rw [hr]; nofun) with ⟨m', hfull⟩
  rcases lowered_of_reader hfull (Or.inl hr) with ⟨hm, hintr, hflag, hi, _⟩
  rw [hm]
  exact Or.inr ⟨m', hfull.full, hfull.writer, hfull.sent, hfull.tag, hfull.size, hfull.len,
    hfull.ram, .lowered hintr hflag (Or.inr rfl) hi⟩

theorem inv_store (hinv : Inv L v) {m : Msg T B} {w : W} (hr : v.reader = .storing m w) :
    Inv L { v with word := L.clearFull w, reader := .away, read := v.read ++ [m] } := by
  rcases full_of_reader hinv (by rw [hr]; nofun) with ⟨m', hfull⟩
  rcases lowered_of_reader hfull (Or.inr ⟨w, hr⟩) with ⟨hm, hintr, hflag, hi, hr'⟩
  have hw : w = v.word := by
    rw [hr] at hr'
    rcases hr' with hr' | hr'
    · cases hr'
    · exact (Reader.storing.inj hr').2
  refine Or.inl ⟨L.full_clearFull w, ?_, hflag, rfl, hi, ?_, ?_⟩
  · rw [L.intr_clearFull, hw, hintr]
  · rw [hm, hfull.sent]
  · unfold WriterOk
    rw [hfull.writer]
    trivial

/-- Every access keeps the invariant. -/
theorem inv_step (hinv : Inv L v) (h : Step L v v') : Inv L v' := by
  cases h with
  | prepare _ hprep => exact inv_prepare hinv hprep
  | post tag data hw => exact inv_post hinv hw
  | irqSee _ hintr => exact inv_irqSee hinv hintr
  | irqLoad hi => exact inv_irqLoad hinv hi
  | irqStore w hi => exact inv_irqStore hinv hi
  | irqRaise hi => exact inv_irqRaise hinv hi
  | start room _ hflag => exact inv_start hinv room hflag
  | refuse room hr =>
      rcases raised_of_reader hinv hr trivial with ⟨m, hfull, hintr, hflag, hi, _⟩
      exact inv_reading hfull hintr hflag hi trivial
  | size room hr =>
      rcases raised_of_reader hinv hr trivial with ⟨m, hfull, hintr, hflag, hi, _⟩
      exact inv_reading hfull hintr hflag hi hfull.size
  | tag size hr =>
      rcases raised_of_reader hinv hr trivial with ⟨m, hfull, hintr, hflag, hi, hok⟩
      exact inv_reading hfull hintr hflag hi ⟨hfull.tag, hok, List.nil_prefix⟩
  | byte tag size done hr hlt =>
      rcases raised_of_reader hinv hr trivial with ⟨m, hfull, hintr, hflag, hi, hok⟩
      rcases hok with ⟨htag, hsize, hdone⟩
      refine inv_reading hfull hintr hflag hi ⟨htag, hsize, copying_byte hfull hdone ?_⟩
      rw [← hsize]
      exact hlt
  | whole tag size done hr hle =>
      rcases raised_of_reader hinv hr trivial with ⟨m, hfull, hintr, hflag, hi, hok⟩
      rcases hok with ⟨htag, hsize, hdone⟩
      have hpayload : done = m.payload := by
        refine hdone.eq_of_length_le ?_
        rw [← hfull.len, ← hsize]
        exact hle
      refine inv_reading hfull hintr hflag hi ?_
      rw [htag, hsize, hpayload]
      exact rfl
  | lower m hr => exact inv_lower hinv hr
  | load m hr => exact inv_load hinv hr
  | store m w hr => exact inv_store hinv hr

/-- The invariant along any number of accesses. -/
theorem inv_steps (hinv : Inv L v) (h : Relation.ReflTransGen (Step L) v v') : Inv L v' := by
  induction h with
  | refl => exact hinv
  | tail _ hstep ih => exact inv_step ih hstep

/-- What the two parties see: everything read was sent, in order, and at most
    one message is missing. -/
theorem delivered (hinv : Inv L v) : v.sent = v.read ∨ ∃ m, v.sent = v.read ++ [m] := by
  rcases hinv with hempty | ⟨m, hfull⟩
  · exact Or.inl hempty.read.symm
  · exact Or.inr ⟨m, hfull.sent⟩

end Steps

end Slot

end Wujian100
