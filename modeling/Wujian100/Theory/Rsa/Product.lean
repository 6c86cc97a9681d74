import Mathlib.Data.List.GetD
import Wujian100.Core.Rsa.Exponent
import Wujian100.Theory.Rsa.Multiplier

/-!
# Products in the State Machine

What `me_iddmm_top` does for one product, with a multiplier that multiplies.

A product is two stretches of clocks. The operands are written word by word
(`Sending`): a word is on the wires in the clock after it was read, with its
address, so the multiplier is one word behind. Then the product is requested,
and its words are stored as they come (`Receiving`), in whatever clocks they
come. The words of the last product are shown instead, each a clock later.

## Main definitions

* `Multiplies`: What is asked of the multiplier.
* `HoldsNum`: A register file holds a number.
* `Sending`, `Receiving`: The two stretches of a product.
* `Standing`: Between two products.

## Theorems

* `emits_send`: The operands are written.
* `emits_receive`: The product is stored.
* `emits_square`, `emits_multiply`: The two products of the loop.
-/

namespace Wujian100

namespace Rsa

/-! ## The multiplier -/

/-- What is asked of the multiplier. `Idle b x y` says that it waits, with the
    words `x` and `y` in its memories, and `b` that something has been written
    since reset, and `m1` with it. `Shape` is whatever else is known of the way
    a product with a given value comes out. -/
structure Multiplies {M : Type} (mu : Multiplier M) (p : MeParams) (m clocks : Nat)
    (Shape : Nat → List SpOut → Prop)
    (Idle : Bool → (Nat → Nat) → (Nat → Nat) → M → Prop) : Prop where
  shows : ∀ {b x y s}, Idle b x y s → mu.out s = silent
  waits : ∀ {b x y s i}, Idle b x y s → i.wrEnaX = false → i.wrEnaY = false →
    i.taskReq = false → Idle b x y (mu.step s i)
  writes : ∀ {b x y s i}, Idle b x y s → i.wrEnaX = true → i.wrEnaY = true →
    i.taskReq = false → i.wrAddr < 2 ^ p.addrW → i.wrX < 2 ^ p.k → i.wrY < 2 ^ p.k →
    i.wrM1 = p.meM1 → Idle true (setWord x i.wrAddr i.wrX) (setWord y i.wrAddr i.wrY) (mu.step s i)
  runs : ∀ {s i}, i.wrEnaX = false → i.wrEnaY = false → i.taskReq = true →
    mu.step s i = mu.step s runIn
  task : ∀ {x y s}, Idle true x y s →
    value (2 ^ p.k) (2 ^ p.addrW) x * value (2 ^ p.k) (2 ^ p.addrW) y < 2 ^ p.bits * m →
    ∃ os t, Emits (fun s => mu.step s runIn) mu.out s os t ∧
      Delivers (2 ^ p.k) (2 ^ p.addrW)
        (montMul m (2 ^ p.bits) (value (2 ^ p.k) (2 ^ p.addrW) x)
          (value (2 ^ p.k) (2 ^ p.addrW) y)) os ∧
      os.length ≤ clocks ∧
      Shape (value (2 ^ p.k) (2 ^ p.addrW) x * value (2 ^ p.k) (2 ^ p.addrW) y) os ∧
      Idle true x y t

/-! ## Register files -/

/-- A register file holds a number. -/
structure HoldsNum (p : MeParams) (f : Nat → Nat) (z : Nat) : Prop where
  num : value (2 ^ p.k) (2 ^ p.addrW) f = z
  lt : ∀ l, l < 2 ^ p.addrW → f l < 2 ^ p.k

/-- A register file with the first words replaced. -/
def stored (f : Nat → Nat) (zs : List Nat) (l : Nat) : Nat :=
  if l < zs.length then zs.getD l 0 else f l

theorem stored_nil (f : Nat → Nat) : stored f [] = f := by
  funext l
  simp [stored]

/-- One more word. -/
theorem stored_append (f : Nat → Nat) (zs : List Nat) (z : Nat) :
    setWord (stored f zs) zs.length z = stored f (zs ++ [z]) := by
  funext l
  simp only [setWord, stored, List.length_append, List.length_singleton]
  rcases Nat.lt_trichotomy l zs.length with hlt | heq | hgt
  · rw [if_neg (by omega), if_pos hlt, if_pos (by omega), List.getD_append _ _ _ _ hlt]
  · subst heq
    rw [if_pos rfl, if_pos (by omega), List.getD_append_right _ _ _ _ (Nat.le_refl _)]
    simp
  · rw [if_neg (by omega), if_neg (by omega), if_neg (by omega)]

section HoldsNum

variable {p : MeParams} {f : Nat → Nat} {z : Nat}

theorem radix_pow (p : MeParams) : (2 ^ p.k) ^ 2 ^ p.addrW = 2 ^ p.bits := by
  rw [MeParams.bits, pow_mul]

theorem HoldsNum.num_lt (h : HoldsNum p f z) : z < 2 ^ p.bits := by
  rw [← h.num, ← radix_pow]
  exact value_lt h.lt

theorem HoldsNum.congr {g : Nat → Nat} (h : HoldsNum p f z)
    (hg : ∀ l, l < 2 ^ p.addrW → g l = f l) : HoldsNum p g z := by
  refine ⟨?_, ?_⟩
  · rw [value_congr hg, h.num]
  · intro l hl
    rw [hg l hl]
    exact h.lt l hl

/-- The words of a number, stored, hold it. -/
theorem holdsNum_stored (f : Nat → Nat) (hz : z < 2 ^ p.bits) :
    HoldsNum p (stored f (toDigits (2 ^ p.k) (2 ^ p.addrW) z)) z := by
  have hword : ∀ l, l < 2 ^ p.addrW →
      stored f (toDigits (2 ^ p.k) (2 ^ p.addrW) z) l
        = (toDigits (2 ^ p.k) (2 ^ p.addrW) z).getD l 0 := by
    intro l hl
    rw [stored, length_toDigits, if_pos hl]
  refine ⟨?_, ?_⟩
  · have hlist : (List.range (2 ^ p.addrW)).map
        (fun l => (toDigits (2 ^ p.k) (2 ^ p.addrW) z).getD l 0)
          = toDigits (2 ^ p.k) (2 ^ p.addrW) z := by
      refine List.ext_getElem (by simp) ?_
      intro l h1 h2
      rw [List.getElem_map, List.getElem_range, List.getD_eq_getElem _ _ h2]
    rw [value_congr hword, ← ofDigits_map_range, hlist, ofDigits_toDigits, radix_pow,
      Nat.mod_eq_of_lt hz]
  · intro l hl
    have hl' : l < (toDigits (2 ^ p.k) (2 ^ p.addrW) z).length := by rw [length_toDigits]; exact hl
    rw [hword l hl, List.getD_eq_getElem _ _ hl']
    exact toDigits_lt _ _ _ (Nat.two_pow_pos _) _ (List.getElem_mem hl')

end HoldsNum

/-! ## Clocks -/

/-- No input. -/
def noIn : MeIn where
  meStart := false
  meX := 0
  meXValid := false

/-- A clock without input. -/
def MeTop.tick {M : Type} (p : MeParams) (mu : Multiplier M) (s : MeTop M) : MeTop M :=
  s.step p mu noIn

/-- The word shown with `me_valid`. -/
def MeTop.word {M : Type} (s : MeTop M) : Option Nat :=
  if s.me.resultValid then some s.me.resultOut else none

/-- In the course of a run the inputs are not looked at. -/
theorem step_busy {M : Type} {p : MeParams} {mu : Multiplier M} {s : MeTop M}
    (hidle : s.me.currentState ≠ .idle) (h00 : s.me.currentState ≠ .state00) (i : MeIn) :
    s.step p mu i = s.tick p mu := by
  cases hst : s.me.currentState with
  | idle => exact absurd hst hidle
  | state00 => exact absurd hst h00
  | _ => simp only [MeTop.tick, MeTop.step, Me.step, hst]

/-- The registers a product keeps until its result comes. -/
structure Kept (base s : Me) : Prop where
  result : s.result = base.result
  result2 : s.result2 = base.result2
  yy : s.yy = base.yy
  loopCounter : s.loopCounter = base.loopCounter
  valid : s.resultValid = false

/-! ## Writing the operands -/

/-- The states that write operands, with the second one. The first is `result`. -/
inductive Sender : MeState → Type where
  | square : Sender .state10
  | multiply : Sender .state11
  | leave : Sender .state3

namespace Sender

/-- The state that stores the product. -/
def receiver {q : MeState} : Sender q → MeState
  | .square => .state20
  | .multiply => .state21
  | .leave => .state4

/-- The second operand. -/
def second {q : MeState} (sender : Sender q) (s : Me) : Nat → Nat :=
  match sender with
  | .square => s.result
  | .multiply => s.result2
  | .leave => fun l => if l = 0 then 1 else 0

theorem step_eq {q : MeState} (sender : Sender q) {p : MeParams} {s : Me} {i : MeIn} {o : SpOut}
    (hq : s.currentState = q) :
    s.step p i o
      = { s.send p sender.receiver (s.result s.wrAddr) (sender.second s s.wrAddr) with
          wrAddrD1 := s.wrAddr } := by
  cases sender <;> simp only [Me.step, hq, receiver, second]

theorem second_congr {q : MeState} (sender : Sender q) {base s : Me} (h : Kept base s) :
    sender.second s = sender.second base := by
  cases sender with
  | square => exact h.result
  | multiply => exact h.result2
  | leave => rfl

end Sender

section Products

variable {M : Type} {mu : Multiplier M} {p : MeParams} {m clocks : Nat}
  {Shape : Nat → List SpOut → Prop} {Idle : Bool → (Nat → Nat) → (Nat → Nat) → M → Prop}

/-- Between two products. -/
structure Between (Idle : Bool → (Nat → Nat) → (Nat → Nat) → M → Prop) (q : MeState) (base : Me)
    (s : MeTop M) : Prop where
  state : s.me.currentState = q
  kept : Kept base s.me
  taskReq : s.me.taskReq = false
  enaX : s.me.wrEnaX = false
  enaY : s.me.wrEnaY = false
  addr : s.me.wrAddr = 0
  idle : ∃ b x y, Idle b x y s.mul

/-- `j` words have been put on the wires to the multiplier, and all but the last
    are in its memories. -/
structure Sending (p : MeParams) (Idle : Bool → (Nat → Nat) → (Nat → Nat) → M → Prop)
    {q : MeState} (sender : Sender q) (base : Me) (j : Nat) (s : MeTop M) : Prop where
  state : s.me.currentState = q
  kept : Kept base s.me
  taskReq : s.me.taskReq = false
  enaX : s.me.wrEnaX = true
  enaY : s.me.wrEnaY = true
  addr : s.me.wrAddr = j % 2 ^ p.addrW
  addrD1 : s.me.wrAddrD1 = j - 1
  wrX : s.me.wrX = base.result (j - 1)
  wrY : s.me.wrY = sender.second base (j - 1)
  idle : ∃ b x y, Idle b x y s.mul ∧
    ∀ l, l + 1 < j → x l = base.result l ∧ y l = sender.second base l

/-- `result` after the words `zs` have come. -/
def resultWith (p : MeParams) (q : MeState) (base : Me) (zs : List Nat) : Nat → Nat :=
  match q with
  | .state20 => stored base.result zs
  | .state21 => stored base.result zs
  | .state4 => fun l => if l < zs.length then p.resultBackup l else base.result l
  | _ => base.result

/-- `result2` after the words `zs` have come. -/
def result2With (q : MeState) (base : Me) (zs : List Nat) : Nat → Nat :=
  match q with
  | .state01 => stored base.result2 zs
  | _ => base.result2

/-- A product has been requested and `zs` are the words that have come. -/
structure Receiving (p : MeParams) (q : MeState) (base : Me) (zs : List Nat) (s : Me) : Prop where
  state : s.currentState = q
  taskReq : s.taskReq = true
  enaX : s.wrEnaX = false
  enaY : s.wrEnaY = false
  addr : s.wrAddr = zs.length % 2 ^ p.addrW
  yy : s.yy = base.yy
  loopCounter : s.loopCounter = base.loopCounter
  result : s.result = resultWith p q base zs
  result2 : s.result2 = result2With q base zs

theorem word_of_kept {base : Me} {s : MeTop M} (h : Kept base s.me) : s.word = none := by
  rw [MeTop.word, h.valid]
  rfl

variable {q : MeState} {sender : Sender q} {base : Me} {s : MeTop M}

/-- The first word is put on the wires. -/
theorem sending_first (spec : Multiplies mu p m clocks Shape Idle) (h : Between Idle q base s)
    (sender : Sender q) : Sending p Idle sender base 1 (s.tick p mu) := by
  rcases h.idle with ⟨b, x, y, hidle⟩
  have hme : (s.tick p mu).me = { s.me with
      wrAddr := (0 + 1) % 2 ^ p.addrW, wrEnaX := true, wrX := base.result 0, wrEnaY := true
      wrY := sender.second base 0, wrAddrD1 := 0 } := by
    simp only [MeTop.tick, MeTop.step]
    rw [sender.step_eq h.state, Me.send, if_neg (by simp [h.enaX, h.enaY]), h.kept.result,
      sender.second_congr h.kept, h.addr]
  refine ⟨?_, ?_, ?_, ?_, ?_, ?_, ?_, ?_, ?_, b, x, y, ?_, fun l hl => by omega⟩
  · rw [hme]
    exact h.state
  · rw [hme]
    exact ⟨h.kept.result, h.kept.result2, h.kept.yy, h.kept.loopCounter, h.kept.valid⟩
  · rw [hme]
    exact h.taskReq
  all_goals first | rw [hme] | exact spec.waits hidle h.enaX h.enaY h.taskReq

/-- A word goes into the memories. -/
theorem idle_write (spec : Multiplies mu p m clocks Shape Idle) {j : Nat}
    (h : Sending p Idle sender base j s) (hj : 1 ≤ j) (hjn : j ≤ 2 ^ p.addrW)
    (hx : ∀ l, l < 2 ^ p.addrW → base.result l < 2 ^ p.k)
    (hy : ∀ l, l < 2 ^ p.addrW → sender.second base l < 2 ^ p.k) :
    ∃ x y, Idle true x y (s.tick p mu).mul ∧
      ∀ l, l < j → x l = base.result l ∧ y l = sender.second base l := by
  rcases h.idle with ⟨b, x, y, hidle, hwords⟩
  have hwrite : Idle true (setWord x (j - 1) (base.result (j - 1)))
      (setWord y (j - 1) (sender.second base (j - 1))) (s.tick p mu).mul := by
    have hlt : j - 1 < 2 ^ p.addrW := by omega
    have hw := spec.writes (i := s.me.mulIn p) hidle h.enaX h.enaY h.taskReq
      (by simpa [Me.mulIn, h.addrD1] using hlt) (by simpa [Me.mulIn, h.wrX] using hx _ hlt)
      (by simpa [Me.mulIn, h.wrY] using hy _ hlt) rfl
    simp only [Me.mulIn, h.addrD1, h.wrX, h.wrY] at hw
    simp only [MeTop.tick, MeTop.step, Me.mulIn, h.addrD1, h.wrX, h.wrY]
    exact hw
  refine ⟨_, _, hwrite, ?_⟩
  intro l hl
  by_cases hlast : l = j - 1
  · simp only [setWord, hlast, if_true, and_self]
  · simp only [setWord, if_neg hlast]
    exact hwords l (by omega)

/-- The next word is put on the wires. -/
theorem sending_tick (spec : Multiplies mu p m clocks Shape Idle) {j : Nat}
    (h : Sending p Idle sender base j s) (hj : 1 ≤ j) (hjn : j < 2 ^ p.addrW)
    (hx : ∀ l, l < 2 ^ p.addrW → base.result l < 2 ^ p.k)
    (hy : ∀ l, l < 2 ^ p.addrW → sender.second base l < 2 ^ p.k) :
    Sending p Idle sender base (j + 1) (s.tick p mu) := by
  rcases idle_write spec h hj (by omega) hx hy with ⟨x, y, hidle, hwords⟩
  have hmod : j % 2 ^ p.addrW = j := Nat.mod_eq_of_lt hjn
  have hne : ¬ (s.me.wrAddrD1 = 2 ^ p.addrW - 1 ∧ (s.me.wrEnaX || s.me.wrEnaY) = true) := by
    rw [h.addrD1]
    omega
  have hme : (s.tick p mu).me = { s.me with
      wrAddr := (j + 1) % 2 ^ p.addrW, wrEnaX := true, wrX := base.result j, wrEnaY := true
      wrY := sender.second base j, wrAddrD1 := j } := by
    simp only [MeTop.tick, MeTop.step]
    rw [sender.step_eq h.state, Me.send, if_neg hne, h.kept.result, sender.second_congr h.kept,
      h.addr, hmod]
  refine ⟨?_, ?_, ?_, ?_, ?_, ?_, ?_, ?_, ?_, true, x, y, hidle, fun l hl => hwords l (by omega)⟩
  · rw [hme]
    exact h.state
  · rw [hme]
    exact ⟨h.kept.result, h.kept.result2, h.kept.yy, h.kept.loopCounter, h.kept.valid⟩
  · rw [hme]
    exact h.taskReq
  all_goals
    rw [hme]
    try rfl

/-- After the last word the product is requested. -/
theorem receiving_sent (spec : Multiplies mu p m clocks Shape Idle)
    (h : Sending p Idle sender base (2 ^ p.addrW) s)
    (hx : ∀ l, l < 2 ^ p.addrW → base.result l < 2 ^ p.k)
    (hy : ∀ l, l < 2 ^ p.addrW → sender.second base l < 2 ^ p.k) :
    Receiving p sender.receiver base [] (s.tick p mu).me ∧ (s.tick p mu).word = none ∧
      ∃ x y, Idle true x y (s.tick p mu).mul ∧
        ∀ l, l < 2 ^ p.addrW → x l = base.result l ∧ y l = sender.second base l := by
  have hme : (s.tick p mu).me = { s.me with
      taskReq := true, wrAddr := 0, wrEnaX := false, wrEnaY := false
      currentState := sender.receiver, wrAddrD1 := s.me.wrAddr } := by
    simp only [MeTop.tick, MeTop.step]
    rw [sender.step_eq h.state, Me.send, if_pos (by simp [h.addrD1, h.enaX])]
  refine ⟨?_, ?_, idle_write spec h (Nat.two_pow_pos _) (Nat.le_refl _) hx hy⟩
  · rw [hme]
    refine ⟨rfl, rfl, rfl, rfl, ?_, h.kept.yy, h.kept.loopCounter, ?_, ?_⟩
    · rw [List.length_nil, Nat.zero_mod]
    · cases sender <;> simp [Sender.receiver, resultWith, stored_nil, h.kept.result]
    · cases sender <;> simp [Sender.receiver, result2With, h.kept.result2]
  · rw [MeTop.word, hme]
    exact word_of_kept h.kept

/-- The operands are written and the product requested. -/
theorem emits_send (spec : Multiplies mu p m clocks Shape Idle) (h : Between Idle q base s)
    (sender : Sender q) (hx : ∀ l, l < 2 ^ p.addrW → base.result l < 2 ^ p.k)
    (hy : ∀ l, l < 2 ^ p.addrW → sender.second base l < 2 ^ p.k) :
    ∃ t, Emits (MeTop.tick p mu) MeTop.word s (List.replicate (2 ^ p.addrW + 1) none) t ∧
      Receiving p sender.receiver base [] t.me ∧ t.word = none ∧
      ∃ x y, Idle true x y t.mul ∧
        ∀ l, l < 2 ^ p.addrW → x l = base.result l ∧ y l = sender.second base l := by
  have hpos : 0 < 2 ^ p.addrW := Nat.two_pow_pos _
  have hfirst := Emits.one (MeTop.tick p mu) MeTop.word s
  rw [word_of_kept h.kept] at hfirst
  rcases emits_silent (MeTop.tick p mu) MeTop.word
    (P := fun j t => 1 ≤ j ∧ Sending p Idle sender base j t) (n := 2 ^ p.addrW)
    (fun j t _ ht => word_of_kept ht.2.kept)
    (fun j t hj ht => ⟨by omega, sending_tick spec ht.2 ht.1 hj hx hy⟩) hpos
    ⟨Nat.le_refl 1, sending_first spec h sender⟩ with ⟨t, ht, _, hlast⟩
  have hone := Emits.one (MeTop.tick p mu) MeTop.word t
  rw [word_of_kept hlast.kept] at hone
  refine ⟨_, ?_, receiving_sent spec hlast hx hy⟩
  rw [show 2 ^ p.addrW + 1 = 1 + (2 ^ p.addrW - 1) + 1 by omega, List.replicate_add,
    List.replicate_add]
  exact (hfirst.append ht).append hone

end Products

/-! ## Storing the product -/

/-- The states that store a product. -/
def MeState.receives : MeState → Bool
  | .state01 => true
  | .state20 => true
  | .state21 => true
  | .state4 => true
  | _ => false

theorem granted_singleton (o : SpOut) :
    granted [o] = if o.taskGrant then [o.taskRes] else [] := by
  cases h : o.taskGrant <;> simp [granted, h]

theorem stored_snoc {f : Nat → Nat} {zs : List Nat} {a z : Nat} (ha : a = zs.length) :
    setWord (stored f zs) a z = stored f (zs ++ [z]) := by
  rw [ha, stored_append]

/-- One more word restored. -/
theorem restored_snoc {f g : Nat → Nat} {zs : List Nat} {a : Nat} (z : Nat) (ha : a = zs.length) :
    setWord (fun l => if l < zs.length then g l else f l) a (g a)
      = fun l => if l < (zs ++ [z]).length then g l else f l := by
  funext l
  simp only [setWord, List.length_append, List.length_singleton]
  by_cases hl : l = a
  · rw [if_pos hl, if_pos (by omega), hl]
  · rw [if_neg hl]
    by_cases hlt : l < zs.length
    · rw [if_pos hlt, if_pos (by omega)]
    · rw [if_neg hlt, if_neg (by omega)]

section Receiving

variable {p : MeParams} {q : MeState} {base me : Me} {zs : List Nat} {o : SpOut}

/-- A clock without a word. -/
theorem receiving_none (h : Receiving p q base zs me) (i : MeIn) (hq : q.receives = true)
    (hend : o.taskEnd = false) (hgrant : o.taskGrant = false) :
    Receiving p q base zs (me.step p i o) := by
  obtain ⟨hstate, hreq, henaX, henaY, haddr, hyy, hlc, hresult, hresult2⟩ := h
  have hstep : (me.step p i o).currentState = q ∧ (me.step p i o).taskReq = true ∧
      (me.step p i o).wrEnaX = false ∧ (me.step p i o).wrEnaY = false ∧
      (me.step p i o).wrAddr = me.wrAddr ∧ (me.step p i o).yy = me.yy ∧
      (me.step p i o).loopCounter = me.loopCounter ∧ (me.step p i o).result = me.result ∧
      (me.step p i o).result2 = me.result2 := by
    cases q <;> first
      | exact absurd hq (by decide)
      | simp [Me.step, hstate, Me.finish, hend, hgrant, hreq, henaX, henaY]
  obtain ⟨h1, h2, h3, h4, h5, h6, h7, h8, h9⟩ := hstep
  exact ⟨h1, h2, h3, h4, h5.trans haddr, h6.trans hyy, h7.trans hlc, h8.trans hresult,
    h9.trans hresult2⟩

/-- The registers after a clock with a word, whether or not it is the last. -/
theorem result_word (h : Receiving p q base zs me) (i : MeIn) (hq : q.receives = true)
    (hgrant : o.taskGrant = true) (hlen : zs.length < 2 ^ p.addrW) :
    (me.step p i o).wrEnaX = false ∧ (me.step p i o).wrEnaY = false ∧
      (me.step p i o).wrAddr = (zs ++ [o.taskRes]).length % 2 ^ p.addrW ∧
      (me.step p i o).result = resultWith p q base (zs ++ [o.taskRes]) ∧
      (me.step p i o).result2 = result2With q base (zs ++ [o.taskRes]) := by
  obtain ⟨hstate, hreq, henaX, henaY, haddr, hyy, hlc, hresult, hresult2⟩ := h
  -- The write address counts the words stored, so this one goes behind them.
  have hlast : me.wrAddr = zs.length := by
    rw [haddr]
    exact Nat.mod_eq_of_lt hlen
  rw [List.length_append, List.length_singleton]
  cases q with
  | state01 =>
      refine ⟨?_, ?_, ?_, ?_, ?_⟩
      case refine_5 =>
        rw [result2With, ← stored_snoc hlast, ← show me.result2 = stored _ _ from hresult2]
        simp [Me.step, hstate, Me.finish, hgrant, hreq]
      all_goals
        simp only [Me.step, hstate, Me.finish, hgrant, hreq]
        cases o.taskEnd <;> simp [henaX, henaY, hlast, hresult, resultWith]
  | state20 =>
      refine ⟨?_, ?_, ?_, ?_, ?_⟩
      case refine_4 =>
        rw [resultWith, ← stored_snoc hlast, ← show me.result = stored _ _ from hresult]
        simp [Me.step, hstate, Me.finish, hgrant, hreq]
      all_goals
        simp only [Me.step, hstate, Me.finish, hgrant, hreq]
        cases o.taskEnd <;> simp [henaX, henaY, hlast, hresult2, result2With]
  | state21 =>
      refine ⟨?_, ?_, ?_, ?_, ?_⟩
      case refine_4 =>
        rw [resultWith, ← stored_snoc hlast, ← show me.result = stored _ _ from hresult]
        simp [Me.step, hstate, Me.finish, hgrant, hreq]
      all_goals
        simp only [Me.step, hstate, Me.finish, hgrant, hreq]
        cases o.taskEnd <;> simp [henaX, henaY, hlast, hresult2, result2With]
  | state4 =>
      refine ⟨?_, ?_, ?_, ?_, ?_⟩
      case refine_4 =>
        rw [resultWith, ← restored_snoc o.taskRes hlast,
          ← show me.result = fun l => if l < zs.length then _ else _ from hresult]
        simp [Me.step, hstate, Me.finish, hgrant, hreq]
      all_goals
        simp only [Me.step, hstate, Me.finish, hgrant, hreq]
        cases o.taskEnd <;> simp [henaX, henaY, hlast, hresult2, result2With]
  | _ => exact absurd hq (by decide)

/-- A clock before the last word. -/
theorem receiving_step (h : Receiving p q base zs me) (i : MeIn) (hq : q.receives = true)
    (hend : o.taskEnd = false) (hlen : (zs ++ granted [o]).length ≤ 2 ^ p.addrW) :
    Receiving p q base (zs ++ granted [o]) (me.step p i o) := by
  rw [granted_singleton] at hlen ⊢
  cases hgrant : o.taskGrant with
  | false =>
      simp only [Bool.false_eq_true, if_false, List.append_nil]
      exact receiving_none h i hq hend hgrant
  | true =>
      rw [hgrant, if_pos rfl, List.length_append, List.length_singleton] at hlen
      rw [if_pos rfl]
      rcases result_word h i hq hgrant (by omega) with ⟨h3, h4, h5, h8, h9⟩
      have hstate := h.state
      have hreq := h.taskReq
      have hstep : (me.step p i o).currentState = q ∧ (me.step p i o).taskReq = true ∧
          (me.step p i o).yy = me.yy ∧ (me.step p i o).loopCounter = me.loopCounter := by
        cases q <;> first
          | exact absurd hq (by decide)
          | simp [Me.step, hstate, Me.finish, hend, hgrant, hreq]
      obtain ⟨h1, h2, h6, h7⟩ := hstep
      exact ⟨h1, h2, h3, h4, h5, h6.trans h.yy, h7.trans h.loopCounter, h8, h9⟩

/-- What is shown in the clock after an output of the multiplier. -/
def showsAfter (q : MeState) (o : SpOut) : Option Nat :=
  if q = .state4 ∧ o.taskGrant = true then some o.taskRes else none

theorem showsAfter_of_ne (h4 : q ≠ .state4) (o : SpOut) : showsAfter q o = none :=
  if_neg fun hc => h4 hc.1

/-- Only the last product is shown. -/
theorem word_step {M : Type} {mu : Multiplier M} {s : MeTop M}
    (h : Receiving p q base zs s.me) (hq : q.receives = true) (hvalid : q ≠ .state4 → s.word = none) :
    (s.tick p mu).word = showsAfter q (mu.out s.mul) := by
  have hstate := h.state
  have hreq := h.taskReq
  by_cases h4 : q = .state4
  · subst h4
    cases hgrant : (mu.out s.mul).taskGrant <;>
      simp [MeTop.word, MeTop.tick, MeTop.step, Me.step, hstate, hreq, hgrant, showsAfter]
  · have hv : s.me.resultValid = false := by
      have hw := hvalid h4
      rw [MeTop.word] at hw
      by_contra hne
      rw [Bool.not_eq_false] at hne
      rw [hne] at hw
      cases hw
    have hstep : (s.tick p mu).me.resultValid = false := by
      cases q <;> first
        | exact absurd hq (by decide)
        | exact absurd rfl h4
        | (simp only [MeTop.tick, MeTop.step, Me.step, hstate, Me.finish]
           (repeat' split) <;> exact hv)
    rw [showsAfter_of_ne h4, MeTop.word, hstep]
    rfl

/-- The clocks before the last word. -/
theorem emits_receiving {M : Type} {mu : Multiplier M} {m clocks : Nat}
    {Shape : Nat → List SpOut → Prop} {Idle : Bool → (Nat → Nat) → (Nat → Nat) → M → Prop}
    (spec : Multiplies mu p m clocks Shape Idle) (hq : q.receives = true) :
    ∀ (init : List SpOut) (s : MeTop M) (zs : List Nat) (t' : M),
      Emits (fun s => mu.step s runIn) mu.out s.mul init t' →
      (∀ o ∈ init, o.taskEnd = false) → Receiving p q base zs s.me →
      (zs ++ granted init).length ≤ 2 ^ p.addrW → (q ≠ .state4 → s.word = none) →
      ∃ ws t, Emits (MeTop.tick p mu) MeTop.word s ws t ∧
        ws ++ [t.word] = s.word :: init.map (showsAfter q) ∧
        Receiving p q base (zs ++ granted init) t.me ∧ t.mul = t' ∧
        (q ≠ .state4 → t.word = none) := by
  intro init
  induction init with
  | nil =>
      intro s zs t' hemits _ h _ hvalid
      have heq : s.mul = t' := hemits
      refine ⟨[], s, rfl, rfl, ?_, heq, hvalid⟩
      rw [granted_nil, List.append_nil]
      exact h
  | cons o rest ih =>
      intro s zs t' hemits hend h hlen hvalid
      have ho : mu.out s.mul = o := hemits.1
      have hsplit : granted (o :: rest) = granted [o] ++ granted rest := by
        rw [← granted_append]
        rfl
      rw [hsplit, ← List.append_assoc] at hlen ⊢
      have hlen1 : (zs ++ granted [o]).length ≤ 2 ^ p.addrW := by
        rw [List.length_append] at hlen
        omega
      -- One clock of the state machine beside one of the multiplier.
      have hmul : (s.tick p mu).mul = mu.step s.mul runIn := by
        simp only [MeTop.tick, MeTop.step]
        exact spec.runs h.enaX h.enaY h.taskReq
      have hword : (s.tick p mu).word = showsAfter q (mu.out s.mul) := word_step h hq hvalid
      have hnext := receiving_step h noIn hq (hend o (List.mem_cons_self ..)) hlen1
      rw [ho] at hword
      rcases ih (s.tick p mu) (zs ++ granted [o]) t' (by rw [hmul]; exact hemits.2)
        (fun o' ho' => hend o' (List.mem_cons_of_mem _ ho'))
        (by simp only [MeTop.tick, MeTop.step, ho]; exact hnext) hlen
        (fun h4 => by rw [hword, showsAfter_of_ne h4])
        with ⟨ws, t, hws, heq, hrecv, hmt, hvt⟩
      refine ⟨s.word :: ws, t, ⟨rfl, hws⟩, ?_, hrecv, hmt, hvt⟩
      rw [List.cons_append, heq, hword, List.map_cons]

/-- The clocks of a product, with the last word on the wires at the end. -/
structure Received {M : Type} (mu : Multiplier M) (p : MeParams) (clocks : Nat)
    (Shape : Nat → List SpOut → Prop) (Idle : Bool → (Nat → Nat) → (Nat → Nat) → M → Prop)
    (q : MeState) (base : Me) (prod z : Nat) (s t : MeTop M) (init : List SpOut) (r : Nat)
    (zs : List Nat) : Prop where
  emits : Emits (MeTop.tick p mu) MeTop.word s (none :: init.map (showsAfter q)) (t.tick p mu)
  word : (t.tick p mu).word = showsAfter q (lastOut r)
  receiving : Receiving p q base zs t.me
  out : mu.out t.mul = lastOut r
  words : zs ++ [r] = toDigits (2 ^ p.k) (2 ^ p.addrW) z
  granted : granted (init ++ [lastOut r]) = toDigits (2 ^ p.k) (2 ^ p.addrW) z
  shape : Shape prod (init ++ [lastOut r])
  length : init.length + 1 ≤ clocks
  idle : ∃ x y, Idle true x y (t.tick p mu).mul

theorem Received.length_lt {M : Type} {mu : Multiplier M} {clocks : Nat}
    {Shape : Nat → List SpOut → Prop} {Idle : Bool → (Nat → Nat) → (Nat → Nat) → M → Prop}
    {prod z r : Nat} {s t : MeTop M} {init : List SpOut}
    (h : Received mu p clocks Shape Idle q base prod z s t init r zs) :
    zs.length < 2 ^ p.addrW := by
  have hlen := congrArg List.length h.words
  rw [List.length_append, List.length_singleton, length_toDigits] at hlen
  omega

/-- The state machine beside a task of the multiplier. -/
theorem received_of_task {M : Type} {mu : Multiplier M} {m clocks : Nat}
    {Shape : Nat → List SpOut → Prop} {Idle : Bool → (Nat → Nat) → (Nat → Nat) → M → Prop}
    (spec : Multiplies mu p m clocks Shape Idle) {s : MeTop M} {t' : M} {x y : Nat → Nat}
    {prod z : Nat} {os : List SpOut} (h : Receiving p q base [] s.me) (hq : q.receives = true)
    (hword : s.word = none) (hemits : Emits (fun s => mu.step s runIn) mu.out s.mul os t')
    (hdel : Delivers (2 ^ p.k) (2 ^ p.addrW) z os) (hlen : os.length ≤ clocks)
    (hshape : Shape prod os) (hidle : Idle true x y t') :
    ∃ t init r zs, os = init ++ [lastOut r] ∧
      Received mu p clocks Shape Idle q base prod z s t init r zs := by
  rcases hdel.ends with ⟨init, r, rfl, hend⟩
  have hwords := hdel.words
  rw [granted_append, granted_lastOut, granted_nil] at hwords
  have hcount : (granted init).length + 1 = 2 ^ p.addrW := by
    have hl := congrArg List.length hwords
    rw [List.length_append, List.length_singleton, length_toDigits] at hl
    exact hl
  -- The multiplier up to its last word, and the last word.
  rcases emits_split hemits with ⟨u', hinit, hlast⟩
  rcases emits_receiving spec hq init s [] u' hinit hend h (by rw [List.nil_append]; omega)
    (fun _ => hword) with ⟨ws, t, hws, heq, hrecv, hmt, hvt⟩
  have hout : mu.out t.mul = lastOut r := by
    rw [hmt]
    exact hlast.1
  refine ⟨t, init, r, granted init, rfl, ?_, ?_, hrecv, hout, hwords, hdel.words, hshape, ?_, ?_⟩
  · have hall := hws.append (Emits.one (MeTop.tick p mu) MeTop.word t)
    rw [heq, hword] at hall
    exact hall
  · rw [word_step hrecv hq hvt, hout]
  · rw [List.length_append, List.length_singleton] at hlen
    exact hlen
  · refine ⟨x, y, ?_⟩
    have hmul : (t.tick p mu).mul = mu.step t.mul runIn := by
      simp only [MeTop.tick, MeTop.step]
      exact spec.runs hrecv.enaX hrecv.enaY hrecv.taskReq
    have heqt : mu.step u' runIn = t' := hlast.2
    rw [hmul, hmt, heqt]
    exact hidle

theorem emits_receive {M : Type} {mu : Multiplier M} {m clocks : Nat}
    {Shape : Nat → List SpOut → Prop} {Idle : Bool → (Nat → Nat) → (Nat → Nat) → M → Prop}
    (spec : Multiplies mu p m clocks Shape Idle) {s : MeTop M} {x y f g : Nat → Nat} {a b : Nat}
    (h : Receiving p q base [] s.me) (hq : q.receives = true) (hword : s.word = none)
    (hidle : Idle true x y s.mul) (hf : HoldsNum p f a) (hg : HoldsNum p g b)
    (hxy : ∀ l, l < 2 ^ p.addrW → x l = f l ∧ y l = g l) (hab : a * b < 2 ^ p.bits * m) :
    ∃ t init r zs, Received mu p clocks Shape Idle q base (a * b)
      (montMul m (2 ^ p.bits) a b) s t init r zs := by
  have hx : value (2 ^ p.k) (2 ^ p.addrW) x = a := by
    rw [value_congr fun l hl => (hxy l hl).1, hf.num]
  have hy : value (2 ^ p.k) (2 ^ p.addrW) y = b := by
    rw [value_congr fun l hl => (hxy l hl).2, hg.num]
  rcases spec.task hidle (by rw [hx, hy]; exact hab) with ⟨os, t', hemits, hdel, hlen, hshape, hidle'⟩
  rw [hx, hy] at hdel hshape
  rcases received_of_task spec h hq hword hemits hdel hlen hshape hidle' with
    ⟨t, init, r, zs, _, hr⟩
  exact ⟨t, init, r, zs, hr⟩

/-- Beside the state machine the multiplier runs on its own. -/
theorem mul_receiving {M : Type} {mu : Multiplier M} {m clocks : Nat}
    {Shape : Nat → List SpOut → Prop} {Idle : Bool → (Nat → Nat) → (Nat → Nat) → M → Prop}
    (spec : Multiplies mu p m clocks Shape Idle) (hq : q.receives = true) {s : MeTop M} {t' : M}
    {init : List SpOut} (hemits : Emits (fun s => mu.step s runIn) mu.out s.mul init t')
    (hend : ∀ o ∈ init, o.taskEnd = false) (h : Receiving p q base [] s.me)
    (hlen : (granted init).length ≤ 2 ^ p.addrW) (hword : s.word = none) {k : Nat}
    (hk : k ≤ init.length) :
    ((MeTop.tick p mu)^[k] s).mul = (fun s => mu.step s runIn)^[k] s.mul ∧
      ((MeTop.tick p mu)^[k] s).me.currentState = q := by
  rcases exists_cut hk with ⟨js, ks, rfl, rfl⟩
  rcases emits_split hemits with ⟨u', hjs, _⟩
  have hlen' : ([] ++ granted js).length ≤ 2 ^ p.addrW := by
    rw [granted_append, List.length_append] at hlen
    rw [List.nil_append]
    omega
  rcases emits_receiving spec hq js s [] u' hjs (fun o ho => hend o (List.mem_append_left _ ho)) h
    hlen' (fun _ => hword) with ⟨ws, t, hws, heq, hrecv, hmt, _⟩
  have hcount : ws.length = js.length := by
    have hl := congrArg List.length heq
    simpa using hl
  rw [← hcount, ← hws.iterate, hmt, hcount, hjs.iterate]
  exact ⟨rfl, hrecv.state⟩

end Receiving

/-! ## Products -/

section Standing

variable {M : Type} {mu : Multiplier M} {p : MeParams} {m clocks : Nat}
  {Shape : Nat → List SpOut → Prop} {Idle : Bool → (Nat → Nat) → (Nat → Nat) → M → Prop}

/-- Between two products, with the numbers in the register files. -/
structure Standing (p : MeParams) (Idle : Bool → (Nat → Nat) → (Nat → Nat) → M → Prop)
    (q : MeState) (a a2 yy lc : Nat) (s : MeTop M) : Prop where
  state : s.me.currentState = q
  valid : s.me.resultValid = false
  taskReq : s.me.taskReq = false
  enaX : s.me.wrEnaX = false
  enaY : s.me.wrEnaY = false
  addr : s.me.wrAddr = 0
  result : HoldsNum p s.me.result a
  result2 : HoldsNum p s.me.result2 a2
  yy : s.me.yy = yy
  lc : s.me.loopCounter = lc
  idle : ∃ b x y, Idle b x y s.mul

variable {q : MeState} {a a2 yy lc : Nat} {s : MeTop M}

theorem Standing.between (h : Standing p Idle q a a2 yy lc s) : Between Idle q s.me s :=
  ⟨h.state, ⟨rfl, rfl, rfl, rfl, h.valid⟩, h.taskReq, h.enaX, h.enaY, h.addr, h.idle⟩

/-- What comes after a product other than the last. -/
theorem Received.standing {base : Me} {prod z r : Nat} {s t : MeTop M} {init : List SpOut}
    {zs : List Nat} (h : Received mu p clocks Shape Idle q base prod z s t init r zs)
    (hq : q.receives = true) (h4 : q ≠ .state4) {a a2 yy lc : Nat} {next : MeState}
    (hstate : (t.tick p mu).me.currentState = next) (hreq : (t.tick p mu).me.taskReq = false)
    (hyy : (t.tick p mu).me.yy = yy) (hlc : (t.tick p mu).me.loopCounter = lc)
    (hresult : HoldsNum p (resultWith p q base (zs ++ [r])) a)
    (hresult2 : HoldsNum p (result2With q base (zs ++ [r])) a2) :
    Standing p Idle next a a2 yy lc (t.tick p mu) := by
  have hgrant : (mu.out t.mul).taskGrant = true := by rw [h.out]; rfl
  have hres : (mu.out t.mul).taskRes = r := by rw [h.out]; rfl
  rcases result_word h.receiving noIn hq hgrant h.length_lt with ⟨henaX, henaY, haddr, hr, hr2⟩
  rw [hres] at haddr hr hr2
  have hvalid : (t.tick p mu).me.resultValid = false := by
    have hw := h.word
    rw [showsAfter_of_ne h4, MeTop.word] at hw
    by_contra hne
    rw [Bool.not_eq_false] at hne
    rw [hne] at hw
    cases hw
  refine ⟨hstate, hvalid, hreq, henaX, henaY, ?_, ?_, ?_, hyy, hlc, ?_⟩
  · simp only [MeTop.tick, MeTop.step]
    rw [haddr, h.words, length_toDigits, Nat.mod_self]
  · simp only [MeTop.tick, MeTop.step]
    rw [hr]
    exact hresult
  · simp only [MeTop.tick, MeTop.step]
    rw [hr2]
    exact hresult2
  · rcases h.idle with ⟨x, y, hidle⟩
    exact ⟨true, x, y, hidle⟩

/-- Nothing is shown before the last product. -/
theorem Received.emits_none {base : Me} {prod z r : Nat} {s t : MeTop M} {init : List SpOut}
    {zs : List Nat} (h : Received mu p clocks Shape Idle q base prod z s t init r zs)
    (h4 : q ≠ .state4) :
    Emits (MeTop.tick p mu) MeTop.word s (List.replicate (init.length + 1) none) (t.tick p mu) := by
  have hmap : init.map (showsAfter q) = List.replicate init.length none := by
    rw [List.map_congr_left (g := fun _ => none) fun o _ => showsAfter_of_ne h4 o,
      List.map_const']
  have hemits := h.emits
  rw [hmap] at hemits
  exact hemits

/-- The clocks of a product. -/
def productClocks (p : MeParams) (clocks : Nat) : Nat :=
  2 ^ p.addrW + 1 + clocks

/-- The numbers in the registers are below the modulus, so products are too. -/
theorem lt_bound {a b : Nat} (ha : a < 2 ^ p.bits) (hb : b < m) : a * b < 2 ^ p.bits * m :=
  Nat.mul_lt_mul'' ha hb

variable (spec : Multiplies mu p m clocks Shape Idle) (hm : 0 < m) (hmR : m < 2 ^ p.bits)

include spec hm hmR in
/-- A squaring. -/
theorem emits_square (h : Standing p Idle .state10 a a2 yy lc s) (ha : a < m) :
    ∃ d t, d ≤ productClocks p clocks ∧
      Emits (MeTop.tick p mu) MeTop.word s (List.replicate d none) t ∧
      Standing p Idle
        (if yy.testBit (p.bits - 1) then .state11 else if lc = p.bits - 1 then .state3 else .state10)
        (montMul m (2 ^ p.bits) a a) a2 (yy * 2 % 2 ^ p.bits)
        (if lc = p.bits - 1 then lc else lc + 1) t := by
  rcases emits_send spec h.between .square h.result.lt h.result.lt with
    ⟨u, hu, hrecv, hword, x, y, hidle, hxy⟩
  rcases emits_receive spec hrecv rfl hword hidle h.result h.result hxy
    (lt_bound h.result.num_lt ha) with ⟨t, init, r, zs, hr⟩
  refine ⟨2 ^ p.addrW + 1 + (init.length + 1), t.tick p mu, ?_, ?_, ?_⟩
  · have := hr.length
    rw [productClocks]
    omega
  · rw [List.replicate_add]
    exact hu.append (hr.emits_none nofun)
  · have hst : t.me.currentState = .state20 := hr.receiving.state
    have hyy : t.me.yy = yy := hr.receiving.yy.trans h.yy
    have hlc : t.me.loopCounter = lc := hr.receiving.loopCounter.trans h.lc
    refine hr.standing rfl nofun ?_ ?_ ?_ ?_ ?_ ?_
    · simp [MeTop.tick, MeTop.step, Me.step, hst, hr.out, lastOut, Me.finish, hr.receiving.taskReq,
        hyy, hlc]
    · simp [MeTop.tick, MeTop.step, Me.step, hst, hr.out, lastOut, Me.finish, hr.receiving.taskReq]
    · simp [MeTop.tick, MeTop.step, Me.step, hst, hr.out, lastOut, Me.finish, hr.receiving.taskReq,
        hyy]
    · simp [MeTop.tick, MeTop.step, Me.step, hst, hr.out, lastOut, Me.finish, hr.receiving.taskReq,
        hlc]
    · change HoldsNum p (stored s.me.result (zs ++ [r])) _
      rw [hr.words]
      exact holdsNum_stored _ (Nat.lt_trans (montMul_lt hm) hmR)
    · exact h.result2

include spec hm hmR in
/-- A multiplication by `result2`. -/
theorem emits_multiply (h : Standing p Idle .state11 a a2 yy lc s) (ha2 : a2 < m) :
    ∃ d t, d ≤ productClocks p clocks ∧
      Emits (MeTop.tick p mu) MeTop.word s (List.replicate d none) t ∧
      Standing p Idle (if lc = p.bits - 1 then .state3 else .state10)
        (montMul m (2 ^ p.bits) a a2) a2 yy lc t := by
  rcases emits_send spec h.between .multiply h.result.lt h.result2.lt with
    ⟨u, hu, hrecv, hword, x, y, hidle, hxy⟩
  rcases emits_receive spec hrecv rfl hword hidle h.result h.result2 hxy
    (lt_bound h.result.num_lt ha2) with ⟨t, init, r, zs, hr⟩
  refine ⟨2 ^ p.addrW + 1 + (init.length + 1), t.tick p mu, ?_, ?_, ?_⟩
  · have := hr.length
    rw [productClocks]
    omega
  · rw [List.replicate_add]
    exact hu.append (hr.emits_none nofun)
  · have hst : t.me.currentState = .state21 := hr.receiving.state
    have hlc : t.me.loopCounter = lc := hr.receiving.loopCounter.trans h.lc
    refine hr.standing rfl nofun ?_ ?_ ?_ ?_ ?_ ?_
    · simp [MeTop.tick, MeTop.step, Me.step, hst, hr.out, lastOut, Me.finish, hr.receiving.taskReq,
        hlc]
    · simp [MeTop.tick, MeTop.step, Me.step, hst, hr.out, lastOut, Me.finish, hr.receiving.taskReq]
    · simp [MeTop.tick, MeTop.step, Me.step, hst, hr.out, lastOut, Me.finish, hr.receiving.taskReq,
        hr.receiving.yy, h.yy]
    · simp [MeTop.tick, MeTop.step, Me.step, hst, hr.out, lastOut, Me.finish, hr.receiving.taskReq,
        hlc]
    · change HoldsNum p (stored s.me.result (zs ++ [r])) _
      rw [hr.words]
      exact holdsNum_stored _ (Nat.lt_trans (montMul_lt hm) hmR)
    · exact h.result2

end Standing

end Rsa

end Wujian100
