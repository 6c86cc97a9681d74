import Wujian100.Theory.Rsa.Accelerator

/-!
# Any Number of Operands

The runs of the accelerator, one after another.

A session is what the surroundings do for one operand: its 64 words go to the
forward FIFO, in any clocks, and the start register is set, before, in between
or after. As the start waits for all the words, a run cannot begin before the
session has given all it gives. The session lasts until the result is out, or at
least for as many clocks as a run can take; the backward FIFO has room for a
result when it begins.

The words that go to the backward FIFO in a session are those of its result and
no others, and after it everything is ready for the next one, whatever the
operands before it have been.

Neither of the conditions can go. `rd_rdy` stays high until the controller is idle
again, so words that are sent during a run are taken from the forward FIFO and lost;
and when the backward FIFO has no room, the controller goes on after the fourth FIFO
word of a word as if it had been taken.

## Main definitions

* `sent`: The words for the forward FIFO.
* `Accelerator.outs`: The words for the backward FIFO.
* `Session`, `Sessions`: What the surroundings do.

## Theorems

* `started_run`: A run, from the start on.
* `loading_or_started`: Up to the start.
* `session_served`: One operand.
* `sessions_served`: Any number of operands.
* `powers_served`: The shipped configuration, from reset.
* `words_lost`: What is lost otherwise.
-/

namespace Wujian100

namespace Rsa

/-! ## From the start on -/

section Started

variable {M : Type} {mu : Multiplier M} {p : MeParams} {m clocks : Nat}
  {Idle : Bool → (Nat → Nat) → (Nat → Nat) → M → Prop}
  {s : Accelerator M} {is : List AcceleratorIn} {x z c : Nat}

/-- The start and the reading, up to the clock in which the exponentiation gets
    its last word. -/
theorem traces_reading {Shape : Nat → List SpOut → Prop}
    (spec : Multiplies mu p m clocks Shape Idle) (hv : p.Valid m) (hk : p.k = 128)
    (hw : p.addrW = 4) (h : AccReady p Idle (operand x) c s) {st i : AcceleratorIn}
    (hst : st.regState0 ≠ 0) (hlen : is.length = 64)
    (hquiet : ∀ j ∈ st :: (is ++ [i]), j.fwrVld = false) :
    ∃ t, Traces (Accelerator.step p mu) Accelerator.pushed s (st :: (is ++ [i]))
        (List.replicate 66 none) t ∧
      Waiting [] c t ∧ Feeding p Idle (wordsOf p x) (2 ^ p.addrW) t.me := by
  have hread0 := reading_start spec h hst (hquiet st List.mem_cons_self)
  have hfirst := Traces.one (Accelerator.step p mu) Accelerator.pushed s st
  rw [h.pushed] at hfirst
  rcases trace_count (Accelerator.step p mu) Accelerator.pushed
    (P := Reading p Idle x c) (Q := fun i => i.fwrVld = false) (o := fun _ => none) (n := 64)
    (fun k s _ hR => hR.pushed)
    (fun k s i hlt hR hi => reading_step spec hv hk hw hR hlt hi) is 0 _ (by omega) hread0
    (fun j hj => hquiet j (List.mem_cons_of_mem _ (List.mem_append_left _ hj))) with
    ⟨t, ht, hread⟩
  rw [hlen, Nat.zero_add] at hread
  rw [hlen, List.map_const', List.length_range] at ht
  have hlast := Traces.one (Accelerator.step p mu) Accelerator.pushed t i
  rw [hread.pushed] at hlast
  have hi := hquiet i (List.mem_cons_of_mem _ (List.mem_append_right _ List.mem_cons_self))
  exact ⟨_, hfirst.append (ht.append hlast), waiting_start spec hv hk hw hread hi⟩

/-- The exponentiation, up to its last word. -/
theorem traces_power
    (spec : Multiplies mu p m clocks (fun prod os => prod < m → Direct os) Idle)
    (hv : p.Valid m) (hk : p.k = 128) (hw : p.addrW = 4) (hx : x < 2 ^ p.bits)
    (hwait : Waiting [] c s) (hfeed : Feeding p Idle (wordsOf p x) (2 ^ p.addrW) s.me)
    (hlen : powerClocks p clocks ≤ is.length) (hquiet : ∀ i ∈ is, i.fwrVld = false) :
    ∃ js ks t, is = js ++ ks ∧ js.length ≤ powerClocks p clocks ∧
      Traces (Accelerator.step p mu) Accelerator.pushed s js (List.replicate js.length none) t ∧
      Writing p Idle (x ^ effective p.meY % m) c 0 t := by
  rcases emits_power spec hv hfeed (holdsNum_wordsOf hx) with
    ⟨d, os, u, a, hemits, hgranted, ⟨ha, hdirect⟩, hclocks, hready⟩
  -- The last product is with one, so its words come in consecutive clocks.
  rcases shows_direct (hdirect ha) with ⟨e, hshows⟩
  have hwords : (granted os).length = 16 := by rw [hgranted, length_toDigits, hw]; rfl
  have hsum : e + 16 = os.length := by
    have hlens := congrArg List.length hshows
    simpa [hwords] using hlens.symm
  rw [hshows, ← List.append_assoc, ← List.replicate_add] at hemits
  rcases emits_split hemits with ⟨v, hsilent, hcome⟩
  rcases exists_cut (n := d + e) (by omega : d + e ≤ is.length) with ⟨wait, rest, rfl, hwt⟩
  rw [List.length_append, hwt] at hlen
  rcases trace_waiting wait s hwait hsilent hwt
    (fun i hi => hquiet i (List.mem_append_left _ hi)) with ⟨t, ht, hwait', hme⟩
  rcases exists_cut (n := 16) (by omega : 16 ≤ rest.length) with ⟨come, ks, rfl, hcol⟩
  have hz : ∀ l, l < 16 → (([] : List Nat) ++ granted os).getD l 0
      = x ^ effective p.meY % m / (2 ^ 128) ^ l % 2 ^ 128 := by
    intro l hl
    rw [List.nil_append, hgranted, toDigits_eq_map, hw, hk,
      List.getD_eq_getElem _ _ (by simpa using hl)]
    simp
  have hne : granted os ≠ [] := List.ne_nil_of_length_pos (by omega)
  rw [← hme] at hcome
  rcases trace_collect hready (granted os) [] come t hwait' hcome hne (by simpa using hwords)
    (by omega)
    (fun i hi => hquiet i (List.mem_append_right _ (List.mem_append_left _ hi))) hz with
    ⟨t', ht', hwrite⟩
  refine ⟨wait ++ come, ks, t', ?_, ?_, ?_, hwrite⟩
  · rw [List.append_assoc]
  · rw [List.length_append]
    omega
  · rw [List.length_append, hwt, List.replicate_add]
    exact ht.append ht'

/-- What is shown a clock later. -/
def behind {α : Type} (f : Nat → α) (k : Nat) : Option α :=
  if 0 < k then some (f (k - 1)) else none

theorem map_behind {α : Type} (f : Nat → α) (n : Nat) :
    (List.range n).map (behind f) ++ [behind f n] = none :: ((List.range n).map f).map some := by
  have hsucc : (List.range n).map (behind f) ++ [behind f n]
      = (List.range (n + 1)).map (behind f) := by
    rw [List.range_succ, List.map_append, List.map_singleton]
  rw [hsucc, List.range_succ_eq_map, List.map_cons, List.map_map, List.map_map]
  rfl

/-- The words of the result go out. -/
theorem traces_writing {Shape : Nat → List SpOut → Prop}
    (spec : Multiplies mu p m clocks Shape Idle) (hc : c ≤ 64) (h : Writing p Idle z c 0 s)
    {i : AcceleratorIn} (hlen : is.length = 64) (hquiet : ∀ j ∈ is ++ [i], j.fwrVld = false) :
    ∃ t, Traces (Accelerator.step p mu) Accelerator.pushed s (is ++ [i])
        (none :: (operand z).map some) t ∧ AccReady p Idle [] (c + 64) t := by
  rcases trace_count (Accelerator.step p mu) Accelerator.pushed
    (P := Writing p Idle z c) (Q := fun i => i.fwrVld = false) (o := behind (operandWord z))
    (n := 64) (fun k s hlt hW => hW.pushed hc (by omega))
    (fun k s i hlt hW hi => writing_step spec hW hc hlt hi) is 0 s (by omega) h
    (fun j hj => hquiet j (List.mem_append_left _ hj)) with ⟨t, ht, hwrite⟩
  rw [hlen, Nat.zero_add] at hwrite
  simp only [hlen, Nat.zero_add] at ht
  have hlast := Traces.one (Accelerator.step p mu) Accelerator.pushed t i
  have hpushed : t.pushed = behind (operandWord z) 64 := hwrite.pushed hc (Nat.le_refl _)
  rw [hpushed] at hlast
  have hi := hquiet i (List.mem_append_right _ List.mem_cons_self)
  refine ⟨_, ?_, ready_written spec hwrite hi⟩
  have hall := ht.append hlast
  rw [map_behind] at hall
  rw [operand_eq_map]
  exact hall

/-- The most clocks a run takes. -/
def runClocks (p : MeParams) (clocks : Nat) : Nat := 131 + powerClocks p clocks

/-- A list cut before and after its element at a given place. -/
theorem exists_cut_one {α : Type} {as : List α} {n : Nat} (h : n < as.length) :
    ∃ bs a cs, as = bs ++ [a] ++ cs ∧ bs.length = n := by
  rcases exists_cut (Nat.le_of_lt h) with ⟨bs, rest, rfl, hbs⟩
  cases rest with
  | nil =>
      rw [List.append_nil] at h
      omega
  | cons a cs => exact ⟨bs, a, cs, by simp, hbs⟩

/-- A run, from the start on. -/
theorem started_run (spec : Multiplies mu p m clocks (fun prod os => prod < m → Direct os) Idle)
    (hv : p.Valid m) (hk : p.k = 128) (hw : p.addrW = 4) (hx : x < 2 ^ p.bits) (hc : c ≤ 64)
    (h : AccReady p Idle (operand x) c s) {st : AcceleratorIn} {post : List AcceleratorIn}
    (hst : st.regState0 ≠ 0) (hquiet : ∀ i ∈ st :: post, i.fwrVld = false)
    (hlen : runClocks p clocks ≤ post.length) :
    ∃ busy rest d t, st :: post = busy ++ rest ∧ busy.length ≤ runClocks p clocks ∧
      Traces (Accelerator.step p mu) Accelerator.pushed s busy
        (List.replicate d none ++ (operand (x ^ effective p.meY % m)).map some) t ∧
      AccReady p Idle [] (c + 64) t := by
  rw [runClocks] at hlen
  rcases exists_cut_one (n := 64) (by omega : 64 < post.length) with ⟨rd, i, post, rfl, hrd⟩
  have hquiet1 : ∀ j ∈ st :: (rd ++ [i]), j.fwrVld = false :=
    fun j hj => hquiet j (List.mem_append_left post hj)
  have hquiet2 : ∀ j ∈ post, j.fwrVld = false :=
    fun j hj => hquiet j (List.mem_cons_of_mem _ (List.mem_append_right _ hj))
  rw [List.length_append, List.length_append, hrd, List.length_singleton] at hlen
  rcases traces_reading spec hv hk hw h hst hrd hquiet1 with ⟨t1, ht1, hwait, hfeed⟩
  rcases traces_power spec hv hk hw hx hwait hfeed (by omega) hquiet2 with
    ⟨wt, post, t2, rfl, hwt, ht2, hwrite⟩
  rw [List.length_append] at hlen
  rcases exists_cut_one (n := 64) (by omega : 64 < post.length) with ⟨wr, j, rest, rfl, hwr⟩
  rcases traces_writing spec hc hwrite hwr
    (fun j hj => hquiet2 j (List.mem_append_right _ (List.mem_append_left _ hj))) with
    ⟨t3, ht3, hready⟩
  refine ⟨st :: (rd ++ [i]) ++ wt ++ (wr ++ [j]), rest, 66 + wt.length + 1, t3, ?_, ?_, ?_, hready⟩
  · simp
  · simp only [List.length_append, List.length_cons, List.length_nil, hrd, hwr, runClocks]
    omega
  · have hall := (ht1.append ht2).append ht3
    have hlist : ∀ ws : List (Option (BitVec 32)), List.replicate (66 + wt.length + 1) none ++ ws
        = List.replicate 66 none ++ List.replicate wt.length none ++ none :: ws := by
      intro ws
      rw [List.replicate_succ', List.replicate_add, List.append_assoc]
      rfl
    rw [hlist]
    exact hall

end Started

/-! ## Sessions -/

/-- The words for the forward FIFO. -/
def sent (is : List AcceleratorIn) : List (BitVec 32) :=
  (is.filter AcceleratorIn.fwrVld).map AcceleratorIn.fwrDat

/-- The words for the backward FIFO. -/
def Accelerator.outs {M : Type} (p : MeParams) (mu : Multiplier M) (s : Accelerator M)
    (is : List AcceleratorIn) : List (BitVec 32) :=
  (trace (Accelerator.step p mu) Accelerator.pushed s is).reduceOption

/-- What the surroundings do for one operand. The result is out at the end, or
    there is a start with all the words in the FIFO and time enough after it. -/
structure Session {M : Type} (p : MeParams) (mu : Multiplier M) (clocks : Nat) (s : Accelerator M)
    (x : Nat) (is : List AcceleratorIn) : Prop where
  x_lt : x < 2 ^ p.bits
  sends : sent is = operand x
  room : s.bwd.rdCnt ≤ operandWords
  lasts : operandWords ≤ (s.outs p mu is).length ∨
    ∃ pre st post, is = pre ++ st :: post ∧ sent pre = operand x ∧ st.regState0 ≠ 0 ∧
      runClocks p clocks ≤ post.length

section Sent

variable {i : AcceleratorIn} {is js : List AcceleratorIn}

theorem sent_append : sent (is ++ js) = sent is ++ sent js := by
  simp only [sent, List.filter_append, List.map_append]

theorem sent_cons : sent (i :: is) = (if i.fwrVld then [i.fwrDat] else []) ++ sent is := by
  rw [sent]
  cases hi : i.fwrVld with
  | false =>
      rw [List.filter_cons_of_neg (by simp [hi])]
      rfl
  | true =>
      rw [List.filter_cons_of_pos hi, List.map_cons]
      rfl

theorem sent_eq_nil (h : sent is = []) : ∀ i ∈ is, i.fwrVld = false := by
  rw [sent, List.map_eq_nil_iff, List.filter_eq_nil_iff] at h
  exact fun i hi => Bool.eq_false_iff.mpr (h i hi)

end Sent

section Sessions

variable {M : Type} {mu : Multiplier M} {p : MeParams} {m clocks : Nat}
  {Shape : Nat → List SpOut → Prop} {Idle : Bool → (Nat → Nat) → (Nat → Nat) → M → Prop}
  {s : Accelerator M} {x c : Nat}

theorem outs_append (is js : List AcceleratorIn) : s.outs p mu (is ++ js)
    = s.outs p mu is ++ (is.foldl (Accelerator.step p mu) s).outs p mu js := by
  rw [Accelerator.outs, trace_append, List.reduceOption_append]
  rfl

/-- The operand is in the FIFO and nothing has started, or there was a start with
    all the words in. -/
theorem loading_or_started (spec : Multiplies mu p m clocks Shape Idle) :
    ∀ (is : List AcceleratorIn) (ws : List (BitVec 32)) (s : Accelerator M),
      AccReady p Idle ws c s → ws ++ sent is = operand x →
      (s.outs p mu is = [] ∧ AccReady p Idle (operand x) c (is.foldl (Accelerator.step p mu) s)) ∨
        ∃ pre st post, is = pre ++ st :: post ∧ s.outs p mu pre = [] ∧
          AccReady p Idle (operand x) c (pre.foldl (Accelerator.step p mu) s) ∧
          st.regState0 ≠ 0 ∧ ∀ i ∈ st :: post, i.fwrVld = false := by
  intro is
  induction is with
  | nil =>
      intro ws s h hws
      rw [show sent [] = [] from rfl, List.append_nil] at hws
      exact Or.inl ⟨rfl, hws ▸ h⟩
  | cons i is ih =>
      intro ws s h hws
      have hlen := congrArg List.length hws
      rw [List.length_append, length_operand] at hlen
      cases hstart : s.rdStart i with
      | true =>
          -- All the words are in.
          rw [rdStart_of_holds h.fwd, Bool.and_eq_true, bne_iff_ne, decide_eq_true_eq] at hstart
          have hnil : sent (i :: is) = [] := List.eq_nil_of_length_eq_zero (by omega)
          rw [hnil, List.append_nil] at hws
          exact Or.inr ⟨[], i, is, rfl, rfl, hws ▸ h, hstart.1, sent_eq_nil hnil⟩
      | false =>
          have hroom : ws.length < 128 ∨ i.fwrVld = false := by
            rw [operandWords] at hlen
            omega
          have hnext := ready_clock spec h hstart hroom
          rw [sent_cons, ← List.append_assoc] at hws
          have houts : ∀ js, s.outs p mu (i :: js) = (s.step p mu i).outs p mu js := by
            intro js
            rw [Accelerator.outs, trace, h.pushed, List.reduceOption_cons_of_none]
            rfl
          rcases ih _ _ hnext hws with ⟨hout, hready⟩ | ⟨pre, st, post, rfl, hout, hready, hst, hq⟩
          · exact Or.inl ⟨(houts is).trans hout, hready⟩
          · exact Or.inr ⟨i :: pre, st, post, rfl, (houts pre).trans hout, hready, hst, hq⟩

/-- After a run nothing more comes. -/
theorem ready_quiet (spec : Multiplies mu p m clocks Shape Idle) (is : List AcceleratorIn)
    (h : AccReady p Idle [] c s) (hquiet : ∀ i ∈ is, i.fwrVld = false) :
    s.outs p mu is = [] ∧ AccReady p Idle [] c (is.foldl (Accelerator.step p mu) s) := by
  induction is generalizing s with
  | nil => exact ⟨rfl, h⟩
  | cons i is ih =>
      have hi := hquiet i List.mem_cons_self
      have hnext := ready_clock spec h (rdStart_of_nil h.fwd) (Or.inr hi)
      rw [hi] at hnext
      rcases ih hnext (fun j hj => hquiet j (List.mem_cons_of_mem _ hj)) with ⟨hout, hready⟩
      refine ⟨?_, hready⟩
      rw [Accelerator.outs, trace, h.pushed, List.reduceOption_cons_of_none]
      exact hout

/-- A session has a start, with time enough after it or the result out at the
    end. -/
theorem exists_start (spec : Multiplies mu p m clocks Shape Idle) {is : List AcceleratorIn}
    (h : AccReady p Idle [] c s) (hs : Session p mu clocks s x is) :
    ∃ pre st post, is = pre ++ st :: post ∧ s.outs p mu pre = [] ∧
      AccReady p Idle (operand x) c (pre.foldl (Accelerator.step p mu) s) ∧ st.regState0 ≠ 0 ∧
      (∀ i ∈ st :: post, i.fwrVld = false) ∧
      (runClocks p clocks ≤ post.length ∨ operandWords ≤ (s.outs p mu is).length) := by
  rcases hs.lasts with hout | ⟨pre, st, post, rfl, hpre, hst, hlen⟩
  · rcases loading_or_started spec is [] s h hs.sends with
      ⟨hnil, _⟩ | ⟨pre, st, post, rfl, hnil, hready, hst, hquiet⟩
    · rw [hnil] at hout
      exact absurd hout (by simp [operandWords])
    · exact ⟨pre, st, post, rfl, hnil, hready, hst, hquiet, Or.inr hout⟩
  · -- Nothing is sent after the words of the operand.
    have hafter : sent (st :: post) = [] := by
      have hall := hs.sends
      rw [sent_append, hpre] at hall
      simpa using hall
    rcases loading_or_started spec pre [] s h hpre with
      ⟨hnil, hready⟩ | ⟨pre', st', post', rfl, hnil, hready, hst', hquiet⟩
    · exact ⟨pre, st, post, rfl, hnil, hready, hst, sent_eq_nil hafter, Or.inl hlen⟩
    · refine ⟨pre', st', post' ++ st :: post, by simp, hnil, hready, hst', ?_, Or.inl ?_⟩
      · intro i hi
        rw [← List.cons_append] at hi
        rcases List.mem_append.mp hi with hi | hi
        · exact hquiet i hi
        · exact sent_eq_nil hafter i hi
      · rw [List.length_append, List.length_cons]
        omega

theorem reduceOption_map_some {α : Type} (ws : List α) : (ws.map some).reduceOption = ws := by
  induction ws with
  | nil => rfl
  | cons w ws ih => rw [List.map_cons, List.reduceOption_cons_of_some, ih]

/-- The last word is the last thing shown, so before the end there are fewer. -/
theorem reduceOption_short {α : Type} {d : Nat} {ws : List α} {os os' : List (Option α)}
    (h : List.replicate d none ++ ws.map some = os ++ os') (hws : ws ≠ []) (hos' : os' ≠ []) :
    os.reduceOption.length < ws.length := by
  have hsum := congrArg (fun l => l.reduceOption.length) h
  simp only [List.reduceOption_append, List.reduceOption_replicate_none, List.nil_append,
    List.length_append] at hsum
  rw [reduceOption_map_some] at hsum
  have hlast := congrArg List.getLast? h
  rw [List.getLast?_append_of_ne_nil _ (by simpa using hws), List.getLast?_append_of_ne_nil _ hos',
    List.getLast?_map] at hlast
  rcases Option.isSome_iff_exists.mp (List.getLast?_isSome.mpr hws) with ⟨w, hw⟩
  rw [hw] at hlast
  have hmem : w ∈ os'.reduceOption :=
    List.reduceOption_mem_iff.mpr (List.mem_of_getLast? hlast.symm)
  have hpos := List.length_pos_of_mem hmem
  omega

/-- One operand: the words for the backward FIFO are those of the power, and then
    everything is ready again. -/
theorem session_served
    (spec : Multiplies mu p m clocks (fun prod os => prod < m → Direct os) Idle)
    (hv : p.Valid m) (hk : p.k = 128) (hw : p.addrW = 4) {is : List AcceleratorIn}
    (h : AccReady p Idle [] c s) (hs : Session p mu clocks s x is) :
    s.outs p mu is = operand (x ^ effective p.meY % m) ∧
      AccReady p Idle [] (s.bwd.rdCnt + 64) (is.foldl (Accelerator.step p mu) s) := by
  have hcount : AccReady p Idle [] s.bwd.rdCnt s := by
    rcases h.bwd with ⟨q, hq, _⟩
    exact { h with bwd := ⟨q, hq, Nat.le_of_eq hq.cnt.symm⟩ }
  rcases exists_start spec hcount hs with ⟨pre, st, post, rfl, hnil, hready, hst, hquiet, hlasts⟩
  rw [outs_append, hnil, List.nil_append] at hlasts ⊢
  rw [List.foldl_append]
  -- Let the clocks go on for long enough.
  let pad : List AcceleratorIn := List.replicate (runClocks p clocks) ⟨false, 0, 0, false⟩
  have hpad : ∀ i ∈ st :: (post ++ pad), i.fwrVld = false := by
    intro i hi
    rw [← List.cons_append] at hi
    rcases List.mem_append.mp hi with hi | hi
    · exact hquiet i hi
    · rw [List.eq_of_mem_replicate hi]
  have hlen : runClocks p clocks ≤ (post ++ pad).length := by
    rw [List.length_append, List.length_replicate]
    omega
  rcases started_run spec hv hk hw hs.x_lt hs.room hready hst hpad hlen with
    ⟨busy, rest, d, t, hsplit, hbusy, ht, hready'⟩
  -- The run is over before the session is.
  obtain ⟨rest', hrest'⟩ : ∃ rest', st :: post = busy ++ rest' := by
    rw [← List.cons_append] at hsplit
    rcases List.append_eq_append_iff.mp hsplit with ⟨extra, hextra, _⟩ | ⟨rest', hrest', _⟩
    · cases extra with
      | nil =>
          rw [List.append_nil] at hextra
          exact ⟨[], by rw [hextra, List.append_nil]⟩
      | cons i extra =>
          rcases hlasts with hlong | hout
          · have hmore := congrArg List.length hextra
            rw [List.length_append, List.length_cons, List.length_cons] at hmore
            omega
          · have htrace := ht.1
            rw [hextra, trace_append] at htrace
            have hshort := reduceOption_short htrace.symm
              (List.ne_nil_of_length_pos (by rw [length_operand]; decide))
              (List.ne_nil_of_length_pos (by rw [length_trace]; simp))
            rw [length_operand] at hshort
            exact absurd hout (Nat.not_le.mpr hshort)
    · exact ⟨rest', hrest'⟩
  have hquiet' : ∀ i ∈ rest', i.fwrVld = false := by
    intro i hi
    refine hquiet i ?_
    rw [hrest']
    exact List.mem_append_right _ hi
  rcases ready_quiet spec rest' hready' hquiet' with ⟨hout, hend⟩
  rw [hrest', outs_append, List.foldl_append, ht.2, hout, List.append_nil]
  refine ⟨?_, hend⟩
  rw [Accelerator.outs, ht.1, List.reduceOption_append, List.reduceOption_replicate_none,
    List.nil_append, reduceOption_map_some]

end Sessions

/-- Sessions, one after another. -/
def Sessions {M : Type} (p : MeParams) (mu : Multiplier M) (clocks : Nat) :
    Accelerator M → List (Nat × List AcceleratorIn) → Prop
  | _, [] => True
  | s, (x, is) :: rest =>
      Session p mu clocks s x is ∧ Sessions p mu clocks (is.foldl (Accelerator.step p mu) s) rest

/-- The words for the backward FIFO, session by session. -/
def Accelerator.results {M : Type} (p : MeParams) (mu : Multiplier M) :
    Accelerator M → List (Nat × List AcceleratorIn) → List (List (BitVec 32))
  | _, [] => []
  | s, (_, is) :: rest =>
      s.outs p mu is :: Accelerator.results p mu (is.foldl (Accelerator.step p mu) s) rest

section Served

variable {M : Type} {mu : Multiplier M} {p : MeParams} {m clocks : Nat}
  {Idle : Bool → (Nat → Nat) → (Nat → Nat) → M → Prop}

/-- Any number of operands. -/
theorem sessions_served
    (spec : Multiplies mu p m clocks (fun prod os => prod < m → Direct os) Idle)
    (hv : p.Valid m) (hk : p.k = 128) (hw : p.addrW = 4) :
    ∀ (rs : List (Nat × List AcceleratorIn)) (c : Nat) (s : Accelerator M),
      AccReady p Idle [] c s → Sessions p mu clocks s rs →
      s.results p mu rs = rs.map (fun r => operand (r.1 ^ effective p.meY % m)) ∧
        ∃ c', AccReady p Idle [] c' ((rs.flatMap Prod.snd).foldl (Accelerator.step p mu) s) := by
  intro rs
  induction rs with
  | nil =>
      intro c s h _
      exact ⟨rfl, c, h⟩
  | cons r rs ih =>
      intro c s h hs
      rcases session_served spec hv hk hw h hs.1 with ⟨hout, hready⟩
      rcases ih _ _ hready hs.2 with ⟨hrest, c', hend⟩
      refine ⟨?_, c', ?_⟩
      · rw [Accelerator.results, hout, hrest, List.map_cons]
      · rw [List.flatMap_cons, List.foldl_append]
        exact hend

end Served

/-! ## From reset -/

/-- The memories of the multiplier as they are initialised: `x.mem` and `a0.mem`
    are all zeros, `m.mem` is the modulus, and `y.mem` is anything. -/
structure Initial (p : MeParams) (m : Nat) (x y mr a : Ram) : Prop where
  x : ∀ l, x.mem l = 0
  y : ∀ l, l < 2 ^ p.addrW → y.mem l < 2 ^ p.k
  m : ∀ l, l < 2 ^ p.addrW → mr.mem l = wordsOf p m l
  a : ∀ l, a.mem l = 0

section Reset

variable {p : MeParams} {m : Nat} {x y mr a : Ram}

theorem accReady_reset (h : Initial p m x y mr a) (fwdMem bwdMem : Nat → BitVec 32)
    (meResultOut result2 : Nat → Nat) (wrDout : BitVec 32) (m1 : Nat) (adder : P1Adder) :
    AccReady p (SpIdle p m) [] 0
      (Accelerator.reset p fwdMem bwdMem meResultOut result2 wrDout
        (Sp.reset p.addrW x y mr a m1 adder)) := by
  refine ⟨rfl, rfl, rfl, rfl, Nat.two_pow_pos _, rfl, rfl, ?_, Fifo.holds_reset fwdMem,
    [], Fifo.holds_reset bwdMem, Nat.le_refl _⟩
  refine ⟨rfl, rfl, rfl, rfl, rfl, rfl, rfl, rfl, fun _ _ => rfl, false, fun _ => 0, y.mem, ?_⟩
  exact ⟨idle_reset fun l _ => h.a l, fun l _ => h.x l, fun _ _ => rfl, h.m, h.x _,
    fun _ _ => Nat.two_pow_pos _, h.y, nofun⟩

end Reset

/-- The shipped configuration, 16 words and the exponent 65537, with constants
    that belong to one odd modulus: whatever operands are given after reset, the
    words that go to the backward FIFO for each are the 64 words of its power,
    the lowest first, and after all of them everything is ready again. -/
theorem powers_served (p : MeParams) (m : Nat) (hk : p.k = 128) (hw : p.addrW = 4)
    (hy : p.meY = 65537) (hv : p.Valid m) (hm1 : (p.meM1 * m + 1) % 2 ^ 128 = 0)
    (x y mr a : Ram) (hram : Initial p m x y mr a) (m1 : Nat) (adder : P1Adder)
    (fwdMem bwdMem : Nat → BitVec 32) (meResultOut result2 : Nat → Nat) (wrDout : BitVec 32)
    (s : Accelerator Sp)
    (hs : s = Accelerator.reset p fwdMem bwdMem meResultOut result2 wrDout
      (Sp.reset p.addrW x y mr a m1 adder))
    (rs : List (Nat × List AcceleratorIn))
    (hrs : Sessions p (Sp.multiplier p.addrW) (taskClocks p.addrW) s rs) :
    s.results p (Sp.multiplier p.addrW) rs = rs.map (fun r => operand (r.1 ^ 65537 % m)) ∧
      ∃ c, AccReady p (SpIdle p m) [] c
        ((rs.flatMap Prod.snd).foldl (Accelerator.step p (Sp.multiplier p.addrW)) s) := by
  have hready := accReady_reset hram fwdMem bwdMem meResultOut result2 wrDout m1 adder
  rw [← hs] at hready
  have hspec := sp_multiplies (p := p) hk (by omega) (by omega) hv.m_lt hm1
  have hserved := sessions_served hspec hv hk hw rs 0 s hready hrs
  -- Bit 1 of the exponent is clear.
  rw [show effective p.meY = 65537 by rw [hy]; decide] at hserved
  exact hserved

section Shipped

/-- The modulus in `m.mem`. -/
def realM : Nat := Nat.ofDigits (2 ^ 128) mMem

/-- The words of a constant that is listed from the highest word down. -/
theorem holdsNum_listed {ws : List Nat} {z : Nat}
    (hz : Nat.ofDigits (2 ^ 128) ((List.range 16).map fun l => ws.getD (15 - l) 0) = z)
    (hlt : ∀ w ∈ (List.range 16).map fun l => ws.getD (15 - l) 0, w < 2 ^ 128) :
    HoldsNum realValue (fun l => ws.getD (15 - l) 0) z := by
  refine ⟨?_, ?_⟩
  · rw [← hz, ofDigits_map_range]
    rfl
  · intro l hl
    exact hlt _ (List.mem_map.mpr ⟨l, List.mem_range.mpr hl, rfl⟩)

/-- The constants as shipped belong to one odd modulus. -/
theorem valid_realValue : realValue.Valid realM := by
  have hbits : realValue.bits = 2048 := rfl
  refine ⟨by decide, by decide, by decide +kernel, ?_, ?_, ?_, ?_⟩
  · rw [hbits]
    decide +kernel
  · rw [hbits]
    decide +kernel
  · rw [hbits]
    exact holdsNum_listed (by decide +kernel) (by decide +kernel)
  · rw [hbits]
    exact holdsNum_listed (by decide +kernel) (by decide +kernel)

/-- A word for the forward FIFO. -/
def pushIn (w : BitVec 32) : AcceleratorIn where
  fwrVld := true
  fwrDat := w
  regState0 := 0
  brdRdy := false

/-- The start register is set. -/
def startedIn : AcceleratorIn where
  fwrVld := false
  fwrDat := 0
  regState0 := 0xffff
  brdRdy := false

/-- An operand, the start, and time enough. -/
def given (p : MeParams) (clocks x : Nat) : List AcceleratorIn :=
  (operand x).map pushIn ++ startedIn :: List.replicate (runClocks p clocks) startedIn

theorem sent_pushIn (ws : List (BitVec 32)) : sent (ws.map pushIn) = ws := by
  induction ws with
  | nil => rfl
  | cons w ws ih =>
      rw [List.map_cons, sent_cons, ih]
      rfl

theorem sent_startedIn (n : Nat) : sent (List.replicate n startedIn) = [] := by
  induction n with
  | zero => rfl
  | succ n ih =>
      rw [List.replicate_succ, sent_cons, ih]
      rfl

theorem session_given {M : Type} {p : MeParams} {mu : Multiplier M} {clocks : Nat}
    {s : Accelerator M} {x : Nat} (hx : x < 2 ^ p.bits) (hroom : s.bwd.rdCnt ≤ operandWords) :
    Session p mu clocks s x (given p clocks x) := by
  refine ⟨hx, ?_, hroom, Or.inr ⟨_, _, _, rfl, sent_pushIn _, by decide, ?_⟩⟩
  · rw [given, sent_append, sent_pushIn, sent_cons, sent_startedIn]
    simp [startedIn]
  · rw [List.length_replicate]

/-- The shipped accelerator after reset. -/
def realStart : Accelerator Sp :=
  Accelerator.reset realValue (fun _ => 0) (fun _ => 0) (fun _ => 0) (fun _ => 0) 0
    (Sp.reset realValue.addrW ⟨fun _ => 0, 0⟩ ⟨fun _ => 0, 0⟩ ⟨fun l => mMem.getD l 0, 0⟩
      ⟨fun _ => 0, 0⟩ 0 ⟨0, 0, 0, 0⟩)

theorem initial_realStart : Initial realValue realM ⟨fun _ => 0, 0⟩ ⟨fun _ => 0, 0⟩
    ⟨fun l => mMem.getD l 0, 0⟩ ⟨fun _ => 0, 0⟩ :=
  ⟨fun _ => rfl, fun _ _ => Nat.two_pow_pos _, by decide +kernel, fun _ => rfl⟩

theorem multiplies_realValue :
    Multiplies (Sp.multiplier realValue.addrW) realValue realM (taskClocks realValue.addrW)
      (fun prod os => prod < realM → Direct os) (SpIdle realValue realM) :=
  sp_multiplies rfl (by decide) (by decide) valid_realValue.m_lt (by decide +kernel)

/-- Two operands, one after the other. -/
def twoGiven : List (Nat × List AcceleratorIn) :=
  [(2, given realValue (taskClocks realValue.addrW) 2),
    (3, given realValue (taskClocks realValue.addrW) 3)]

theorem sessions_twoGiven :
    Sessions realValue (Sp.multiplier realValue.addrW) (taskClocks realValue.addrW) realStart
      twoGiven := by
  have hlt : ∀ x, x < 4 → x < 2 ^ realValue.bits := by
    intro x hx
    have hpow : 4 < 2 ^ realValue.bits := by decide +kernel
    omega
  have hfirst : Session realValue (Sp.multiplier realValue.addrW) (taskClocks realValue.addrW)
      realStart 2 (given realValue (taskClocks realValue.addrW) 2) :=
    session_given (hlt 2 (by decide)) (Nat.zero_le _)
  have hready : AccReady realValue (SpIdle realValue realM) [] 0 realStart :=
    accReady_reset initial_realStart ..
  -- The first result leaves room for the second.
  rcases session_served multiplies_realValue valid_realValue rfl rfl hready hfirst with
    ⟨_, hready'⟩
  rcases hready'.bwd with ⟨q, hq, hlen⟩
  have hroom := hq.cnt.trans_le hlen
  rw [show realStart.bwd.rdCnt + 64 = operandWords from rfl] at hroom
  exact ⟨hfirst, session_given (hlt 3 (by decide)) hroom, trivial⟩

theorem powers_served_shipped :
    realStart.results realValue (Sp.multiplier realValue.addrW) twoGiven
      = twoGiven.map fun r => operand (r.1 ^ 65537 % realM) :=
  (powers_served realValue realM rfl rfl rfl valid_realValue (by decide +kernel) ⟨fun _ => 0, 0⟩
    ⟨fun _ => 0, 0⟩ ⟨fun l => mMem.getD l 0, 0⟩ ⟨fun _ => 0, 0⟩ initial_realStart 0 ⟨0, 0, 0, 0⟩
    (fun _ => 0) (fun _ => 0) (fun _ => 0) (fun _ => 0) 0 realStart rfl twoGiven
    sessions_twoGiven).1

/-- An operand, and another one while the first is being raised to its power. -/
def givenTooEarly : List AcceleratorIn :=
  (operand 2).map pushIn ++ List.replicate 67 startedIn ++
    (operand 3).map (fun w => { pushIn w with regState0 := 0xffff }) ++ [startedIn, startedIn]

/-- The first word of a result is about to go out. -/
def writingOut : FifoCtrl where
  currentState := .wrMeS
  rdRdy := true
  cntRd := 0
  cntN := 0
  meX := 0
  meXValid := false
  meResultOut := fun l => if l = 0 then 1 + 2 * 2 ^ 32 + 3 * 2 ^ 64 + 4 * 2 ^ 96 else 5
  wrVld := false
  wrDout := 0

/-- Two operands were sent and none is left, with one power to come; and of the words 1,
    2, 3 and 4 the last was never shown when the FIFO got full before it. -/
theorem words_lost :
    (sent givenTooEarly = operand 2 ++ operand 3 ∧
      let s := givenTooEarly.foldl (Accelerator.step realValue (Sp.multiplier realValue.addrW))
        realStart
      s.ctrl.currentState = .wait ∧ s.ctrl.cntN = 0 ∧ s.fwd.rdCnt = 0) ∧
      let s := [true, true, true, false].foldl (fun s room => FifoCtrl.step s
        ⟨false, false, 0, room, false, 0⟩) writingOut
      s.currentState = .wrMeS ∧ s.cntN = 1 ∧ s.wrDout = 3 := by
  refine ⟨⟨?_, ?_⟩, ?_⟩
  · decide +kernel
  · decide +kernel
  · decide +kernel

end Shipped

end Rsa

end Wujian100
