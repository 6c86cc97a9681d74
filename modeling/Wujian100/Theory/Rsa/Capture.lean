import Wujian100.Theory.Rsa.Session

/-!
# The Last Product Is Not Reduced

`fifo_rsa2048_ctrl` leaves `Wait` a clock after the word before the last,
whether the last word is there or not. It gets all the words only if they come
in consecutive clocks, which they do not when the modulus is subtracted: then
there is a clock between one word and the next.

The modulus is never subtracted from the last product. It is a product with one,
and for a factor below the modulus the accumulator is below the modulus after
the rounds, so the comparison finds nothing to subtract.

## Main definitions

* `Sp.accumulator`: The number in the accumulator, with the bit above its words.
* `Unreduced`: A last product without a subtraction.

## Theorems

* `emits_unreduced`: A task with a small product.
* `leaves_unreduced`: The last product in the state machine.
* `waits_captured`: The controller has all the words when it stops waiting.
* `last_product_captured`: All of it.
-/

namespace Wujian100

namespace Rsa

/-- The number in the accumulator, with the bit above its words. -/
def Sp.accumulator (w : Nat) (s : Sp) : Nat :=
  value (2 ^ wordBits) (2 ^ w) s.a.mem + s.ctrl.refAn * (2 ^ wordBits) ^ 2 ^ w

theorem accumulator_final {w : Nat} {job : Job w} {acc : Acc w} {s : Sp}
    (h : AtFinal job acc s) : s.accumulator w = acc.num := by
  rw [Sp.accumulator, value_congr h.mem, h.ctrl]
  rfl

/-! ## In the multiplier -/

/-- A task whose operands multiply to less than the modulus: the verdict is that
    there is nothing to subtract, and the words go out in consecutive clocks. -/
theorem emits_unreduced {w : Nat} {job : Job w} {s : Sp} (h : s.Idle w) (hheld : job.Held s)
    (hw1 : 1 ≤ w) (hw : w ≤ 5) (hsmall : job.numX * job.numY < job.numM) :
    ∃ d acc t, acc.num < job.numM ∧ AtVerdict job acc ((Sp.tick w)^[d] s) ∧
      Emits (Sp.tick w) Sp.view s ((nopOuts d acc).map plain) t ∧
      (nopOuts d acc).length ≤ taskClocks w ∧
      acc.num = montMul job.numM ((2 ^ wordBits) ^ 2 ^ w) job.numX job.numY ∧
      t.Idle w ∧ job.Held t := by
  have hβ : 0 < 2 ^ wordBits := Nat.two_pow_pos _
  rcases emits_verdict h hheld hw1 hw with ⟨d, u, acc, hd, hu, hnum, hverdict⟩
  have hlt : acc.num < job.numM := by
    rw [hnum]
    exact rounds_lt_modulus hβ job.m1_dvd hsmall
  rcases emits_small hu hverdict hlt hw with ⟨t, ht, hidle, hheld'⟩
  have hiter := hu.iterate
  rw [List.length_replicate] at hiter
  rw [hiter] at hverdict
  refine ⟨d, acc, t, hlt, hverdict, ht, ?_, ?_, hidle, hheld'⟩
  · rw [length_nopOuts, taskClocks]
    omega
  · have hxy : job.numX * job.numY < (2 ^ wordBits) ^ 2 ^ w * job.numM :=
      Nat.lt_of_lt_of_le hsmall (Nat.le_mul_of_pos_left _ (Nat.pow_pos hβ))
    have hprod : (if job.numM ≤ job.acc (2 ^ w) then job.acc (2 ^ w) - job.numM
        else job.acc (2 ^ w)) = montMul job.numM ((2 ^ wordBits) ^ 2 ^ w) job.numX job.numY :=
      montMul_of_rounds hβ numM_pos coprime_radix job.m1_dvd hxy
    rw [← hnum, if_neg (Nat.not_le.mpr hlt)] at hprod
    exact hprod

/-! ## In the state machine -/

/-- The last product of a run, from the first of its words that is sent: when the
    comparison is over the accumulator is below the modulus; from the request on
    the modulus is subtracted in no clock; and the words of the product are shown
    in consecutive clocks. -/
structure Unreduced (p : MeParams) (m a : Nat) (s : MeTop Sp) (d n e : Nat) (t : MeTop Sp) :
    Prop where
  request : ((MeTop.tick p (Sp.multiplier p.addrW))^[2 ^ p.addrW + 1] s).me.taskReq = true
  leaving : ∀ k, k < n →
    ((MeTop.tick p (Sp.multiplier p.addrW))^[k + (2 ^ p.addrW + 1)] s).me.currentState = .state4
  verdict_lt : d < n
  verdict :
    ((MeTop.tick p (Sp.multiplier p.addrW))^[d + (2 ^ p.addrW + 1)] s).mul.sub.st = .compFinNop
  accumulator :
    ((MeTop.tick p (Sp.multiplier p.addrW))^[d + (2 ^ p.addrW + 1)] s).mul.accumulator p.addrW < m
  plain : ∀ k, k < n →
    ((MeTop.tick p (Sp.multiplier p.addrW))^[k + (2 ^ p.addrW + 1)] s).mul.sub.st.subtracts = false
  shown : Emits (MeTop.tick p (Sp.multiplier p.addrW)) MeTop.word s
    (List.replicate e none
      ++ (toDigits (2 ^ p.k) (2 ^ p.addrW) (montMul m (2 ^ p.bits) a 1)).map some) t
  length : e + 2 ^ p.addrW = 2 ^ p.addrW + 1 + n + 1
  ready : MeReady p (SpIdle p m) t

section Leave

variable {p : MeParams} {m : Nat}

/-- A product with one. -/
theorem leaves_unreduced (hk : p.k = wordBits) (hw2 : 2 ≤ p.addrW) (hw5 : p.addrW ≤ 5)
    (hv : p.Valid m) (hm1 : (p.meM1 * m + 1) % 2 ^ wordBits = 0) {a a2 yy lc : Nat}
    {s : MeTop Sp} (h : Standing p (SpIdle p m) .state3 a a2 yy lc s) (ha : a < m) :
    ∃ d n e t, Unreduced p m a s d n e t := by
  have hspec := sp_multiplies hk hw2 hw5 hv.m_lt hm1
  have hone := hv.holdsNum_one
  -- The operands are sent.
  rcases emits_send hspec h.between .leave h.result.lt hone.lt with
    ⟨u, hu, hrecv, hword, x, y, hidle, hxy⟩
  have hiter := hu.iterate
  rw [List.length_replicate] at hiter
  have hx : value (2 ^ p.k) (2 ^ p.addrW) x = a := by
    rw [value_congr fun l hl => (hxy l hl).1, h.result.num]
  have hy : value (2 ^ p.k) (2 ^ p.addrW) y = 1 := by
    rw [value_congr fun l hl => (hxy l hl).2]
    exact hone.num
  -- The multiplier has a task with a small product.
  have hheld : (hidle.job hk hv.m_lt hm1).Held u.mul := ⟨rfl, rfl, rfl, hidle.m1 rfl⟩
  rcases hidle.job_nums hk hv.m_lt hm1 with ⟨hnumX, hnumY, hnumM⟩
  rw [hx] at hnumX
  rw [hy] at hnumY
  rcases emits_unreduced hidle.idle hheld (by omega) hw5
    (by rw [hnumX, hnumY, hnumM, Nat.mul_one]; exact ha) with
    ⟨d, acc, t', hlt, hverdict, hviews, hlen, hnum, hidle', hheld'⟩
  have houts := hviews.map Prod.fst
  rw [List.map_map, show Prod.fst ∘ Rsa.plain = id from rfl, List.map_id] at houts
  have hdirect : Direct (nopOuts d acc) := ⟨_, _, _, nopOuts_eq _ acc⟩
  have hdel : Delivers (2 ^ p.k) (2 ^ p.addrW) (montMul m (2 ^ p.bits) a 1) (nopOuts d acc) := by
    refine ⟨hdirect.ends, ?_⟩
    rw [granted_small d hlt, hnum, hnumX, hnumY, hnumM, ← hk, radix_pow]
  -- The state machine beside it.
  have hshape : a < m → Direct (nopOuts d acc) := fun _ => hdirect
  rcases received_of_task hspec hrecv rfl hword houts hdel hlen hshape
    (hidle.job_done hk hv.m_lt hm1 hidle' hheld') with ⟨t, init, r, zs, hos, hr⟩
  rcases hr.leaves hspec with ⟨hshown, hready⟩
  rcases shows_direct hdirect with ⟨e, hshows⟩
  rw [← hos, hshows, hdel.words] at hshown
  have hcount : (nopOuts d acc).length = init.length + 1 := by
    rw [hos, List.length_append, List.length_singleton]
  have hclocks := length_nopOuts d acc
  have hmul : ∀ k, k < init.length + 1 →
      ((MeTop.tick p (Sp.multiplier p.addrW))^[k] u).mul = (Sp.tick p.addrW)^[k] u.mul ∧
        ((MeTop.tick p (Sp.multiplier p.addrW))^[k] u).me.currentState = .state4 := by
    intro k hkn
    rcases hdirect.ends with ⟨init', r', hos', hend⟩
    have hinit : init' = init := by
      rw [hos] at hos'
      exact (List.append_inj' hos' rfl).1.symm
    rw [hinit] at hend
    rw [hos] at houts
    rcases emits_split houts with ⟨v, hv', _⟩
    have hgranted : (granted init).length ≤ 2 ^ p.addrW := by
      have hl := congrArg List.length hr.granted
      rw [granted_append, List.length_append, length_toDigits] at hl
      omega
    exact mul_receiving hspec rfl hv' hend hrecv hgranted hword (Nat.lt_succ_iff.mp hkn)
  have hlong : e + 2 ^ p.addrW = init.length + 1 := by
    have hl := congrArg List.length hshows
    rw [hdel.words] at hl
    simpa [hcount] using hl.symm
  have hsplit : ∀ k, (MeTop.tick p (Sp.multiplier p.addrW))^[k + (2 ^ p.addrW + 1)] s
      = (MeTop.tick p (Sp.multiplier p.addrW))^[k] u := by
    intro k
    rw [Function.iterate_add_apply, ← hiter]
  have hd : d < init.length + 1 := by
    have := Nat.two_pow_pos p.addrW
    omega
  refine ⟨d, init.length + 1, 2 ^ p.addrW + 1 + 1 + e, (t.tick p _).tick p _, ?_, ?_, hd, ?_, ?_, ?_,
    ?_, ?_, hready⟩
  · rw [← hiter]
    exact hrecv.taskReq
  · intro k hkn
    rw [hsplit]
    exact (hmul k hkn).2
  · rw [hsplit, (hmul d hd).1, hverdict.st, if_neg (Nat.not_le.mpr hlt)]
  · rw [hsplit, (hmul d hd).1, accumulator_final hverdict.final, ← hnumM]
    exact hlt
  · intro k hkn
    rw [hsplit, (hmul k hkn).1]
    have hview := hviews.shows k (by rw [List.length_map, hcount]; exact hkn)
    rw [List.getElem?_map, Option.map_eq_some_iff] at hview
    rcases hview with ⟨o, _, ho⟩
    exact (congrArg Prod.snd ho).symm
  · rw [List.replicate_add, List.replicate_succ' (n := 2 ^ p.addrW + 1), List.append_assoc,
      List.append_assoc]
    exact hu.append hshown
  · omega

end Leave

/-! ## In the controller -/

section Controller

variable {M : Type} {mu : Multiplier M} {p : MeParams} {m clocks : Nat}
  {Idle : Bool → (Nat → Nat) → (Nat → Nat) → M → Prop}

/-- A start with an operand in the forward FIFO, and time enough: there is a
    clock in which the controller has stopped waiting, and it has all the words of
    the result then. -/
theorem waits_captured
    (spec : Multiplies mu p m clocks (fun prod os => prod < m → Direct os) Idle)
    (hv : p.Valid m) (hk : p.k = 128) (hw : p.addrW = 4) {x c : Nat} {s : Accelerator M}
    (hx : x < 2 ^ p.bits) (h : AccReady p Idle (operand x) c s) {st : AcceleratorIn}
    {post : List AcceleratorIn} (hst : st.regState0 ≠ 0)
    (hquiet : ∀ i ∈ st :: post, i.fwrVld = false) (hlen : 65 + powerClocks p clocks ≤ post.length) :
    ∃ js ks t, st :: post = js ++ ks ∧ js.foldl (Accelerator.step p mu) s = t ∧
      t.ctrl.currentState = .wrMeS ∧
      ∀ l, l < 16 →
        t.ctrl.meResultOut l = x ^ effective p.meY % m / (2 ^ 128) ^ l % 2 ^ 128 := by
  rcases exists_cut_one (n := 64) (by omega : 64 < post.length) with ⟨rd, i, rest, rfl, hrd⟩
  rw [List.length_append, List.length_append, hrd, List.length_singleton] at hlen
  rcases traces_reading spec hv hk hw h hst hrd
    (fun j hj => hquiet j (List.mem_append_left rest hj)) with ⟨t1, ht1, hwait, hfeed⟩
  rcases traces_power spec hv hk hw hx hwait hfeed (by omega)
    (fun j hj => hquiet j (List.mem_cons_of_mem _ (List.mem_append_right _ hj))) with
    ⟨wt, ks, t2, rfl, _, ht2, hwrite⟩
  refine ⟨st :: (rd ++ [i]) ++ wt, ks, t2, by simp, (ht1.append ht2).2, ?_, ?_⟩
  · simpa using hwrite.state
  · intro l hl
    rw [hwrite.out l hl (Nat.zero_le _), leftOver]
    simp

end Controller

/-- For any constants that belong to one odd modulus. Whatever number below the
    modulus is in `result` when the last product begins, it is not reduced and its
    words come in consecutive clocks; and with 16 words, whatever the operand, the
    controller has all the words of the result when it stops waiting for them. -/
theorem last_product_captured (p : MeParams) (m : Nat) (hk : p.k = wordBits) (hw2 : 2 ≤ p.addrW)
    (hw5 : p.addrW ≤ 5) (hv : p.Valid m) (hm1 : (p.meM1 * m + 1) % 2 ^ wordBits = 0) :
    (∀ (a a2 yy lc : Nat) (s : MeTop Sp), Standing p (SpIdle p m) .state3 a a2 yy lc s → a < m →
      ∃ d n e t, Unreduced p m a s d n e t) ∧
    (p.addrW = 4 → ∀ (x c : Nat) (s : Accelerator Sp) (st : AcceleratorIn)
      (post : List AcceleratorIn), x < 2 ^ p.bits → AccReady p (SpIdle p m) (operand x) c s →
      st.regState0 ≠ 0 → (∀ i ∈ st :: post, i.fwrVld = false) →
      65 + powerClocks p (taskClocks p.addrW) ≤ post.length →
      ∃ js ks t, st :: post = js ++ ks ∧
        js.foldl (Accelerator.step p (Sp.multiplier p.addrW)) s = t ∧
        t.ctrl.currentState = .wrMeS ∧
        ∀ l, l < 16 →
          t.ctrl.meResultOut l = x ^ effective p.meY % m / (2 ^ 128) ^ l % 2 ^ 128) := by
  refine ⟨fun a a2 yy lc s h ha => leaves_unreduced hk hw2 hw5 hv hm1 h ha, ?_⟩
  intro hw x c s st post hx h hst hquiet hlen
  exact waits_captured (sp_multiplies hk hw2 hw5 hv.m_lt hm1) hv hk hw hx h hst hquiet hlen

section Shipped

/-- The shipped state machine before its last product, with 5 in `result`. -/
def realLeave : MeTop Sp where
  me := { Me.reset realValue fun _ => 0 with
    currentState := .state3, result := fun l => if l = 0 then 5 else 0 }
  mul := realStart.me.mul

theorem standing_realLeave :
    Standing realValue (SpIdle realValue realM) .state3 5 0 realValue.meY 0 realLeave := by
  have hready : AccReady realValue (SpIdle realValue realM) [] 0 realStart :=
    accReady_reset initial_realStart ..
  refine ⟨rfl, rfl, rfl, rfl, rfl, rfl, holdsNum_single (by decide), ?_, rfl, rfl, hready.me.idle⟩
  refine ⟨?_, fun _ _ => Nat.two_pow_pos _⟩
  simp [realLeave, Me.reset, value]

/-- The shipped accelerator with an operand in the forward FIFO. -/
def realLoaded (x : Nat) : Accelerator Sp :=
  ((operand x).map pushIn).foldl
    (Accelerator.step realValue (Sp.multiplier realValue.addrW)) realStart

theorem ready_realLoaded (x : Nat) :
    AccReady realValue (SpIdle realValue realM) (operand x) 0 (realLoaded x) := by
  have hready : AccReady realValue (SpIdle realValue realM) [] 0 realStart :=
    accReady_reset initial_realStart ..
  rcases loading_or_started multiplies_realValue ((operand x).map pushIn) [] realStart hready
    (by rw [sent_pushIn, List.nil_append]) with ⟨_, h⟩ | ⟨pre, st, post, hsplit, _, _, hst, _⟩
  · exact h
  · -- A word is no start.
    have hmem : st ∈ (operand x).map pushIn := by rw [hsplit]; simp
    rcases List.mem_map.mp hmem with ⟨w, _, rfl⟩
    exact absurd rfl hst

theorem last_product_captured_shipped :
    (∃ d n e t, Unreduced realValue realM 5 realLeave d n e t) ∧
      ∃ js ks t, List.replicate (65 + powerClocks realValue (taskClocks realValue.addrW) + 1)
          startedIn = js ++ ks ∧
        js.foldl (Accelerator.step realValue (Sp.multiplier realValue.addrW)) (realLoaded 3) = t ∧
        t.ctrl.currentState = .wrMeS ∧
        ∀ l, l < 16 → t.ctrl.meResultOut l
          = 3 ^ effective realValue.meY % realM / (2 ^ 128) ^ l % 2 ^ 128 := by
  have hall := last_product_captured realValue realM rfl (by decide) (by decide) valid_realValue
    (by decide +kernel)
  refine ⟨hall.1 5 0 realValue.meY 0 realLeave standing_realLeave (by decide +kernel), ?_⟩
  generalize 65 + powerClocks realValue (taskClocks realValue.addrW) = clocks at hall
  rw [List.replicate_succ]
  refine hall.2 rfl 3 0 (realLoaded 3) startedIn _ (by decide +kernel) (ready_realLoaded 3)
    (by decide) ?_ (Nat.le_of_eq List.length_replicate.symm)
  intro i hi
  rw [← List.replicate_succ] at hi
  rw [List.eq_of_mem_replicate hi]
  rfl

end Shipped

end Rsa

end Wujian100
