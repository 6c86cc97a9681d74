import Wujian100.Theory.Rsa.Subtract

/-!
# The Multiplier Multiplies

A task of the multiplier, from the request to the end: the rounds, the
comparison and the output, put together. It shows the words of the Montgomery
product from the lowest up, each once, and the last with `task_end`; then it
waits again with its operands in place and its accumulator cleared.

If the product of the operands is below the modulus, as in a multiplication by
one, the accumulator is below it after the rounds, and the words come out in
consecutive clocks.

With 64 words the counter of the columns has too few bits to reach its end, and
the multiplier never shows anything.

## Main definitions

* `granted`: The words shown.
* `Delivers`: A task that shows the words of a number.
* `Direct`: The words come out in consecutive clocks.
* `Loaded`: The memories hold given numbers.

## Theorems

* `emits_task`: A task.
* `task_delivers`: A task, from the numbers in the memories.
* `sixty_four_words_silent`: Too many words.
-/

namespace Wujian100

namespace Rsa

/-! ## Words shown -/

/-- The words shown with `task_grant`. -/
def granted (os : List SpOut) : List Nat :=
  (os.filter SpOut.taskGrant).map SpOut.taskRes

@[simp] theorem granted_nil : granted [] = [] :=
  rfl

@[simp] theorem granted_append (os os' : List SpOut) :
    granted (os ++ os') = granted os ++ granted os' := by
  simp only [granted, List.filter_append, List.map_append]

@[simp] theorem granted_silent (os : List SpOut) : granted (silent :: os) = granted os :=
  rfl

@[simp] theorem granted_wordOut (z : Nat) (os : List SpOut) :
    granted (wordOut z :: os) = z :: granted os :=
  rfl

@[simp] theorem granted_lastOut (z : Nat) (os : List SpOut) :
    granted (lastOut z :: os) = z :: granted os :=
  rfl

@[simp] theorem granted_replicate (d : Nat) : granted (List.replicate d silent) = [] := by
  induction d with
  | zero => rfl
  | succ d ih => rw [List.replicate_succ, granted_silent, ih]

@[simp] theorem granted_map_wordOut (zs : List Nat) : granted (zs.map wordOut) = zs := by
  induction zs with
  | nil => rfl
  | cons z zs ih => rw [List.map_cons, granted_wordOut, ih]

/-- A task that shows the `n` words of `z` in base `β`. -/
structure Delivers (β n z : Nat) (os : List SpOut) : Prop where
  ends : ∃ init r, os = init ++ [lastOut r] ∧ ∀ o ∈ init, o.taskEnd = false
  words : granted os = toDigits β n z

/-- The words come out in consecutive clocks. -/
def Direct (os : List SpOut) : Prop :=
  ∃ (d : Nat) (ws : List Nat) (r : Nat), os = List.replicate d silent ++ ws.map wordOut ++ [lastOut r]

theorem Direct.ends {os : List SpOut} (h : Direct os) :
    ∃ init r, os = init ++ [lastOut r] ∧ ∀ o ∈ init, o.taskEnd = false := by
  rcases h with ⟨d, ws, r, rfl⟩
  refine ⟨_, r, rfl, ?_⟩
  intro o ho
  rcases List.mem_append.mp ho with hd | hw
  · rw [List.eq_of_mem_replicate hd]
    rfl
  · rcases List.mem_map.mp hw with ⟨z, _, rfl⟩
    rfl

/-- The words of a memory are the digits of the number in it. -/
theorem toDigits_value {β n : Nat} {f : Nat → Nat} (hf : ∀ k, k < n → f k < β) :
    toDigits β n (value β n f) = (List.range n).map f := by
  have hlt : ∀ d ∈ (List.range n).map f, d < β := by
    intro d hd
    rcases List.mem_map.mp hd with ⟨k, hk, rfl⟩
    exact hf k (List.mem_range.mp hk)
  have h := toDigits_ofDigits β ((List.range n).map f) hlt
  rw [ofDigits_map_range, List.length_map, List.length_range] at h
  exact h

/-! ## A task -/

section Task

variable {w : Nat} {job : Job w}

/-- The second operand. -/
def Job.numY (job : Job w) : Nat := value (2 ^ wordBits) (2 ^ w) job.y

theorem map_range_last (f : Nat → Nat) :
    (List.range (2 ^ w - 1)).map f ++ [f (2 ^ w - 1)] = (List.range (2 ^ w)).map f := by
  have hpos : 0 < 2 ^ w := Nat.two_pow_pos w
  obtain ⟨n, hn⟩ : ∃ n, 2 ^ w = n + 1 := ⟨2 ^ w - 1, by omega⟩
  rw [hn, Nat.add_sub_cancel, List.range_succ, List.map_append, List.map_singleton]

/-- What is shown when the words go out as they are. -/
def nopOuts (d : Nat) (acc : Acc w) : List SpOut :=
  List.replicate d silent
    ++ (silent :: (List.range (2 ^ w)).map (nopShows acc) ++ [lastOut (acc.a (2 ^ w - 1))])

/-- They go out in consecutive clocks. -/
theorem nopOuts_eq (d : Nat) (acc : Acc w) :
    nopOuts d acc = List.replicate (d + 2) silent
      ++ ((List.range (2 ^ w - 1)).map acc.a).map wordOut ++ [lastOut (acc.a (2 ^ w - 1))] := by
  have hshow : (List.range (2 ^ w)).map (nopShows acc)
      = silent :: ((List.range (2 ^ w - 1)).map acc.a).map wordOut := by
    have hpos : 0 < 2 ^ w := Nat.two_pow_pos w
    obtain ⟨n, hn⟩ : ∃ n, 2 ^ w = n + 1 := ⟨2 ^ w - 1, by omega⟩
    rw [hn, List.range_succ_eq_map, List.map_cons, List.map_map, List.map_map, Nat.add_sub_cancel]
    congr 1
  rw [nopOuts, hshow, List.replicate_add]
  simp

theorem granted_nopOuts (d : Nat) (acc : Acc w) :
    granted (nopOuts d acc) = (List.range (2 ^ w)).map acc.a := by
  rw [nopOuts_eq, granted_append, granted_append, granted_replicate, granted_map_wordOut,
    granted_lastOut, granted_nil, List.nil_append, map_range_last]

theorem length_nopOuts (d : Nat) (acc : Acc w) : (nopOuts d acc).length = d + (2 ^ w + 2) := by
  simp [nopOuts]

/-- What is shown when the modulus is subtracted. -/
def subOuts (d : Nat) (job : Job w) (acc : Acc w) : List SpOut :=
  List.replicate d silent
    ++ (silent :: (List.range (2 ^ w)).flatMap (fun l => [silent, subShows job acc l])
      ++ [silent, lastOut (diffWord job acc (2 ^ w - 1))])

/-- The words shown in the two clocks of each word. -/
theorem granted_subShows (acc : Acc w) (k : Nat) :
    granted ((List.range (k + 1)).flatMap fun l => [silent, subShows job acc l])
      = (List.range k).map (diffWord job acc) := by
  induction k with
  | zero => rfl
  | succ k ih =>
      rw [List.range_succ, List.flatMap_append, granted_append, ih, List.range_succ, List.map_append,
        List.flatMap_singleton]
      rfl

theorem granted_subOuts (d : Nat) (acc : Acc w) :
    granted (subOuts d job acc) = (List.range (2 ^ w)).map (diffWord job acc) := by
  have hpos : 0 < 2 ^ w := Nat.two_pow_pos w
  have hshow := @granted_subShows w job acc (2 ^ w - 1)
  rw [show 2 ^ w - 1 + 1 = 2 ^ w by omega] at hshow
  rw [subOuts, granted_append, granted_replicate, List.nil_append, List.cons_append,
    granted_silent, granted_append, hshow, granted_silent, granted_lastOut, granted_nil,
    map_range_last]

theorem length_subOuts (d : Nat) (acc : Acc w) :
    (subOuts d job acc).length = d + (2 * 2 ^ w + 3) := by
  simp only [subOuts, List.length_append, List.length_replicate, List.length_cons, List.length_nil,
    List.length_flatMap, List.map_const', List.sum_replicate, List.length_range, smul_eq_mul]
  omega

theorem subShows_taskEnd (acc : Acc w) (k : Nat) : (subShows job acc k).taskEnd = false := by
  rw [subShows]
  split <;> rfl

theorem subOuts_ends (d : Nat) (acc : Acc w) :
    ∃ init r, subOuts d job acc = init ++ [lastOut r] ∧ ∀ o ∈ init, o.taskEnd = false := by
  refine ⟨List.replicate d silent
    ++ (silent :: (List.range (2 ^ w)).flatMap (fun l => [silent, subShows job acc l])
      ++ [silent]), diffWord job acc (2 ^ w - 1), ?_, ?_⟩
  · simp [subOuts]
  · intro o ho
    simp only [List.mem_append, List.mem_cons, List.mem_flatMap, List.not_mem_nil, or_false] at ho
    rcases ho with hd | (rfl | ⟨l, _, rfl | rfl⟩) | rfl
    · rw [List.eq_of_mem_replicate hd]
      rfl
    · rfl
    · rfl
    · exact subShows_taskEnd acc l
    · rfl

/-- The number that is subtracted from is below twice the modulus, so what is
    left fits. -/
theorem value_diffWord {acc : Acc w} (hle : job.numM ≤ acc.num) (hlt : acc.num < 2 * job.numM) :
    value (2 ^ wordBits) (2 ^ w) (diffWord job acc) = acc.num - job.numM := by
  have hm : job.numM < (2 ^ wordBits) ^ 2 ^ w := numM_lt
  have hsub := value_column_subColumns (b := maxWord) (n := 2 ^ w) (a := acc.a) (m := job.m)
    (Nat.two_pow_pos w) job.m_le
  rw [← radix_eq] at hsub
  rw [show value (2 ^ wordBits) (2 ^ w) job.m = job.numM from rfl] at hsub
  rw [show diffWord job acc = column (2 ^ wordBits) (subColumns maxWord acc.a job.m) from rfl, hsub]
  have htop := acc.top_le
  rw [Acc.num] at hle hlt ⊢
  rcases Nat.le_one_iff_eq_zero_or_eq_one.mp htop with h0 | h1
  · rw [h0, Nat.zero_mul, Nat.add_zero] at hle hlt ⊢
    rw [show value (2 ^ wordBits) (2 ^ w) acc.a + (2 ^ wordBits) ^ 2 ^ w - job.numM
        = value (2 ^ wordBits) (2 ^ w) acc.a - job.numM + (2 ^ wordBits) ^ 2 ^ w by omega,
      Nat.add_mod_right]
    exact Nat.mod_eq_of_lt (by omega)
  · rw [h1, Nat.one_mul] at hle hlt ⊢
    exact Nat.mod_eq_of_lt (by omega)

/-- The most clocks a task takes. -/
def taskClocks (w : Nat) : Nat :=
  roundClocks w + (2 ^ w + 2) + (2 * 2 ^ w + 3)

/-- The modulus has no factor in common with the base. -/
theorem coprime_radix : Nat.Coprime ((2 ^ wordBits) ^ 2 ^ w) job.numM := by
  refine Nat.Coprime.pow_left _ ?_
  have hdvd : Nat.gcd (2 ^ wordBits) job.numM ∣ 1 := by
    have h1 : Nat.gcd (2 ^ wordBits) job.numM ∣ job.m1 * job.numM + 1 :=
      Nat.dvd_trans (Nat.gcd_dvd_left _ _) job.m1_dvd
    have h2 : Nat.gcd (2 ^ wordBits) job.numM ∣ job.m1 * job.numM :=
      Dvd.dvd.mul_left (Nat.gcd_dvd_right _ _) _
    exact (Nat.dvd_add_right h2).mp h1
  exact Nat.dvd_one.mp hdvd

/-- A task in which the accumulator is below the modulus after the rounds. -/
theorem emits_small {s u : Sp} {acc : Acc w} {d : Nat}
    (hu : Emits (Sp.tick w) Sp.view s (List.replicate d still) u)
    (h : AtVerdict job acc u) (hlt : acc.num < job.numM) (hw : w ≤ 5) :
    ∃ t, Emits (Sp.tick w) Sp.view s ((nopOuts d acc).map plain) t ∧ t.Idle w ∧ job.Held t := by
  rcases emits_nop h hlt hw with ⟨t, ht, hidle, hheld⟩
  refine ⟨t, ?_, hidle, hheld⟩
  rw [nopOuts, List.map_append, List.map_replicate]
  exact hu.append ht

/-- The words of an accumulator below the modulus are those of the number. -/
theorem granted_small (d : Nat) {acc : Acc w} (hlt : acc.num < job.numM) :
    granted (nopOuts d acc) = toDigits (2 ^ wordBits) (2 ^ w) acc.num := by
  have htop : acc.top = 0 := by
    by_contra hne
    have htop1 : acc.top = 1 := by
      have := acc.top_le
      omega
    exact Nat.not_le.mpr hlt (numM_le_of_top htop1)
  rw [granted_nopOuts, num_of_top htop]
  exact (toDigits_value fun k hk => lt_radix_iff.mpr (acc.a_le k hk)).symm

/-- From the request to the verdict. -/
theorem emits_verdict {s : Sp} (h : s.Idle w) (hheld : job.Held s) (hw1 : 1 ≤ w) (hw : w ≤ 5) :
    ∃ d u acc, d ≤ roundClocks w + (2 ^ w + 2) ∧
      Emits (Sp.tick w) Sp.view s (List.replicate d still) u ∧
      acc.num = job.acc (2 ^ w) ∧ AtVerdict job acc u := by
  rcases emits_task_rounds h hheld hw with ⟨t, ht, acc, hnum, hfinal, hquiet⟩
  rcases emits_compare hfinal hquiet hw hw1 with ⟨d, u, hd, hu, hverdict⟩
  refine ⟨roundClocks w + d, u, acc, by omega, ?_, hnum, hverdict⟩
  rw [List.replicate_add]
  exact ht.append hu

/-- A task, from the request to the end. -/
theorem emits_task {s : Sp} (h : s.Idle w) (hheld : job.Held s) (hw2 : 2 ≤ w) (hw : w ≤ 5)
    (hxy : job.numX * job.numY < (2 ^ wordBits) ^ 2 ^ w * job.numM) :
    ∃ os t, Emits (Sp.tick w) Sp.out s os t ∧
      Delivers (2 ^ wordBits) (2 ^ w)
        (montMul job.numM ((2 ^ wordBits) ^ 2 ^ w) job.numX job.numY) os ∧
      os.length ≤ taskClocks w ∧ (job.numX * job.numY < job.numM → Direct os) ∧
      t.Idle w ∧ job.Held t := by
  have hβ : 0 < 2 ^ wordBits := Nat.two_pow_pos _
  rcases emits_verdict h hheld (by omega) hw with ⟨d, u, acc, hd, hu, hnum, hverdict⟩
  have hprod : (if job.numM ≤ acc.num then acc.num - job.numM else acc.num)
      = montMul job.numM ((2 ^ wordBits) ^ 2 ^ w) job.numX job.numY := by
    rw [hnum]
    exact montMul_of_rounds hβ numM_pos coprime_radix job.m1_dvd hxy
  -- The result of the rounds is below twice the modulus: one subtraction or none.
  by_cases hle : job.numM ≤ acc.num
  · have hsilent := hu.map Prod.fst
    rw [List.map_replicate] at hsilent
    rcases emits_sub hverdict hle hw hw2 with ⟨v, hv, hidle, hheld'⟩
    refine ⟨subOuts d job acc, v, hsilent.append hv, ⟨subOuts_ends _ acc, ?_⟩,
      ?_, ?_, hidle, hheld'⟩
    · rw [if_pos hle] at hprod
      have htwice : acc.num < 2 * job.numM := by
        rw [hnum]
        exact rounds_lt_two_mul hβ job.m1_dvd hxy
      rw [granted_subOuts, ← hprod, ← value_diffWord hle htwice]
      exact (toDigits_value fun k _ => Nat.mod_lt _ hβ).symm
    · rw [length_subOuts, taskClocks]
      omega
    · intro hsmall
      have hlt : acc.num < job.numM := by
        rw [hnum]
        exact rounds_lt_modulus hβ job.m1_dvd hsmall
      exact absurd hle (Nat.not_le.mpr hlt)
  · have hlt : acc.num < job.numM := Nat.not_le.mp hle
    rcases emits_small hu hverdict hlt hw with ⟨v, hv, hidle, hheld'⟩
    have hout := hv.map Prod.fst
    rw [List.map_map, show Prod.fst ∘ plain = id from rfl, List.map_id] at hout
    have hdirect : Direct (nopOuts d acc) := ⟨_, _, _, nopOuts_eq _ acc⟩
    refine ⟨nopOuts d acc, v, hout, ⟨hdirect.ends, ?_⟩, ?_, fun _ => hdirect, hidle, hheld'⟩
    · rw [if_neg hle] at hprod
      rw [granted_small d hlt, hprod]
    · rw [length_nopOuts, taskClocks]
      omega

end Task

/-! ## From the numbers -/

/-- The memories hold the words of the operands and the modulus, with nothing
    above the first operand. -/
structure Loaded (w : Nat) (s : Sp) (x y m m1 : Nat) : Prop where
  x : ∀ k, k < 2 ^ w → s.x.mem k = x / (2 ^ wordBits) ^ k % 2 ^ wordBits
  xTop : s.x.mem (2 ^ w) = 0
  y : ∀ k, k < 2 ^ w → s.y.mem k = y / (2 ^ wordBits) ^ k % 2 ^ wordBits
  m : ∀ k, k < 2 ^ w → s.m.mem k = m / (2 ^ wordBits) ^ k % 2 ^ wordBits
  m1 : s.m1 = m1

theorem idle_reset {w : Nat} {x y m a : Ram} {m1 : Nat} {adder : P1Adder}
    (ha : ∀ k, k < 2 ^ w → a.mem k = 0) : (Sp.reset w x y m a m1 adder).Idle w :=
  ⟨⟨rfl, rfl, rfl, rfl, rfl, rfl, rfl, rfl⟩, ⟨rfl, rfl, rfl, rfl, rfl⟩, ha⟩

section Numbers

variable {w : Nat} {s : Sp} {x y m m1 : Nat}

theorem value_of_words {f : Nat → Nat} {v : Nat}
    (hf : ∀ k, k < 2 ^ w → f k = v / (2 ^ wordBits) ^ k % 2 ^ wordBits)
    (hv : v < (2 ^ wordBits) ^ 2 ^ w) : value (2 ^ wordBits) (2 ^ w) f = v := by
  rw [value_congr hf, value_digits, Nat.mod_eq_of_lt hv]

theorem word_le {f : Nat → Nat} {v : Nat}
    (hf : ∀ k, k < 2 ^ w → f k = v / (2 ^ wordBits) ^ k % 2 ^ wordBits) :
    ∀ k, k < 2 ^ w → f k ≤ maxWord := by
  intro k hk
  rw [hf k hk]
  exact lt_radix_iff.mp (Nat.mod_lt _ (Nat.two_pow_pos _))

/-- The job in the memories. -/
def Loaded.job (h : Loaded w s x y m m1) (hm : m < (2 ^ wordBits) ^ 2 ^ w)
    (hm1 : (m1 * m + 1) % 2 ^ wordBits = 0) : Job w where
  x := s.x.mem
  y := s.y.mem
  m := s.m.mem
  m1 := m1
  x_le := word_le h.x
  y_le := word_le h.y
  m_le := word_le h.m
  x_top := h.xTop
  m1_dvd := by
    rw [value_of_words h.m hm]
    exact Nat.dvd_of_mod_eq_zero hm1

end Numbers

/-- One task of the multiplier with 4, 8, 16 or 32 words: from any state in
    which it waits for a task with an empty accumulator, it shows the words of
    `x * y * 2 ** (-K * N)` modulo `m`, the lowest first, and waits again with
    everything in place for the next task. That `m1` is the negated inverse of
    `m` makes `m` odd. -/
theorem task_delivers (w : Nat) (hw2 : 2 ≤ w) (hw5 : w ≤ 5) (s : Sp) (x y m m1 : Nat)
    (hx : x < 2 ^ (wordBits * 2 ^ w)) (hm : m < 2 ^ (wordBits * 2 ^ w)) (hy : y < m)
    (hm1 : (m1 * m + 1) % 2 ^ wordBits = 0) (hidle : s.Idle w)
    (hload : Loaded w s x y m m1) :
    ∃ os t, Emits (Sp.tick w) Sp.out s os t ∧
      (∃ init r, os = init ++ [lastOut r] ∧ ∀ o ∈ init, o.taskEnd = false) ∧
      granted os
        = toDigits (2 ^ wordBits) (2 ^ w) (montMul m (2 ^ (wordBits * 2 ^ w)) x y) ∧
      montMul m (2 ^ (wordBits * 2 ^ w)) x y < m ∧
      t.Idle w ∧ Loaded w t x y m m1 := by
  rw [pow_mul] at hx hm ⊢
  have hY : y < (2 ^ wordBits) ^ 2 ^ w := Nat.lt_trans hy hm
  let job := hload.job hm hm1
  have hheld : job.Held s := ⟨rfl, rfl, rfl, hload.m1⟩
  have hnumX : job.numX = x := value_of_words hload.x hx
  have hnumY : job.numY = y := value_of_words hload.y hY
  have hnumM : job.numM = m := value_of_words hload.m hm
  have hxy : job.numX * job.numY < (2 ^ wordBits) ^ 2 ^ w * job.numM := by
    rw [hnumX, hnumY, hnumM]
    exact Nat.mul_lt_mul'' hx hy
  rcases emits_task hidle hheld hw2 hw5 hxy with ⟨os, t, ht, hdel, _, _, hidle', hheld'⟩
  rw [hnumX, hnumY, hnumM] at hdel
  refine ⟨os, t, ht, hdel.ends, hdel.words, montMul_lt (by omega), hidle', ?_⟩
  -- The memories of the operands and the modulus are as they were.
  refine ⟨?_, ?_, ?_, ?_, hheld'.m1⟩
  · rw [hheld'.x]
    exact hload.x
  · rw [hheld'.x]
    exact hload.xTop
  · rw [hheld'.y]
    exact hload.y
  · rw [hheld'.m]
    exact hload.m

/-- A multiplier that was reset, with given numbers in its memories. -/
def holding (w x y m m1 : Nat) : Sp :=
  Sp.reset w ⟨fun k => if k < 2 ^ w then x / (2 ^ wordBits) ^ k % 2 ^ wordBits else 0, 0⟩
    ⟨fun k => y / (2 ^ wordBits) ^ k % 2 ^ wordBits, 0⟩
    ⟨fun k => m / (2 ^ wordBits) ^ k % 2 ^ wordBits, 0⟩ ⟨fun _ => 0, 0⟩ m1 ⟨0, 0, 0, 0⟩

theorem idle_holding (w x y m m1 : Nat) : (holding w x y m m1).Idle w :=
  idle_reset fun _ _ => rfl

theorem loaded_holding (w x y m m1 : Nat) : Loaded w (holding w x y m m1) x y m m1 :=
  ⟨fun _ hk => if_pos hk, if_neg (Nat.lt_irrefl _), fun _ _ => rfl, fun _ _ => rfl, rfl⟩

/-- The negated inverse of 7. -/
def negInvSeven : Nat := 0x49249249249249249249249249249249

theorem task_delivers_seven :
    ∃ os t, Emits (Sp.tick 2) Sp.out (holding 2 5 2 7 negInvSeven) os t ∧
      granted os = [6, 0, 0, 0] ∧ t.Idle 2 ∧ Loaded 2 t 5 2 7 negInvSeven := by
  have hprod : 6 = montMul 7 (2 ^ (wordBits * 2 ^ 2)) 5 2 :=
    eq_montMul (by decide) (by decide +kernel) (by decide) (by decide +kernel)
  rcases task_delivers 2 (by decide) (by decide) (holding 2 5 2 7 negInvSeven) 5 2 7 negInvSeven
    (by decide +kernel) (by decide +kernel) (by decide) (by decide +kernel) (idle_holding ..)
    (loaded_holding ..) with ⟨os, t, ht, _, hwords, _, hidle, hload⟩
  rw [← hprod] at hwords
  refine ⟨os, t, ht, ?_, hidle, hload⟩
  rw [hwords]
  decide +kernel

/-! ## Too many words -/

/-- The columns never end. -/
structure Endless (s : Sp) : Prop where
  st : s.ctrl.st = .st0 ∨ s.ctrl.st = .st1 ∨ s.ctrl.st = .st2
  compReq : s.ctrl.compReq = false
  quiet : s.sub.Quiet
  _j : s.ctrl._j < 2 ^ 6

/-- With 64 words the counter of six bits does not reach their number. -/
theorem endless_tick {s : Sp} (h : Endless s) : Endless (s.tick 6) := by
  have hne : s.ctrl._j ≠ 2 ^ 6 := Nat.ne_of_lt h._j
  have hquiet : (s.tick 6).sub.Quiet := by
    rw [sub_tick, h.compReq]
    exact h.quiet.step ..
  have hj := h._j
  have hmod : (s.ctrl._j + 1) % 64 < 64 := Nat.mod_lt _ (by decide)
  rcases h.st with hst | hst | hst <;> cases hen : s.ctrl.taskEn <;>
    refine ⟨?_, ?_, hquiet, ?_⟩ <;>
    simp_all [ctrl_tick, Ctrl.step, h.compReq]

/-- Whatever such a multiplier shows, there is no word in it. -/
theorem endless_emits {s t : Sp} {os : List SpOut} (h : Endless s)
    (hemits : Emits (Sp.tick 6) Sp.out s os t) : granted os = [] := by
  induction os generalizing s with
  | nil => rfl
  | cons o os ih =>
      rw [← hemits.1, out_of_quiet h.quiet, granted_silent]
      exact ih (endless_tick h) hemits.2

/-- The negated inverse of 3. -/
def negInvThree : Nat := 0x55555555555555555555555555555555

/-- With 64 words no word of the product is ever shown. -/
theorem sixty_four_words_silent :
    (negInvThree * 3 + 1) % 2 ^ wordBits = 0 ∧ (holding 6 1 1 3 negInvThree).Idle 6 ∧
      Loaded 6 (holding 6 1 1 3 negInvThree) 1 1 3 negInvThree ∧
      ∀ os t, Emits (Sp.tick 6) Sp.out (holding 6 1 1 3 negInvThree) os t → granted os = [] :=
  ⟨by decide +kernel, idle_holding .., loaded_holding .., fun _ _ =>
    endless_emits ⟨Or.inl rfl, rfl, ⟨rfl, rfl, rfl, rfl, rfl⟩, by decide⟩⟩

end Rsa

end Wujian100
