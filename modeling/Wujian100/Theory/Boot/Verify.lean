import Wujian100.Core.Boot.Verify

/-!
# When the Two Verification Paths Agree

The software path accepts a signature when the whole recovered block is the
PKCS#1 encoding of the digest and the signature is in range. The hardware path
looks at the low 32 bytes of the recovered block only. Every signature the
software path accepts is therefore accepted by the hardware path, and the
converse fails exactly on the signatures whose block ends in the digest
without being a well-formed encoding.

`hwAccepts_iff` and `swAccepts_iff` state each path's decision as arithmetic on
the two numbers; `verify_agree_iff` compares them.

## Main definitions

* `recovered`: The block a signature opens to.
* `WellFormed`: A signature in range whose block carries the PKCS#1 prefix.
* `digestOfA`, `cryptoOfA`: The engines on a one-byte image.
* `rawSignature`: A signature of that image's digest without any padding.

## Theorems

* `iterate_square_mod`: Repeated squaring computes a power.
* `pow_pubkeyE_mod`: The public power by squaring.
* `hwAccepts_iff`: The hardware path's decision.
* `swAccepts_iff`: The software path's decision.
* `verify_agree_iff`: The paths agree exactly off the unpadded blocks.
* `recovered_rawSignature`: The unpadded signature opens to the bare digest.
* `verify_paths_differ`: An unpadded signature is accepted by one path only.
-/

namespace Wujian100

namespace Boot

/-- Repeated squaring modulo `n`. -/
theorem iterate_square_mod (n s k : Nat) :
    (fun t => t * t % n)^[k] (s % n) = s ^ 2 ^ k % n := by
  induction k with
  | zero => simp only [Function.iterate_zero_apply, pow_zero, pow_one]
  | succ j ih =>
      rw [Function.iterate_succ_apply', ih, ← Nat.mul_mod, ← pow_add, pow_succ, Nat.mul_two]

/-- The public exponent is `2 ^ 16 + 1`: sixteen squarings and one product. -/
theorem pow_pubkeyE_mod (n s : Nat) :
    s ^ pubkeyE % n = (fun t => t * t % n)^[16] (s % n) * s % n := by
  rw [iterate_square_mod, Nat.mod_mul_mod, ← pow_succ]
  rfl

/-- The block a signature opens to. -/
def recovered (sign : Signature) : Nat := beValue sign.bytes ^ pubkeyE % pubkeyN

/-- The signature is in range and the 224 high bytes of its block are the
    PKCS#1 padding and the SHA-256 `DigestInfo` prefix. -/
def WellFormed (sign : Signature) : Prop :=
  beValue sign.bytes < pubkeyN ∧ recovered sign / 2 ^ 256 = beValue emsaPrefix

theorem pow256 (n : Nat) : (256 : Nat) ^ n = 2 ^ (8 * n) := by
  rw [pow_mul]
  norm_num

theorem beValue_lt (l : List UInt8) : beValue l < 256 ^ l.length := by
  have h := leValue_lt l.reverse
  rwa [List.length_reverse] at h

/-- Appending low bytes to a big-endian buffer. -/
theorem beValue_append (l r : List UInt8) :
    beValue (l ++ r) = beValue r + 256 ^ r.length * beValue l := by
  rw [beValue, List.reverse_append, leValue_append, List.length_reverse]
  rfl

theorem reverse_by_index (sign : Signature) :
    (List.range 256).map (fun i => sign.bytes.getD (255 - i) 0) = sign.bytes.reverse := by
  have hlen := sign.length_eq
  refine List.ext_getElem ?_ (fun i h1 h2 => ?_)
  · simp only [List.length_map, List.length_range, List.length_reverse, hlen]
  · simp only [List.length_map, List.length_range] at h1
    rw [List.getElem_map, List.getElem_range, List.getElem_reverse,
      List.getD_eq_getElem?_getD, List.getElem?_eq_getElem (by omega), Option.getD_some]
    congr 1
    omega

/-- What the accelerator driver leaves in `sign_hash`. -/
theorem bytes_rsaCalcData (c : Crypto) (hc : c.Ideal) (sign : Signature) :
    bytesOfWords (rsaCalcData c.accelerator (wordsOfBytes sign.bytes.reverse))
      = leBytes 256 (recovered sign) := by
  have hlen : sign.bytes.reverse.length = 256 := by rw [List.length_reverse, sign.length_eq]
  have hwords : (wordsOfBytes sign.bytes.reverse).take 64 = wordsOfBytes sign.bytes.reverse := by
    refine List.take_of_length_le ?_
    rw [length_wordsOfBytes, hlen]
  have hin : Nat.ofDigits (2 ^ 32) (wordsOfBytes sign.bytes.reverse) = beValue sign.bytes :=
    ofDigits_wordsOfBytes _ (by rw [hlen])
  have hlt : beValue sign.bytes < 256 ^ 256 := by
    have h := beValue_lt sign.bytes
    rwa [sign.length_eq] at h
  rw [rsaCalcData, hwords, hin, bytesOfWords_toDigits, hc.accelerator_eq _ hlt]
  rfl

theorem recovered_lt (sign : Signature) : recovered sign < 256 ^ 256 := by
  have hlt : recovered sign < pubkeyN := Nat.mod_lt _ (by decide +kernel)
  have hn : pubkeyN < 256 ^ 256 := by decide +kernel
  exact Nat.lt_trans hlt hn

/-- The hardware path accepts when the low 32 bytes of the block are the
    digest. -/
theorem hwAccepts_iff (c : Crypto) (hc : c.Ideal) (data : List UInt8) (sign : Signature) :
    firmwareVerifyHw c data sign.bytes = true
      ↔ recovered sign % 2 ^ 256 = beValue (c.sha256 data) := by
  have hblock : leValue (leBytes 256 (recovered sign)) = recovered sign := by
    rw [leValue_leBytes]
    exact Nat.mod_eq_of_lt (recovered_lt sign)
  have hlow : leValue ((leBytes 256 (recovered sign)).take 32) = recovered sign % 2 ^ 256 := by
    rw [leValue_take _ _ (by rw [length_leBytes]; omega), hblock, pow256]
  simp only [firmwareVerifyHw, reverse_by_index, bytes_rsaCalcData c hc, decide_eq_true_eq,
    Nat.reduceMul, hc.take_sha2CalcData]
  constructor
  · intro h
    rw [← hlow, h]
    rfl
  · intro h
    refine leValue_inj ?_ ?_
    · rw [List.length_take, length_leBytes, List.length_reverse, hc.length_sha256]
      omega
    · rw [hlow, h]
      rfl

/-- The software path accepts when the signature is in range and the block is
    the encoding of the digest. -/
theorem swAccepts_iff (c : Crypto) (data : List UInt8) (sign : Signature) :
    firmwareVerifySw c data sign.bytes 256 = true
      ↔ beValue sign.bytes < pubkeyN ∧ recovered sign = beValue (emsaPkcs1 (c.sha256 data)) := by
  have hsize : ¬ (256 ≠ (mpiBitlen pubkeyN + 7) >>> 3) := by decide +kernel
  rw [firmwareVerifySw, if_neg hsize, rsaPkcs1Verify, Bool.and_eq_true, decide_eq_true_eq,
    decide_eq_true_eq]
  rfl

/-- The encoding splits into the prefix and the digest. -/
theorem beValue_emsaPkcs1 (hash : List UInt8) (hlen : hash.length = 32) :
    beValue (emsaPkcs1 hash) = beValue hash + 2 ^ 256 * beValue emsaPrefix := by
  rw [emsaPkcs1, beValue_append, hlen, pow256]

/-- The two paths give the same answer exactly when the signature is a
    well-formed encoding or the low bytes of its block miss the digest. -/
theorem verify_agree_iff (c : Crypto) (hc : c.Ideal) (data : List UInt8) (sign : Signature) :
    firmwareVerify c true data sign.bytes 256 = firmwareVerify c false data sign.bytes 256
      ↔ WellFormed sign ∨ recovered sign % 2 ^ 256 ≠ beValue (c.sha256 data) := by
  have hhash : beValue (c.sha256 data) < 2 ^ 256 := by
    have h := beValue_lt (c.sha256 data)
    rwa [hc.length_sha256, pow256] at h
  have hemsa := beValue_emsaPkcs1 (c.sha256 data) (hc.length_sha256 data)
  rw [Bool.eq_iff_iff]
  simp only [firmwareVerify, if_true, Bool.false_eq_true, if_false]
  rw [hwAccepts_iff c hc, swAccepts_iff, hemsa, WellFormed]
  have hsplit := Nat.mod_add_div (recovered sign) (2 ^ 256)
  constructor
  · intro hagree
    by_cases hlow : recovered sign % 2 ^ 256 = beValue (c.sha256 data)
    · rcases hagree.mp hlow with ⟨hrange, hblock⟩
      refine Or.inl ⟨hrange, ?_⟩
      omega
    · exact Or.inr hlow
  · intro hcond
    constructor
    · intro hlow
      rcases hcond with ⟨hrange, hhigh⟩ | hne
      · refine ⟨hrange, ?_⟩
        rw [← hsplit, hlow, hhigh]
      · exact absurd hlow hne
    · rintro ⟨_, hblock⟩
      rw [hblock, Nat.add_mul_mod_self_left, Nat.mod_eq_of_lt hhash]

/-- The SHA-256 digest of the one-byte image `61`. -/
def digestOfA : List UInt8 :=
  (leBytes 32 0xca978112ca1bbdcafac231b39a23dc4da786eff8147c4e72b9807785afee48bb).reverse

/-- The board's engines, with the digest they return for the image `61`. -/
def cryptoOfA : Crypto where
  sha256 := fun _ => digestOfA
  sha2CalcData := fun _ => digestOfA.reverse ++ List.replicate 96 0
  accelerator := fun s => s ^ pubkeyE % pubkeyN

theorem cryptoOfA_ideal : cryptoOfA.Ideal where
  length_sha256 := fun _ => rfl
  take_sha2CalcData := fun _ => rfl
  accelerator_eq := fun _ _ => rfl

/-- The digest of the image `61` signed as it is, without the padding. -/
def rawSignature : Signature where
  bytes := (leBytes 256
    0xc4d2d611608c7ebbbf71adf8f31dc2e7940a40d90e63ef6bd11bd77c903fc41ce6244b6439c1815e52da2af63125790f6be678e6d71e8d522472607a2092508a78c423ad9396860aebe997c8422150d82d258a2ff660a62a7036e4b7206f0973b62218707641752d0c5dc6ef348e62153ffdd0681cd7f04c884a71c3bc0e6a4350c6f5104ed0bb71252c3bafed64e4b80799181ddd9c2b3caabb811d747fb6f944f57a2356fa89eeaabc0e1c1be46a436785b25e35f046ec9eb735e1ba6d9ad45d1fa56852c2d0a27ef8109a38f786e33ee872c462b62178141c08557ea7803d38d9e26a224c53d7726b8c98aa604184eddf6ba5afe4c510e03ab0cf47bd472).reverse
  length_eq := by rw [List.length_reverse, length_leBytes]

theorem recovered_rawSignature : recovered rawSignature = beValue digestOfA := by
  rw [recovered, pow_pubkeyE_mod]
  decide +kernel

/-- The paths differ on an unpadded signature: the hardware path takes it for
    a valid one, the software path does not. -/
theorem verify_paths_differ :
    firmwareVerify cryptoOfA true [0x61] rawSignature.bytes 256 = true ∧
      firmwareVerify cryptoOfA false [0x61] rawSignature.bytes 256 = false := by
  simp only [firmwareVerify, if_true, Bool.false_eq_true, if_false, ← Bool.not_eq_true]
  rw [hwAccepts_iff cryptoOfA cryptoOfA_ideal, swAccepts_iff, recovered_rawSignature]
  constructor
  · decide +kernel
  · rintro ⟨_, hblock⟩
    exact absurd hblock (by decide +kernel)

/-- The criterion at the unpadded signature. -/
theorem verify_agree_iff_at_raw :
    cryptoOfA.Ideal ∧
      (firmwareVerify cryptoOfA true [0x61] rawSignature.bytes 256
          = firmwareVerify cryptoOfA false [0x61] rawSignature.bytes 256
        ↔ WellFormed rawSignature ∨
          recovered rawSignature % 2 ^ 256 ≠ beValue (cryptoOfA.sha256 [0x61])) :=
  ⟨cryptoOfA_ideal, verify_agree_iff cryptoOfA cryptoOfA_ideal [0x61] rawSignature⟩

end Boot

end Wujian100
