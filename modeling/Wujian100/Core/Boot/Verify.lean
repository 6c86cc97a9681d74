import Wujian100.Core.Bytes

/-!
# Firmware Signature Verification

The two verification paths of the boot ROM, `firmware_verify_hw` and
`firmware_verify_sw`. The mode pin selects which of them `firmware_verify`
runs; both use the key compiled into the ROM.

The software path is mbedTLS, `sdk/projects/apps/wujian100_open-library/mbedtls`.
`rsaPkcs1Verify` takes `mbedtls_rsa_pkcs1_verify` as RSASSA-PKCS1-v1_5 verification,
which its `library/rsa.c` implements: the signature is below the modulus, and its
power is the whole encoded block. The hardware path hands the signature to the accelerator and compares the low
`SHA2_WORDS_SHA_256 * 4` bytes of what comes back with the digest.

The digest engines and the accelerator are parameters, collected in `Crypto`.
`Crypto.Ideal` is what the board promises about them: the two engines agree on
the digest, the SHA-2 block leaving it in the word order `main.c` compares, and
the accelerator raises to the public exponent modulo the key.

## Main definitions

* `pubkeyN`, `pubkeyE`: The key in the ROM.
* `emsaPkcs1`: The encoded block of a digest.
* `rsaPkcs1Verify`: The mbedTLS verification.
* `rsaCalcData`: The accelerator driver.
* `firmwareVerifySw`, `firmwareVerifyHw`, `firmwareVerify`: The three
  functions of `main.c`.
-/

namespace Wujian100

namespace Boot

/-- `pubkey_n`, read by `mbedtls_mpi_read_string` in base 16. -/
def pubkeyN : Nat :=
  0xDC1B56F36E933EC234545C4715370B14CAE00EA9376E9F65DE2C1361F116F05A4C2FF556FF0052F8E2D3434FF5E843A6B246449DE6C8F04C7CA821EFFBAA1DBCC7A1B903A05B7671BB6D0FD8639D492C5B74C2C91510E3B006B227CBF14A694C21A98A4B1A2474613ECD29405863716CF3DF5D3160ED0B992A25B35626E67FF1AA9242ED3A1F7EAD7C638B26DBE3624B6712055E101C07761FA6EFE38D915006F52BB4D76E52F13EAD7D04B046FB4ACFC02A57E02CF28CC1AFC3D22B572669A99EE7D357B840BC8BFA4EB1BBAD287824D93AC259D59EBBAA798ED0F026E5A0E05392683A68B16964160DF9366AF79B0AA8D95FA996E636022E584863A3F4E0D1

/-- `pubkey_e`. -/
def pubkeyE : Nat := 0x010001

/-- A 256-byte signature, `firmware_app0_sign` and `firmware_app1_sign`. -/
structure Signature where
  bytes : List UInt8
  length_eq : bytes.length = 256

/-- What the verification rests on: the digest of `mbedtls_md`, the buffer
    `sha2_calc_data` fills, and the accelerator behind `RSA_DATA_REG`. -/
structure Crypto where
  sha256 : List UInt8 → List UInt8
  sha2CalcData : List UInt8 → List UInt8
  accelerator : Nat → Nat

/-- The behaviour `main.c` relies on. -/
structure Crypto.Ideal (c : Crypto) : Prop where
  length_sha256 : ∀ data, (c.sha256 data).length = 32
  take_sha2CalcData : ∀ data, (c.sha2CalcData data).take 32 = (c.sha256 data).reverse
  accelerator_eq : ∀ s, s < 256 ^ 256 → c.accelerator s = s ^ pubkeyE % pubkeyN

/-- The DER prefix of a SHA-256 `DigestInfo`. -/
def digestInfoSha256 : List UInt8 :=
  [0x30, 0x31, 0x30, 0x0d, 0x06, 0x09, 0x60, 0x86, 0x48, 0x01, 0x65, 0x03, 0x04, 0x02, 0x01,
    0x05, 0x00, 0x04, 0x20]

/-- Everything of the encoded block above the digest. -/
def emsaPrefix : List UInt8 :=
  [0x00, 0x01] ++ List.replicate 202 0xff ++ [0x00] ++ digestInfoSha256

/-- `00 01 FF .. FF 00 || DigestInfo || h`, 256 bytes for a 2048-bit key. -/
def emsaPkcs1 (hash : List UInt8) : List UInt8 := emsaPrefix ++ hash

/-- `mbedtls_rsa_pkcs1_verify` for `MBEDTLS_MD_SHA256`. -/
def rsaPkcs1Verify (n e : Nat) (hash sign : List UInt8) : Bool :=
  decide (beValue sign < n) && decide (beValue sign ^ e % n = beValue (emsaPkcs1 hash))

/-- `mbedtls_mpi_bitlen`, of a positive number. -/
def mpiBitlen (n : Nat) : Nat := Nat.log2 n + 1

/-- `firmware_verify_sw`. `rsa.len` is the byte length of the modulus. -/
def firmwareVerifySw (c : Crypto) (data : List UInt8) (sign : List UInt8) (signSize : Nat) :
    Bool :=
  if signSize ≠ (mpiBitlen pubkeyN + 7) >>> 3 then false
  else rsaPkcs1Verify pubkeyN pubkeyE (c.sha256 data) sign

/-- `rsa_calc_data`: 64 words in, 64 words out, low word first. -/
def rsaCalcData (accelerator : Nat → Nat) (input : List Nat) : List Nat :=
  toDigits (2 ^ 32) 64 (accelerator (Nat.ofDigits (2 ^ 32) (input.take 64)))

/-- `firmware_verify_hw`: the signature is reversed into `sign_hash`, replaced
    there by the accelerator's answer, and compared with `calc_hash`. -/
def firmwareVerifyHw (c : Crypto) (data : List UInt8) (sign : List UInt8) : Bool :=
  let calcHash := c.sha2CalcData data
  let signHash := (List.range 256).map (fun i => sign.getD (255 - i) 0)
  let result := bytesOfWords (rsaCalcData c.accelerator (wordsOfBytes signHash))
  decide (result.take (8 * 4) = calcHash.take (8 * 4))

/-- `firmware_verify`: the mode pin selects the path. -/
def firmwareVerify (c : Crypto) (mode : Bool) (data : List UInt8) (sign : List UInt8)
    (signSize : Nat) : Bool :=
  if mode then firmwareVerifyHw c data sign else firmwareVerifySw c data sign signSize

end Boot

end Wujian100
