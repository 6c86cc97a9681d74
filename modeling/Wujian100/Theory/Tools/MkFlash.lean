import Wujian100.Core.Tools.MkFlash
import Wujian100.Theory.Boot.Main

/-!
# The Boot ROM Reads What `mkflash` Wrote

The writer of the image knows lengths and the reader knows addresses. They meet
in `flashBytes_part`: the bytes of an image from the length of what was written
before a part, over the length of the part, are that part. Every slot of the
ROM is then one equation between a constant of `main.c` and a sum of lengths.

The signatures pass through their text. `SignText` is the format as a relation,
free in the case of the digits and in the choice of the separators, and
`readSign_signText` says that the loop of `mkflash` recovers the bytes from any
text of that format; `signText_rsaSignText` that `rsa_sign` writes one.

## Main definitions

* `SignText`: The texts of a signature.
* `chipOf`: A chip programmed with an image.
* `Slot`: A firmware in its place.

## Theorems

* `fscanf02X_pair`: One byte of a text is read back.
* `readSign_signText`: A signature is read back.
* `signText_rsaSignText`: `rsa_sign` writes the format.
* `flashBytes_part`: A part of an image, read by its address.
* `mkflash_slots`: Both firmwares are in their places.
* `mkflash_readback`: The ROM sees the files `mkflash` was given.
-/

namespace Wujian100

namespace Tools

open Boot

/-- The texts of a signature: two digits a byte, each byte followed by a space
    or by CR LF, the last one by nothing if need be. -/
inductive SignText : List UInt8 → List Char → Prop
  | nil : SignText [] []
  | cons (b : UInt8) (hi lo : Char) (sep : List Char) (bytes : List UInt8) (text : List Char)
      (hhi : hexDigit hi = some (b.toNat / 16)) (hlo : hexDigit lo = some (b.toNat % 16))
      (hsep : sep = [' '] ∨ sep = ['\r', '\n'] ∨ (sep = [] ∧ bytes = []))
      (hrest : SignText bytes text) : SignText (b :: bytes) (hi :: lo :: (sep ++ text))

/-- A digit differs from every character that is none. -/
theorem ne_of_hexDigit {c : Char} {v : Nat} (h : hexDigit c = some v) (d : Char)
    (hd : hexDigit d = none) : c ≠ d := by
  rintro rfl
  rw [h] at hd
  exact Option.some_ne_none v hd

theorem isSpace_of_hexDigit {c : Char} {v : Nat} (h : hexDigit c = some v) :
    isSpace c = false := by
  have hne := ne_of_hexDigit h
  simp only [isSpace, Bool.or_eq_false_iff, beq_eq_false_iff_ne]
  exact ⟨⟨⟨⟨⟨hne _ rfl, hne _ rfl⟩, hne _ rfl⟩, hne _ rfl⟩, hne _ rfl⟩, hne _ rfl⟩

/-- A separator in front of a number is skipped. -/
theorem fscanf02X_space (sep text : List Char) (hsep : ∀ c ∈ sep, isSpace c = true) :
    fscanf02X (sep ++ text) = fscanf02X text := by
  induction sep with
  | nil => rfl
  | cons c rest ih =>
      have hc := hsep c List.mem_cons_self
      have hrest := ih (fun d hd => hsep d (List.mem_cons_of_mem c hd))
      rw [← hrest]
      simp only [fscanf02X, List.cons_append, List.dropWhile_cons, hc, if_true]

/-- Two digits are one number. -/
theorem fscanf02X_pair {hi lo : Char} {a b : Nat} (text : List Char)
    (hhi : hexDigit hi = some a) (hlo : hexDigit lo = some b) :
    fscanf02X (hi :: lo :: text) = some (16 * a + b, text) := by
  have hne := ne_of_hexDigit hhi
  have hne' := ne_of_hexDigit hlo
  have hsign : ¬ (hi = '+' ∨ hi = '-') := not_or.mpr ⟨hne _ rfl, hne _ rfl⟩
  have hx : ¬ (hi = '0' ∧ (lo = 'x' ∨ lo = 'X')) :=
    fun h => h.2.elim (hne' _ rfl) (hne' _ rfl)
  simp only [fscanf02X, List.dropWhile_cons, isSpace_of_hexDigit hhi, Bool.false_eq_true,
    if_false, scanHex, if_neg hsign, hhi, if_neg hx, hlo]

theorem separator_isSpace {sep : List Char} {p : Prop}
    (hsep : sep = [' '] ∨ sep = ['\r', '\n'] ∨ (sep = [] ∧ p)) :
    ∀ c ∈ sep, isSpace c = true := by
  intro c hc
  rcases hsep with rfl | rfl | ⟨rfl, _⟩
  · rw [List.mem_singleton.mp hc]
    rfl
  · rcases List.mem_pair.mp hc with rfl | rfl <;> rfl
  · exact absurd hc List.not_mem_nil

theorem readSign_space (room : Nat) (sep text : List Char) (buf : List UInt8)
    (hsep : ∀ c ∈ sep, isSpace c = true) :
    readSign room (sep ++ text) buf = readSign room text buf := by
  rw [readSign, readSign, fscanf02X_space sep text hsep]

/-- The loop of `mkflash` fills the rest of `buf` with the bytes of a text. -/
theorem readSign_signText {bytes : List UInt8} {text : List Char} (h : SignText bytes text) :
    ∀ (done old : List UInt8), old.length = bytes.length →
      readSign bytes.length text (done ++ old) = done ++ bytes := by
  induction h with
  | nil =>
      intro done old hold
      rw [List.length_nil, List.length_eq_zero_iff] at hold
      rw [hold]
      rfl
  | cons b hi lo sep bytes text hhi hlo hsep _ ih =>
      intro done old hold
      rcases List.exists_cons_of_length_eq_add_one hold with ⟨o, rest, rfl⟩
      have hrest : rest.length = bytes.length := by simpa using hold
      have hbyte : UInt8.ofNat (16 * (b.toNat / 16) + b.toNat % 16) = b := by
        rw [Nat.div_add_mod, UInt8.ofNat_toNat]
      have hindex : (done ++ o :: rest).length - (bytes.length + 1) = done.length := by
        rw [List.length_append, List.length_cons, hrest]
        omega
      rw [List.length_cons, readSign, fscanf02X_pair _ hhi hlo]
      simp only [hbyte, hindex]
      rw [readSign_space _ _ _ _ (separator_isSpace hsep), List.set_append_right _ _ (Nat.le_refl _),
        Nat.sub_self, List.set_cons_zero]
      have hnext := ih (done ++ [b]) rest hrest
      rwa [List.append_assoc, List.append_assoc] at hnext

theorem hexDigit_upperHexDigit : ∀ v, v < 16 → hexDigit (upperHexDigit v) = some v := by
  decide

/-- `rsa_sign` writes the format. -/
theorem signText_rsaSignText (bytes : List UInt8) :
    ∀ i, SignText bytes (rsaSignText i bytes) := by
  induction bytes with
  | nil => exact fun _ => .nil
  | cons b rest ih =>
      intro i
      have hb := b.toNat_lt
      have hsep : (if (i + 1) % 16 = 0 then ['\r', '\n'] else [' ']) = [' '] ∨
          (if (i + 1) % 16 = 0 then ['\r', '\n'] else [' ']) = ['\r', '\n'] ∨
          ((if (i + 1) % 16 = 0 then ['\r', '\n'] else [' ']) = [] ∧ rest = []) := by
        split
        · exact Or.inr (Or.inl rfl)
        · exact Or.inl rfl
      exact .cons b _ _ _ rest _ (hexDigit_upperHexDigit _ (by omega))
        (hexDigit_upperHexDigit _ (by omega)) hsep (ih (i + 1))

/-- What a chip programmed with an image holds; the rest of it is erased. -/
def chipOf (image : List UInt8) (a : Nat) : UInt8 := image.getD a 0xff

/-- A part of an image, read by its address. -/
theorem flashBytes_part (done part rest : List UInt8)
    (h : done.length + part.length ≤ 2 ^ 24) :
    flashBytes (chipOf (done ++ part ++ rest)) done.length part.length = part := by
  refine List.ext_getElem ?_ (fun i h1 h2 => ?_)
  · simp only [flashBytes, List.length_map, List.length_range]
  · have hmod : (done.length + i) % 2 ^ 24 = done.length + i := Nat.mod_eq_of_lt (by omega)
    simp only [flashBytes, List.getElem_map, List.getElem_range, hmod, chipOf]
    rw [List.getD_eq_getElem?_getD, List.append_assoc, List.getElem?_append_right (by omega),
      Nat.add_sub_cancel_left, List.getElem?_append_left h2, List.getElem?_eq_getElem h2,
      Option.getD_some]

/-- The signature of a text ends up in `buf`. -/
theorem readSign_buf {bytes buf : List UInt8} {text : List Char} (h : SignText bytes text)
    (hlen : buf.length = bytes.length) : readSign buf.length text buf = bytes := by
  rw [hlen]
  exact readSign_signText h [] buf hlen

section Part

variable {data : List UInt8} (hdata : 0 < data.length ∧ data.length ≤ 65536)
include hdata

theorem paddingSize_eq :
    paddingSize 0x00100000 data.length = 0x00100000 - 256 - 4 - data.length := by
  unfold paddingSize
  omega

theorem firmwarePart_eq :
    firmwarePart 0x00100000 data
      = data ++ List.replicate (0x00100000 - 256 - 4 - data.length) 0 ++
        leBytes 4 data.length := by
  have hmod : data.length % 2 ^ 32 = data.length := Nat.mod_eq_of_lt (by omega)
  simp only [firmwarePart, hmod, paddingSize_eq hdata, List.take_length]

/-- The data of a firmware and its padding end at the size word. -/
theorem length_padded :
    (data ++ List.replicate (0x00100000 - 256 - 4 - data.length) (0 : UInt8)).length
      = 0x000FFEFC := by
  rw [List.length_append, List.length_replicate]
  omega

theorem length_firmwarePart : (firmwarePart 0x00100000 data).length = 0x000FFF00 := by
  rw [firmwarePart_eq hdata, List.length_append, length_padded hdata, length_leBytes]

/-- The three slots of one firmware, written after `done`. -/
theorem flashBytes_firmware (done sign rest : List UInt8) (hdone : done.length ≤ 0x00100000)
    (hsign : sign.length = 256) :
    let content := chipOf (done ++ (firmwarePart 0x00100000 data ++ sign ++ rest))
    flashWord content (done.length + 0x000FFEFC) = data.length ∧
      flashBytes content (done.length + 0x000FFF00) 256 = sign ∧
      flashBytes content done.length data.length = data := by
  -- Size, signature and image are three parts of the content, each with what stands before it.
  have hpadded := length_padded hdata
  have hpart := length_firmwarePart hdata
  refine ⟨?_, ?_, ?_⟩
  · have h := flashBytes_part
      (done ++ (data ++ List.replicate (0x00100000 - 256 - 4 - data.length) 0))
      (leBytes 4 data.length) (sign ++ rest) (by
        rw [List.length_append, hpadded, length_leBytes]
        omega)
    rw [List.length_append, hpadded, length_leBytes] at h
    have hword : leValue (leBytes 4 data.length) = data.length := by
      rw [leValue_leBytes]
      omega
    simp only [flashWord, firmwarePart_eq hdata, List.append_assoc] at h ⊢
    rw [h, hword]
  · have h := flashBytes_part (done ++ firmwarePart 0x00100000 data) sign rest (by
      rw [List.length_append, hpart]
      omega)
    rw [List.length_append, hpart, hsign] at h
    simp only [List.append_assoc] at h ⊢
    exact h
  · have h := flashBytes_part done data
      (List.replicate (0x00100000 - 256 - 4 - data.length) 0 ++ leBytes 4 data.length ++
        sign ++ rest) (by omega)
    simp only [firmwarePart_eq hdata, List.append_assoc] at h ⊢
    exact h

end Part

section Image

variable {env : Env} {buf fw0 fw1 : List UInt8} {sign0 sign1 : Signature}
  {text0 text1 : List Char}

/-- The image, with the signatures its texts stand for. -/
theorem mkflash_eq (fw0 fw1 : List UInt8) (hbuf : buf.length = 256)
    (htext0 : SignText sign0.bytes text0)
    (htext1 : SignText sign1.bytes text1) :
    mkflash buf fw0 text0 fw1 text1
      = firmwarePart 0x00100000 fw0 ++ sign0.bytes ++
        (firmwarePart 0x00100000 fw1 ++ sign1.bytes) := by
  have hbuf0 : readSign buf.length text0 buf = sign0.bytes :=
    readSign_buf htext0 (by rw [hbuf, sign0.length_eq])
  have hbuf1 : readSign sign0.bytes.length text1 sign0.bytes = sign1.bytes :=
    readSign_buf htext1 (by rw [sign0.length_eq, sign1.length_eq])
  simp only [mkflash, hbuf0, hbuf1, firmwareSizeApp0Padding, firmwareSizeApp1Padding]

/-- An image slot of the ROM holds a firmware. -/
structure Slot (env : Env) (im : Image) (fw sign : List UInt8) : Prop where
  size : im.flashSize env = fw.length
  sign : im.flashSign env = sign
  data : im.flashData env = fw

theorem slot_of_flashBytes {im : Image} {fw sign : List UInt8}
    (hsize : flashWord env.content im.sizeAddr = fw.length)
    (hsign : flashBytes env.content im.signAddr 256 = sign)
    (hdata : flashBytes env.content im.dataAddr fw.length = fw) : Slot env im fw sign := by
  have hflash : im.flashSize env = fw.length := hsize
  refine ⟨hflash, hsign, ?_⟩
  rw [Image.flashData, hflash]
  exact hdata

/-- Both firmwares are in their slots. -/
theorem mkflash_slots (hbuf : buf.length = 256)
    (hfw0 : 0 < fw0.length ∧ fw0.length ≤ 65536) (hfw1 : 0 < fw1.length ∧ fw1.length ≤ 65536)
    (htext0 : SignText sign0.bytes text0) (htext1 : SignText sign1.bytes text1)
    (hchip : env.content = chipOf (mkflash buf fw0 text0 fw1 text1)) :
    Slot env env.app0 fw0 sign0.bytes ∧ Slot env env.app1 fw1 sign1.bytes := by
  have himage := mkflash_eq fw0 fw1 hbuf htext0 htext1
  have hlen0 : (firmwarePart 0x00100000 fw0 ++ sign0.bytes).length = 0x00100000 := by
    rw [List.length_append, length_firmwarePart hfw0, sign0.length_eq]
  rcases flashBytes_firmware hfw0 [] sign0.bytes (firmwarePart 0x00100000 fw1 ++ sign1.bytes)
    (Nat.zero_le _) sign0.length_eq with ⟨hsize0, hsign0, hdata0⟩
  rcases flashBytes_firmware hfw1 (firmwarePart 0x00100000 fw0 ++ sign0.bytes) sign1.bytes []
    (by rw [hlen0]) sign1.length_eq with ⟨hsize1, hsign1, hdata1⟩
  simp only [List.nil_append, List.length_nil, Nat.zero_add, ← himage, ← hchip]
    at hsize0 hsign0 hdata0
  simp only [List.append_nil, hlen0, ← himage, ← hchip] at hsize1 hsign1 hdata1
  exact ⟨slot_of_flashBytes hsize0 hsign0 hdata0, slot_of_flashBytes hsize1 hsign1 hdata1⟩

theorem Slot.sizeOk {im : Image} {fw sign : List UInt8} (h : Slot env im fw sign)
    (hfw : 0 < fw.length ∧ fw.length ≤ 65536) : im.SizeOk env := by
  rw [Image.SizeOk, h.size]
  exact hfw

theorem Slot.verdict {im : Image} {fw sign : List UInt8} (h : Slot env im fw sign) :
    im.verdict env = firmwareVerify env.crypto env.modeCrypto fw sign 256 := by
  rw [Image.verdict, h.sign, h.data]

theorem Slot.record {im : Image} {fw sign : List UInt8} (h : Slot env im fw sign) :
    im.record env
      = ⟨im.app, fw, sign, firmwareVerify env.crypto env.modeCrypto fw sign 256⟩ := by
  rw [Image.record, h.verdict, h.sign, h.data]

end Image

/-- The ROM sees the files `mkflash` was given: each slot holds its firmware's
    size, signature and data, both size checks pass, and the verifications run
    on the bytes that were signed. -/
theorem mkflash_readback (env : Env) (buf fw0 fw1 : List UInt8) (sign0 sign1 : Signature)
    (text0 text1 : List Char) (hbuf : buf.length = 256)
    (hfw0 : 0 < fw0.length ∧ fw0.length ≤ 65536) (hfw1 : 0 < fw1.length ∧ fw1.length ≤ 65536)
    (htext0 : SignText sign0.bytes text0) (htext1 : SignText sign1.bytes text1)
    (hchip : env.content = chipOf (mkflash buf fw0 text0 fw1 text1)) :
    (env.app0.flashSize env = fw0.length ∧ env.app0.flashSign env = sign0.bytes ∧
        env.app0.flashData env = fw0) ∧
      (env.app1.flashSize env = fw1.length ∧ env.app1.flashSign env = sign1.bytes ∧
        env.app1.flashData env = fw1) ∧
      (env.app0.SizeOk env ∧ env.app1.SizeOk env) ∧
      (∀ mem, (run env mem 4).pc = .verify0 ∧
        (run env mem 5).verified = [⟨false, fw0, sign0.bytes,
          firmwareVerify env.crypto env.modeCrypto fw0 sign0.bytes 256⟩]) ∧
      (firmwareVerify env.crypto env.modeCrypto fw0 sign0.bytes 256 = true →
        ∀ mem, (run env mem 8).pc = .verify1 ∧
          (run env mem 9).verified = [⟨false, fw0, sign0.bytes, true⟩,
            ⟨true, fw1, sign1.bytes,
              firmwareVerify env.crypto env.modeCrypto fw1 sign1.bytes 256⟩]) := by
  rcases mkflash_slots hbuf hfw0 hfw1 htext0 htext1 hchip with ⟨hslot0, hslot1⟩
  have hok0 := hslot0.sizeOk hfw0
  have hok1 := hslot1.sizeOk hfw1
  refine ⟨⟨hslot0.size, hslot0.sign, hslot0.data⟩, ⟨hslot1.size, hslot1.sign, hslot1.data⟩,
    ⟨hok0, hok1⟩, fun mem => ⟨run_verify0 env mem hok0, ?_⟩, fun hpass mem => ?_⟩
  · rw [(run_verified0 env mem hok0).1, hslot0.record]
    rfl
  · have hv0 : env.app0.verdict env = true := by rw [hslot0.verdict, hpass]
    refine ⟨run_verify1 env mem hok0 hv0 hok1, ?_⟩
    rw [(run_verified1 env mem hok0 hv0 hok1).1, hslot0.record, hslot1.record, hpass]
    rfl

/-- A power-up whose chips hold the image of two one-byte files, signed by
    `rsa_sign`. -/
def envOfImage : Env :=
  { envOfA with
    flash := fun _ => chipOf (mkflash (List.replicate 256 0) [0x61]
      (rsaSignText 0 paddedSignature.bytes) [0x61] (rsaSignText 0 paddedSignature.bytes)) }

/-- That power-up verifies the byte that was signed. -/
theorem mkflash_readback_at_a :
    envOfImage.app0.flashData envOfImage = [0x61] ∧
      envOfImage.app1.flashSign envOfImage = paddedSignature.bytes ∧
      (run envOfImage (fun _ => 0) 4).pc = .verify0 := by
  rcases mkflash_readback envOfImage (List.replicate 256 0) [0x61] [0x61] paddedSignature
    paddedSignature _ _ List.length_replicate (by decide) (by decide)
    (signText_rsaSignText _ 0) (signText_rsaSignText _ 0) rfl with ⟨h0, h1, _, hrun, _⟩
  exact ⟨h0.2.2, h1.2.1, (hrun _).1⟩

end Tools

end Wujian100
