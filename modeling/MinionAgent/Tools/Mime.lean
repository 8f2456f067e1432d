import MinionAgent.Library.Loop
import MinionAgent.Library.Words

/-!
# MinionAgent.Tools.Mime

Image types by the first bytes of a file (`tools/builtin/mime.py`,
`tools/builtin/mime.rs`).

The scan of a PNG's chunks is a `Loop`: it may be cut by fuel, so that its end is
something to prove.  A Rust result is nothing where the code panics.

* `exists_detect` — Python's detection ends;
* `Rust.detect_eq` — Rust's detection ends there as well, without a panic, on
  the same type.
-/

namespace MinionAgent

namespace Mime

open Words

/-- The closed set of image types. -/
inductive ImageType
  | jpeg | png | gif | webp | bmp
deriving DecidableEq

/-- `IMAGE_TYPE_SNIFF_BYTES`. -/
def imageTypeSniffBytes : Nat := 4100

/-- `_PNG_SIGNATURE`. -/
def pngSignature : List UInt8 := [0x89, 0x50, 0x4E, 0x47, 0x0D, 0x0A, 0x1A, 0x0A]

/-- `b"IHDR"`. -/
def ihdr : List UInt8 := [0x49, 0x48, 0x44, 0x52]

/-- `b"acTL"`. -/
def acTL : List UInt8 := [0x61, 0x63, 0x54, 0x4C]

/-- `b"IDAT"`. -/
def idat : List UInt8 := [0x49, 0x44, 0x41, 0x54]

/-- `b"GIF"`. -/
def gif : List UInt8 := [0x47, 0x49, 0x46]

/-- `b"RIFF"`. -/
def riff : List UInt8 := [0x52, 0x49, 0x46, 0x46]

/-- `b"WEBP"`. -/
def webp : List UInt8 := [0x57, 0x45, 0x42, 0x50]

/-- `b"BM"`. -/
def bm : List UInt8 := [0x42, 0x4D]

/-- `_BMP_BITS_PER_PIXEL`. -/
def bmpBitsPerPixel : List Nat := [1, 4, 8, 16, 24, 32]

/-- `_byte`: a read out of range is zero. -/
def byte (buf : List UInt8) (offset : Nat) : Nat := (buf[offset]?.map UInt8.toNat).getD 0

theorem byte_lt (buf : List UInt8) (offset : Nat) : byte buf offset < 256 := by
  unfold byte
  cases buf[offset]? with
  | none => decide
  | some b => exact b.toNat_lt

/-! ## Python -/

/-- `_uint16_le`. -/
def uint16Le (buf : List UInt8) (offset : Nat) : Nat := byte buf offset + byte buf (offset + 1) <<< 8

/-- `_uint32_be`. -/
def uint32Be (buf : List UInt8) (offset : Nat) : Nat :=
  byte buf offset * 0x1000000 + byte buf (offset + 1) <<< 16 + byte buf (offset + 2) <<< 8 + byte buf (offset + 3)

/-- `_uint32_le`. -/
def uint32Le (buf : List UInt8) (offset : Nat) : Nat :=
  byte buf offset + byte buf (offset + 1) <<< 8 + byte buf (offset + 2) <<< 16 + byte buf (offset + 3) * 0x1000000

/-- `_starts_with_ascii`. -/
def startsWithAscii (buf : List UInt8) (offset : Nat) (text : List UInt8) : Bool :=
  offset + text.length ≤ buf.length && (buf.take (offset + text.length)).drop offset == text

/-- `_is_png`. -/
def isPng (buf : List UInt8) : Bool :=
  16 ≤ buf.length && uint32Be buf pngSignature.length == 13 && startsWithAscii buf 12 ihdr

/-- One turn of the loop of `_is_animated_png`. -/
def animatedPngStep (buf : List UInt8) (offset : Nat) : Nat ⊕ Bool :=
  if offset + 8 ≤ buf.length then
    let chunkLength := uint32Be buf offset
    if startsWithAscii buf (offset + 4) acTL then .inr true
    else if startsWithAscii buf (offset + 4) idat then .inr false
    else
      let nextOffset := offset + 8 + chunkLength + 4
      if nextOffset ≤ offset ∨ buf.length < nextOffset then .inr false else .inl nextOffset
  else .inr false

/-- `_is_bmp`. -/
def isBmp (buf : List UInt8) : Bool :=
  if buf.length < 26 then false
  else
    let declaredFileSize := uint32Le buf 2
    let pixelDataOffset := uint32Le buf 10
    let dibHeaderSize := uint32Le buf 14
    if declaredFileSize ≠ 0 ∧ declaredFileSize < 26 then false
    else if pixelDataOffset < 14 + dibHeaderSize then false
    else if declaredFileSize ≠ 0 ∧ declaredFileSize ≤ pixelDataOffset then false
    else if dibHeaderSize = 12 then uint16Le buf 22 == 1 && bmpBitsPerPixel.contains (uint16Le buf 24)
    else if 40 ≤ dibHeaderSize ∧ dibHeaderSize ≤ 124 then
      if buf.length < 30 then false else uint16Le buf 26 == 1 && bmpBitsPerPixel.contains (uint16Le buf 28)
    else false

/-- `detect_supported_image_mime_type`. -/
def detectSupportedImageMimeType (fuel : Nat) (data : List UInt8) : Option (Option ImageType) :=
  let buf := data.take imageTypeSniffBytes
  if buf.take 3 = [0xFF, 0xD8, 0xFF] then
    some (if 3 < buf.length && buf[3]? == some 0xF7 then none else some .jpeg)
  else if buf.take pngSignature.length = pngSignature then
    if isPng buf then
      (Loop.run (animatedPngStep buf) fuel pngSignature.length).map fun animated => if animated then none else some .png
    else some none
  else if startsWithAscii buf 0 gif then some (some .gif)
  else if startsWithAscii buf 0 riff && startsWithAscii buf 8 webp then some (some .webp)
  else if startsWithAscii buf 0 bm && isBmp buf then some (some .bmp)
  else some none

/-- A chunk of a PNG lies behind the one before. -/
theorem animatedPngStep_lt {buf : List UInt8} {offset next : Nat} (h : animatedPngStep buf offset = .inl next) :
    buf.length - next < buf.length - offset := by
  unfold animatedPngStep at h
  split at h
  · next hinside =>
    simp only at h
    split at h
    · cases h
    · split at h
      · cases h
      · split at h
        · cases h
        · next hnext =>
          cases h
          omega
  · cases h

/-- Python's detection ends. -/
theorem exists_detect (data : List UInt8) : ∃ fuel type, detectSupportedImageMimeType fuel data = some type := by
  obtain ⟨animated, fuel, hrun⟩ :=
    @Loop.exists_returns _ _ (animatedPngStep (data.take imageTypeSniffBytes))
      (fun offset => (data.take imageTypeSniffBytes).length - offset) (fun _ _ => animatedPngStep_lt)
      pngSignature.length
  refine ⟨fuel, Option.isSome_iff_exists.mp ?_⟩
  unfold detectSupportedImageMimeType
  simp only [hrun]
  split_ifs <;> rfl

/-! ## Rust -/

namespace Rust

/-- `be32`. -/
def be32 (input : List UInt8) (index : Nat) : Nat :=
  byte input index <<< 24 ||| byte input (index + 1) <<< 16 ||| byte input (index + 2) <<< 8 ||| byte input (index + 3)

/-- `le32`. -/
def le32 (input : List UInt8) (index : Nat) : Nat :=
  byte input index ||| byte input (index + 1) <<< 8 ||| byte input (index + 2) <<< 16 ||| byte input (index + 3) <<< 24

/-- `le16`. -/
def le16 (input : List UInt8) (index : Nat) : Nat := byte input index ||| byte input (index + 1) <<< 8

/-- One turn of the loop of `animated_png`.  A sum that does not fit a `usize` is
past the end as well. -/
def animatedPngStep (input : List UInt8) (offset : Nat) : Nat ⊕ Option Bool :=
  if offset + 8 ≤ input.length then
    let len := be32 input offset
    match slice? input (offset + 4) (offset + 8) with
    | none => .inr none
    | some kind =>
      if kind = acTL then .inr (some true)
      else if kind = idat then .inr (some false)
      else
        let next := offset + 8 + len + 4
        if next ≤ offset ∨ input.length < next then .inr (some false) else .inl next
  else .inr (some false)

/-- `valid_bmp`. -/
def validBmp (input : List UInt8) : Bool :=
  if input.length < 26 then false
  else
    let size := le32 input 2
    let pixelOffset := le32 input 10
    let dib := le32 input 14
    if (size ≠ 0 ∧ size < 26) ∨ pixelOffset < 14 + dib ∨ (size ≠ 0 ∧ size ≤ pixelOffset) then false
    else if dib = 12 then le16 input 22 == 1 && bmpBitsPerPixel.contains (le16 input 24)
    else if 40 ≤ dib ∧ dib ≤ 124 ∧ 30 ≤ input.length then
      le16 input 26 == 1 && bmpBitsPerPixel.contains (le16 input 28)
    else false

/-- `detect_supported_image_mime_type`. -/
def detectSupportedImageMimeType (fuel : Nat) (data : List UInt8) : Option (Option (Option ImageType)) :=
  let input := data.take (min data.length imageTypeSniffBytes)
  if [0xFF, 0xD8, 0xFF].isPrefixOf input then some (some (if byte input 3 ≠ 0xF7 then some .jpeg else none))
  else if pngSignature.isPrefixOf input then
    if 16 ≤ input.length ∧ be32 input 8 = 13 then
      match slice? input 12 16 with
      | none => some none
      | some kind =>
        if kind = ihdr then
          (Loop.run (animatedPngStep input) fuel 8).map fun animated =>
            animated.map fun animated => if animated then none else some .png
        else some (some none)
    else some (some none)
  else if gif.isPrefixOf input then some (some (some .gif))
  else if riff.isPrefixOf input && slice? input 8 12 == some webp then some (some (some .webp))
  else if bm.isPrefixOf input && validBmp input then some (some (some .bmp))
  else some (some none)

/-! ## Agreement -/

theorem be32_eq (input : List UInt8) (index : Nat) : be32 input index = uint32Be input index := by
  rw [be32, lor32_rev (byte_lt ..) (byte_lt ..) (byte_lt ..), uint32Be, Nat.shiftLeft_eq, Nat.shiftLeft_eq]
  omega

theorem le32_eq (input : List UInt8) (index : Nat) : le32 input index = uint32Le input index := by
  rw [le32, lor32 (byte_lt ..) (byte_lt ..) (byte_lt ..), uint32Le, Nat.shiftLeft_eq, Nat.shiftLeft_eq]
  omega

theorem le16_eq (input : List UInt8) (index : Nat) : le16 input index = uint16Le input index := by
  rw [le16, lor16 (byte_lt ..), uint16Le, Nat.shiftLeft_eq]
  omega

theorem startsWithAscii_eq {input text : List UInt8} {offset : Nat} (h : offset + text.length ≤ input.length) :
    startsWithAscii input offset text = ((input.take (offset + text.length)).drop offset == text) := by
  simp [startsWithAscii, h]

theorem isPrefixOf_iff (text input : List UInt8) : text.isPrefixOf input = true ↔ input.take text.length = text := by
  rw [List.isPrefixOf_iff_prefix, List.prefix_iff_eq_take, eq_comm]

theorem startsWithAscii_zero_iff (text input : List UInt8) :
    startsWithAscii input 0 text = true ↔ input.take text.length = text := by
  simp only [startsWithAscii, Nat.zero_add, List.drop_zero, Bool.and_eq_true, decide_eq_true_eq, beq_iff_eq]
  constructor
  · exact fun h => h.2
  · intro h
    have hlength := congrArg List.length h
    rw [List.length_take] at hlength
    exact ⟨by omega, h⟩

/-- A part of the input that must lie inside it. -/
theorem slice?_beq (text input : List UInt8) (offset : Nat) :
    (slice? input offset (offset + text.length) == some text) = startsWithAscii input offset text := by
  unfold startsWithAscii
  by_cases hinside : offset + text.length ≤ input.length
  · rw [slice?_eq_some (Nat.le_add_right _ _) hinside, decide_eq_true hinside, Bool.true_and]
    rfl
  · rw [slice?_eq_none (by omega), decide_eq_false hinside]
    rfl

theorem byte_eq_iff (input : List UInt8) : byte input 3 = 0xF7 ↔ input[3]? = some 0xF7 := by
  unfold byte
  cases input[3]? with
  | none => decide
  | some b =>
    simp only [Option.map_some, Option.getD_some, Option.some.injEq]
    exact ⟨fun h => UInt8.toNat_inj.mp h, fun h => congrArg UInt8.toNat h⟩

theorem animatedPngStep_eq (input : List UInt8) (offset : Nat) :
    animatedPngStep input offset = (Mime.animatedPngStep input offset).map id some := by
  unfold animatedPngStep Mime.animatedPngStep
  by_cases hinside : offset + 8 ≤ input.length
  · have hkind (text : List UInt8) (hlen : text.length = 4) :
        startsWithAscii input (offset + 4) text = decide ((input.take (offset + 8)).drop (offset + 4) = text) := by
      rw [startsWithAscii_eq (by omega), hlen, Bool.beq_eq_decide_eq]
    rw [if_pos hinside, if_pos hinside, slice?_eq_some (by omega) hinside, be32_eq]
    simp only [hkind acTL rfl, hkind idat rfl, decide_eq_true_eq]
    split_ifs <;> rfl
  · rw [if_neg hinside, if_neg hinside]
    rfl

theorem validBmp_eq (input : List UInt8) : validBmp input = isBmp input := by
  unfold validBmp isBmp
  simp only [le32_eq, le16_eq]
  generalize uint32Le input 2 = size, uint32Le input 10 = pixelOffset, uint32Le input 14 = dib
  by_cases hshort : input.length < 26
  · rw [if_pos hshort, if_pos hshort]
  · rw [if_neg hshort, if_neg hshort]
    by_cases hrefused : (size ≠ 0 ∧ size < 26) ∨ pixelOffset < 14 + dib ∨ (size ≠ 0 ∧ size ≤ pixelOffset)
    · rw [if_pos hrefused]
      split_ifs <;> first | rfl | omega
    · obtain ⟨hsize, hoffset, hpixel⟩ := not_or.mp hrefused |>.imp_right not_or.mp
      rw [if_neg hrefused, if_neg hsize, if_neg hoffset, if_neg hpixel]
      split_ifs <;> first | rfl | omega

theorem jpeg_eq (input : List UInt8) :
    (if byte input 3 ≠ 0xF7 then some ImageType.jpeg else none) =
      if 3 < input.length && input[3]? == some 0xF7 then none else some .jpeg := by
  by_cases hbyte : input[3]? = some 0xF7
  · have hlength : 3 < input.length := (List.getElem?_eq_some_iff.mp hbyte).1
    rw [if_neg (not_not.mpr ((byte_eq_iff input).mpr hbyte)), if_pos (by rw [hbyte]; simp [hlength])]
  · rw [if_pos (hbyte ∘ (byte_eq_iff input).mp), if_neg (by simp [hbyte])]

/-- The header of a PNG is there, and the chunks of it do not start an animation. -/
theorem png_eq (fuel : Nat) (input : List UInt8) :
    (if 16 ≤ input.length ∧ be32 input 8 = 13 then
      match slice? input 12 16 with
      | none => some none
      | some kind =>
        if kind = ihdr then
          (Loop.run (animatedPngStep input) fuel 8).map fun animated =>
            animated.map fun animated => if animated then none else some .png
        else some (some none)
    else some (some none)) =
      (if isPng input then
        (Loop.run (Mime.animatedPngStep input) fuel pngSignature.length).map fun animated =>
          if animated then none else some ImageType.png
      else some none).map some := by
  unfold isPng
  by_cases hlength : 16 ≤ input.length
  · have hihdr : startsWithAscii input 12 ihdr = decide ((input.take 16).drop 12 = ihdr) := by
      rw [startsWithAscii_eq hlength, Bool.beq_eq_decide_eq]
      rfl
    have hsize : uint32Be input pngSignature.length = be32 input 8 := (be32_eq input 8).symm
    rw [slice?_eq_some (by omega) hlength, hihdr, hsize, Loop.run_map (animatedPngStep_eq input)]
    by_cases hheader : be32 input 8 = 13 <;> by_cases hkind : (input.take 16).drop 12 = ihdr <;>
      simp [hlength, hheader, hkind, Function.comp_def, pngSignature]
  · rw [if_neg (hlength ·.1), if_neg (by simp [hlength])]
    rfl

/-- Rust's detection ends where Python's does, without a panic and on the same type. -/
theorem detect_eq (fuel : Nat) (data : List UInt8) :
    detectSupportedImageMimeType fuel data = (Mime.detectSupportedImageMimeType fuel data).map some := by
  have hinput : data.take (min data.length imageTypeSniffBytes) = data.take imageTypeSniffBytes := by
    rw [List.take_eq_take_iff]
    omega
  unfold detectSupportedImageMimeType Mime.detectSupportedImageMimeType
  rw [hinput]
  generalize data.take imageTypeSniffBytes = input
  have hjpeg : ([0xFF, 0xD8, 0xFF] : List UInt8).length = 3 := rfl
  have hwebp : (slice? input 8 12 == some webp) = startsWithAscii input 8 webp := slice?_beq webp input 8
  simp only [png_eq, jpeg_eq, hjpeg, hwebp, validBmp_eq, isPrefixOf_iff, startsWithAscii_zero_iff, Bool.and_eq_true]
  split_ifs <;> rfl

end Rust

end Mime

end MinionAgent
