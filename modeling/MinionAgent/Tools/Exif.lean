import MinionAgent.Tools.Mime

/-!
# MinionAgent.Tools.Exif

The orientation of an image (`tools/builtin/image.py`, `tools/builtin/image.rs`):
the segments of a JPEG and the chunks of a WebP are scanned for an EXIF block,
whose TIFF directory is read.

Python computes with integers that may be negative; Rust with sizes that may
not, and returns where one would be.  Both scans are `Loop`s.

* `readOrientationFromTiff_eq_iff` — which orientation the directory names;
* `Rust.tiffOrientation_eq` — Rust reads the same, except in front of the file.
-/

namespace MinionAgent

namespace Exif

open Words

/-- `b"Exif\\0\\0"`. -/
def exifHeader : List UInt8 := [0x45, 0x78, 0x69, 0x66, 0x00, 0x00]

/-- `b"EXIF"`. -/
def exifChunk : List UInt8 := [0x45, 0x58, 0x49, 0x46]

/-! ## Python -/

/-- `_get`: `None` outside the data. -/
def get (data : List UInt8) (index : Int) : Option UInt8 := if 0 ≤ index then data[index.toNat]? else none

/-- `_bit`. -/
def bit (data : List UInt8) (index : Int) : Nat := ((get data index).map UInt8.toNat).getD 0

/-- `_int32`. -/
def int32 (value : Nat) : Int :=
  let value := value % 0x100000000
  if 0x80000000 ≤ value then (value : Int) - 0x100000000 else value

/-- `little_endian`. -/
def littleEndian (data : List UInt8) (tiffStart : Int) : Bool :=
  bit data tiffStart <<< 8 ||| bit data (tiffStart + 1) == 0x4949

/-- `read16`. -/
def read16 (little : Bool) (data : List UInt8) (pos : Int) : Nat :=
  if little then bit data pos ||| bit data (pos + 1) <<< 8 else bit data pos <<< 8 ||| bit data (pos + 1)

/-- `read32`. -/
def read32 (little : Bool) (data : List UInt8) (pos : Int) : Int :=
  if little then
    int32 (bit data pos ||| bit data (pos + 1) <<< 8 ||| bit data (pos + 2) <<< 16 ||| bit data (pos + 3) <<< 24)
  else
    ((bit data pos <<< 24 ||| bit data (pos + 1) <<< 16 ||| bit data (pos + 2) <<< 8 ||| bit data (pos + 3)) %
      0x100000000 : Nat)

/-- The loop over the entries of a directory, so many of them from an index on. -/
def readEntries (little : Bool) (data : List UInt8) (ifdStart : Int) : Nat → Nat → Nat
  | 0, _ => 1
  | count + 1, index =>
    let entry := ifdStart + 2 + index * 12
    if data.length < entry + 12 then 1
    else if read16 little data entry = 0x0112 then
      let value := read16 little data (entry + 8)
      if 1 ≤ value ∧ value ≤ 8 then value else 1
    else readEntries little data ifdStart count (index + 1)

/-- `ifd_start`. -/
def ifdStart (data : List UInt8) (tiffStart : Int) : Int :=
  tiffStart + read32 (littleEndian data tiffStart) data (tiffStart + 4)

/-- `_read_orientation_from_tiff`. -/
def readOrientationFromTiff (data : List UInt8) (tiffStart : Int) : Nat :=
  if data.length < tiffStart + 8 then 1
  else
    let little := littleEndian data tiffStart
    let ifd := ifdStart data tiffStart
    if data.length < ifd + 2 then 1 else readEntries little data ifd (read16 little data ifd) 0

/-- `_has_exif_header`. -/
def hasExifHeader (data : List UInt8) (offset : Int) : Bool :=
  (List.range 6).map (fun k : Nat => get data (offset + k)) == exifHeader.map some

/-- One turn of the loop of `_find_jpeg_tiff_offset`. -/
def findJpegStep (data : List UInt8) (offset : Int) : Int ⊕ Int :=
  if offset < data.length - 1 then
    if get data offset ≠ some 0xFF then .inr (-1)
    else
      let marker := get data (offset + 1)
      if marker = some 0xFF then .inl (offset + 1)
      else if marker = some 0xE1 then
        if data.length ≤ offset + 4 then .inr (-1)
        else
          let segment := offset + 4
          if data.length < segment + 6 ∨ hasExifHeader data segment = false then .inr (-1) else .inr (segment + 6)
      else if data.length < offset + 4 then .inr (-1)
      else .inl (offset + (2 + (bit data (offset + 2) <<< 8 ||| bit data (offset + 3) : Nat)))
  else .inr (-1)

/-- `size`, the signed length of a chunk. -/
def chunkSize (data : List UInt8) (offset : Int) : Int :=
  int32 (bit data (offset + 4) ||| bit data (offset + 5) <<< 8 ||| bit data (offset + 6) <<< 16 |||
    bit data (offset + 7) <<< 24)

/-- `chunk_id == b"EXIF"`. -/
def isExifChunk (data : List UInt8) (offset : Int) : Bool :=
  (List.range 4).map (fun k : Nat => bit data (offset + k)) == exifChunk.map UInt8.toNat

/-- One turn of the loop of `_find_webp_tiff_offset`; the remainder keeps the sign of the size. -/
def findWebpStep (data : List UInt8) (offset : Int) : Int ⊕ Int :=
  if offset + 8 ≤ data.length then
    let size := chunkSize data offset
    let dataStart := offset + 8
    if isExifChunk data offset then
      if data.length < dataStart + size then .inr (-1)
      else if 6 ≤ size ∧ hasExifHeader data dataStart then .inr (dataStart + 6)
      else .inr dataStart
    else .inl (dataStart + size + size.tmod 2)
  else .inr (-1)

/-- The data start as a JPEG does. -/
def isJpeg (data : List UInt8) : Bool := 2 ≤ data.length && data[0]? == some 0xFF && data[1]? == some 0xD8

/-- The data start as a WebP does. -/
def isWebp (data : List UInt8) : Bool :=
  12 ≤ data.length && data.take 4 == Mime.riff && (data.take 12).drop 8 == Mime.webp

/-- `tiff`, `-1` where there is no block. -/
def tiffOffset (fuel : Nat) (data : List UInt8) : Option Int :=
  if isJpeg data then Loop.run (findJpegStep data) fuel 2
  else if isWebp data then Loop.run (findWebpStep data) fuel 12
  else some (-1)

/-- `get_exif_orientation`. -/
def getExifOrientation (fuel : Nat) (data : List UInt8) : Option Nat :=
  (tiffOffset fuel data).map fun tiff => if tiff = -1 then 1 else readOrientationFromTiff data tiff

/-! ## Rust -/

namespace Rust

/-- `read16`. -/
def read16 (little : Bool) (bytes : List UInt8) (pos : Nat) : Option Nat :=
  (slice? bytes pos (pos + 2)).map fun two => if little then ofLeBytes two else ofBeBytes two

/-- The loop over the entries of a directory, so many of them from an index on. -/
def readEntries (little : Bool) (bytes : List UInt8) (ifd : Nat) : Nat → Nat → Nat
  | 0, _ => 1
  | count + 1, index =>
    let pos := ifd + 2 + index * 12
    if bytes.length < pos + 12 then 1
    else if read16 little bytes pos = some 0x0112 then
      let value := (read16 little bytes (pos + 8)).getD 1
      if 1 ≤ value ∧ value ≤ 8 then value else 1
    else readEntries little bytes ifd count (index + 1)

/-- `tiff_orientation`, nothing where an index is outside the bytes.  A sum that
does not fit a `usize` is past the end as well. -/
def tiffOrientation (bytes : List UInt8) (start : Nat) : Option Nat :=
  if bytes.length < start + 8 then some 1
  else do
    let little := (← bytes[start]?) == 0x49 && (← bytes[start + 1]?) == 0x49
    match slice? bytes (start + 4) (start + 8) with
    | none => some 1
    | some four =>
      let offset : Int := if little then signed32 (ofLeBytes four) else ofBeBytes four
      let ifd := start + offset
      if ifd < 0 then some 1
      else
        match read16 little bytes ifd.toNat with
        | none => some 1
        | some count => some (readEntries little bytes ifd.toNat count 0)

/-- One turn of the loop over the segments of a JPEG. -/
def jpegStep (bytes : List UInt8) (offset : Nat) : Nat ⊕ Option Nat :=
  if offset < bytes.length - 1 then
    match bytes[offset]?, bytes[offset + 1]? with
    | some first, some marker =>
      if first ≠ 0xFF then .inr (some 1)
      else if marker = 0xFF then .inl (offset + 1)
      else if marker = 0xE1 then
        if bytes.length ≤ offset + 4 then .inr (some 1)
        else
          let start := offset + 4
          if slice? bytes start (start + 6) ≠ some exifHeader then .inr (some 1)
          else .inr (tiffOrientation bytes (start + 6))
      else
        match slice? bytes (offset + 2) (offset + 4) with
        | none => .inr (some 1)
        | some length => .inl (offset + (2 + ofBeBytes length))
    | _, _ => .inr none
  else .inr (some 1)

/-- One turn of the loop over the chunks of a WebP. -/
def webpStep (bytes : List UInt8) (offset : Nat) : Nat ⊕ Option Nat :=
  if offset + 8 ≤ bytes.length then
    match slice? bytes (offset + 4) (offset + 8), slice? bytes offset (offset + 4) with
    | some four, some chunk =>
      let size := signed32 (ofLeBytes four)
      let start := offset + 8
      if chunk = exifChunk then
        if size < 0 ∨ bytes.length < start + size.toNat then .inr (some 1)
        else if 6 ≤ size ∧ slice? bytes start (start + 6) = some exifHeader then
          .inr (tiffOrientation bytes (start + 6))
        else .inr (tiffOrientation bytes start)
      else if size < 0 then .inr (some 1)
      else .inl (start + (size.toNat + size.toNat % 2))
    | _, _ => .inr none
  else .inr (some 1)

/-- `orientation`. -/
def orientation (fuel : Nat) (bytes : List UInt8) : Option (Option Nat) :=
  if [0xFF, 0xD8].isPrefixOf bytes then Loop.run (jpegStep bytes) fuel 2
  else if 12 ≤ bytes.length && Mime.riff.isPrefixOf bytes then
    match slice? bytes 8 12 with
    | none => some none
    | some format => if format = Mime.webp then Loop.run (webpStep bytes) fuel 12 else some (some 1)
  else some (some 1)

end Rust

/-! ## Reading -/

variable {data : List UInt8} {pos : Nat}

theorem get_natCast (data : List UInt8) (n : Nat) : get data n = data[n]? := by
  rw [get, if_pos (Int.natCast_nonneg n), Int.toNat_natCast]

theorem bit_natCast {n : Nat} (h : n < data.length) : bit data n = data[n].toNat := by
  rw [bit, get_natCast, List.getElem?_eq_getElem h]
  rfl

theorem bit_lt (data : List UInt8) (index : Int) : bit data index < 256 := by
  unfold bit
  cases get data index with
  | none => decide
  | some b => exact b.toNat_lt

theorem bit_negative {index : Int} (h : index < 0) : bit data index = 0 := by
  rw [bit, get, if_neg (by omega)]
  rfl

theorem read16_le (data : List UInt8) (pos : Int) :
    read16 true data pos = bit data pos + 256 * bit data (pos + 1) := by
  rw [read16, if_pos rfl, lor16 (bit_lt ..)]

theorem read16_be (data : List UInt8) (pos : Int) :
    read16 false data pos = bit data (pos + 1) + 256 * bit data pos := by
  rw [read16, if_neg Bool.false_ne_true, lor16_rev (bit_lt ..)]

theorem signed32_eq {n : Nat} (h : n < 0x100000000) : signed32 n = int32 n := by
  simp only [signed32, int32, Nat.mod_eq_of_lt h]
  split_ifs <;> omega

namespace Rust

theorem read16_eq {little : Bool} (h : pos + 2 ≤ data.length) {p : Int} (hp : p = pos) :
    read16 little data pos = some (Exif.read16 little data p) := by
  have hfirst := @bit_natCast data pos (by omega)
  have hsecond := @bit_natCast data (pos + 1) (by omega)
  rw [Int.natCast_succ, ← hp] at hsecond
  rw [← hp] at hfirst
  rw [read16, slice?_eq_some (Nat.le_add_right _ _) h, take_drop_two h]
  cases little with
  | true => rw [read16_le, hfirst, hsecond]; rfl
  | false => rw [read16_be, hfirst, hsecond]; rfl

theorem read16_outside {little : Bool} (h : data.length < pos + 2) : read16 little data pos = none := by
  rw [read16, slice?_eq_none h]
  rfl

theorem readEntries_eq (little : Bool) (data : List UInt8) (ifd count index : Nat) :
    readEntries little data ifd count index = Exif.readEntries little data ifd count index := by
  induction count generalizing index with
  | zero => rfl
  | succ count ih =>
    rw [Rust.readEntries, Exif.readEntries]
    by_cases hinside : data.length < ifd + 2 + index * 12 + 12
    · rw [if_pos hinside, if_pos (by omega)]
    · have hinside' : ¬ (data.length : Int) < ifd + 2 + index * 12 + 12 := by omega
      have htag := @read16_eq data (ifd + 2 + index * 12) little (by omega)
        (ifd + 2 + index * 12) (by omega)
      have hvalue := @read16_eq data (ifd + 2 + index * 12 + 8) little (by omega)
        (ifd + 2 + index * 12 + 8) (by omega)
      simp only [if_neg hinside, if_neg hinside', htag, hvalue, ih, Option.some.injEq, Option.getD_some]

end Rust

theorem littleEndian_natCast {start : Nat} (h : start + 1 < data.length) :
    littleEndian data start = (data[start] == 0x49 && data[start + 1] == 0x49) := by
  have hfirst := @bit_natCast data start (by omega)
  have hsecond := @bit_natCast data (start + 1) h
  have hlt := data[start + 1].toNat_lt
  rw [Int.natCast_succ] at hsecond
  rw [littleEndian, hfirst, hsecond, lor16_rev hlt, Bool.eq_iff_iff]
  simp only [beq_iff_eq, Bool.and_eq_true, ← UInt8.toNat_inj]
  constructor
  · intro heq
    exact ⟨show _ = 0x49 by omega, show _ = 0x49 by omega⟩
  · rintro ⟨heq, heq'⟩
    rw [heq, heq']
    rfl

/-- The four bytes of a word that is there. -/
theorem bits_natCast (h : pos + 4 ≤ data.length) :
    bit data pos = data[pos].toNat ∧ bit data (pos + 1) = data[pos + 1].toNat ∧
      bit data (pos + 2) = data[pos + 2].toNat ∧ bit data (pos + 3) = data[pos + 3].toNat :=
  ⟨bit_natCast (by omega), bit_natCast (n := pos + 1) (by omega), bit_natCast (n := pos + 2) (by omega),
    bit_natCast (n := pos + 3) (by omega)⟩

theorem lor_bits_le (h : pos + 4 ≤ data.length) :
    bit data pos ||| bit data (pos + 1) <<< 8 ||| bit data (pos + 2) <<< 16 ||| bit data (pos + 3) <<< 24 =
      ofLeBytes ((data.take (pos + 4)).drop pos) := by
  obtain ⟨h0, h1, h2, h3⟩ := bits_natCast h
  rw [lor32 (bit_lt ..) (bit_lt ..) (bit_lt ..), h0, h1, h2, h3, take_drop_four h, ofLeBytes_four]

theorem lor_bits_be (h : pos + 4 ≤ data.length) :
    bit data pos <<< 24 ||| bit data (pos + 1) <<< 16 ||| bit data (pos + 2) <<< 8 ||| bit data (pos + 3) =
      ofBeBytes ((data.take (pos + 4)).drop pos) := by
  obtain ⟨h0, h1, h2, h3⟩ := bits_natCast h
  rw [lor32_rev (bit_lt ..) (bit_lt ..) (bit_lt ..), h0, h1, h2, h3, take_drop_four h]
  rfl

/-- The offset of the directory in a block that is there. -/
theorem read32_natCast (h : pos + 4 ≤ data.length) (little : Bool) :
    read32 little data pos =
      if little then signed32 (ofLeBytes ((data.take (pos + 4)).drop pos))
      else (ofBeBytes ((data.take (pos + 4)).drop pos) : Int) := by
  have hle := @ofLeBytes_lt ((data.take (pos + 4)).drop pos) 4 (by simp; omega)
  have hbe : ofBeBytes ((data.take (pos + 4)).drop pos) < 0x100000000 :=
    @ofLeBytes_lt ((data.take (pos + 4)).drop pos).reverse 4 (by simp; omega)
  unfold read32
  rw [lor_bits_le h, lor_bits_be h, signed32_eq hle, Nat.mod_eq_of_lt hbe]

/-- The size of a chunk that is there. -/
theorem chunkSize_natCast {offset : Nat} (h : offset + 8 ≤ data.length) :
    chunkSize data offset = signed32 (ofLeBytes ((data.take (offset + 8)).drop (offset + 4))) := by
  have hle := @ofLeBytes_lt ((data.take (offset + 4 + 4)).drop (offset + 4)) 4 (by simp; omega)
  have hbits := @lor_bits_le data (offset + 4) h
  rw [signed32_eq hle, ← hbits]
  push_cast
  rfl

namespace Rust

/-- A block is read by Rust as by Python, unless its directory would start in front of the file. -/
theorem tiffOrientation_eq (data : List UInt8) (start : Nat) :
    tiffOrientation data start = some (if ifdStart data start < 0 then 1 else readOrientationFromTiff data start) := by
  unfold tiffOrientation readOrientationFromTiff
  by_cases hblock : data.length < start + 8
  · have hblock' : (data.length : Int) < start + 8 := by omega
    simp only [if_pos hblock, if_pos hblock', ite_self]
  · have hblock' : ¬ (data.length : Int) < start + 8 := by omega
    have hfirst : data[start]? = some data[start] := List.getElem?_eq_getElem (by omega)
    have hsecond : data[start + 1]? = some data[start + 1] := List.getElem?_eq_getElem (by omega)
    have hlittle := @littleEndian_natCast data start (by omega)
    have hoffset := @read32_natCast data (start + 4) (by omega) (littleEndian data start)
    have hifd : ifdStart data start = start + read32 (littleEndian data start) data (start + 4 : Nat) := rfl
    rw [if_neg hblock, hfirst, hsecond, slice?_eq_some (by omega) (by omega)]
    simp only [Option.bind_eq_bind, Option.bind_some, ← hlittle, ← hoffset, ← hifd, if_neg hblock']
    obtain hnegative | hnonneg := lt_or_ge (ifdStart data start) 0
    · rw [if_pos hnegative, if_pos hnegative]
    · obtain ⟨ifd, heq⟩ := Int.eq_ofNat_of_zero_le hnonneg
      have hifd' : ¬ (ifd : Int) < 0 := by omega
      simp only [heq, if_neg hifd', Int.toNat_natCast]
      by_cases hdirectory : data.length < ifd + 2
      · have hdirectory' : (data.length : Int) < ifd + 2 := by omega
        rw [read16_outside hdirectory, if_pos hdirectory']
      · have hdirectory' : ¬ (data.length : Int) < ifd + 2 := by omega
        rw [read16_eq (by omega) rfl, if_neg hdirectory']
        exact congrArg some (readEntries_eq ..)

end Rust

/-! ## The directory -/

/-- The directory of a block names an orientation other than the first: its
first entry with the tag has it as its value. -/
structure Names (data : List UInt8) (tiffStart : Int) (orientation : Nat) : Prop where
  block : tiffStart + 8 ≤ data.length
  directory : ifdStart data tiffStart + 2 ≤ data.length
  entry : ∃ index < read16 (littleEndian data tiffStart) data (ifdStart data tiffStart),
    ifdStart data tiffStart + 2 + index * 12 + 12 ≤ data.length ∧
    read16 (littleEndian data tiffStart) data (ifdStart data tiffStart + 2 + index * 12) = 0x0112 ∧
    (∀ before < index, read16 (littleEndian data tiffStart) data (ifdStart data tiffStart + 2 + before * 12) ≠ 0x0112) ∧
    read16 (littleEndian data tiffStart) data (ifdStart data tiffStart + 2 + index * 12 + 8) = orientation
  range : 2 ≤ orientation ∧ orientation ≤ 8

theorem readEntries_range (little : Bool) (data : List UInt8) (ifd : Int) (count index : Nat) :
    1 ≤ readEntries little data ifd count index ∧ readEntries little data ifd count index ≤ 8 := by
  induction count generalizing index with
  | zero => exact ⟨Nat.le_refl 1, show 1 ≤ 8 by decide⟩
  | succ count ih =>
    rw [readEntries]
    have := ih (index + 1)
    split_ifs <;> grind

theorem readEntries_eq_iff (little : Bool) (data : List UInt8) (ifd : Int) {orientation : Nat} (h : 2 ≤ orientation)
    (count start : Nat) : readEntries little data ifd count start = orientation ↔
      ∃ index, start ≤ index ∧ index < start + count ∧ ifd + 2 + index * 12 + 12 ≤ data.length ∧
        read16 little data (ifd + 2 + index * 12) = 0x0112 ∧
        (∀ before, start ≤ before → before < index → read16 little data (ifd + 2 + before * 12) ≠ 0x0112) ∧
        read16 little data (ifd + 2 + index * 12 + 8) = orientation ∧ orientation ≤ 8 := by
  induction count generalizing start with
  | zero =>
    rw [readEntries]
    exact ⟨fun heq => absurd heq (by omega), fun ⟨index, hle, hlt, _⟩ => absurd hlt (by omega)⟩
  | succ count ih =>
    rw [readEntries]
    by_cases hinside : (data.length : Int) < ifd + 2 + start * 12 + 12
    · rw [if_pos hinside]
      exact ⟨fun heq => absurd heq (by omega), fun ⟨index, hle, _, hin, _⟩ => absurd hin (by omega)⟩
    · rw [if_neg hinside]
      by_cases htag : read16 little data (ifd + 2 + start * 12) = 0x0112
      · rw [if_pos htag]
        constructor
        · intro heq
          exact ⟨start, le_rfl, by omega, by omega, htag, fun before hle hlt => absurd hlt (by omega),
            by grind, by grind⟩
        · rintro ⟨index, hle, -, -, htag', hfirst, hvalue, hrange⟩
          obtain rfl : start = index := by
            by_contra hne
            exact hfirst start le_rfl (by omega) htag
          rw [hvalue]
          exact if_pos ⟨by omega, hrange⟩
      · rw [if_neg htag, ih]
        constructor
        · rintro ⟨index, hle, hlt, hin, htag', hfirst, hrest⟩
          exact ⟨index, by omega, by omega, hin, htag', fun before hle' hlt' => by grind, hrest⟩
        · rintro ⟨index, hle, hlt, hin, htag', hfirst, hrest⟩
          have hne : index ≠ start := by
            rintro rfl
            exact htag htag'
          exact ⟨index, by omega, by omega, hin, htag', fun before hle' => hfirst before (by omega), hrest⟩

theorem readOrientationFromTiff_range (data : List UInt8) (tiffStart : Int) :
    1 ≤ readOrientationFromTiff data tiffStart ∧ readOrientationFromTiff data tiffStart ≤ 8 := by
  unfold readOrientationFromTiff
  have := readEntries_range (littleEndian data tiffStart) data (ifdStart data tiffStart)
    (read16 (littleEndian data tiffStart) data (ifdStart data tiffStart)) 0
  split_ifs <;> grind

/-- Another orientation than the first is one that the directory names. -/
theorem readOrientationFromTiff_eq_iff (data : List UInt8) (tiffStart : Int) {orientation : Nat} (h : 2 ≤ orientation) :
    readOrientationFromTiff data tiffStart = orientation ↔ Names data tiffStart orientation := by
  unfold readOrientationFromTiff
  by_cases hblock : (data.length : Int) < tiffStart + 8
  · rw [if_pos hblock]
    exact ⟨fun heq => absurd heq (by omega), fun hnames => absurd hnames.block (by omega)⟩
  · by_cases hdirectory : (data.length : Int) < ifdStart data tiffStart + 2
    · simp only [if_neg hblock, if_pos hdirectory]
      exact ⟨fun heq => absurd heq (by omega), fun hnames => absurd hnames.directory (by omega)⟩
    · simp only [if_neg hblock, if_neg hdirectory, readEntries_eq_iff _ _ _ h]
      constructor
      · rintro ⟨index, -, hlt, hin, htag, hfirst, hvalue, hrange⟩
        exact ⟨by omega, by omega, ⟨index, by omega, hin, htag, fun before => hfirst before (Nat.zero_le _), hvalue⟩,
          h, hrange⟩
      · rintro ⟨-, -, ⟨index, hlt, hin, htag, hfirst, hvalue⟩, -, hrange⟩
        exact ⟨index, Nat.zero_le _, by omega, hin, htag, fun before _ => hfirst before, hvalue, hrange⟩

end Exif

end MinionAgent
