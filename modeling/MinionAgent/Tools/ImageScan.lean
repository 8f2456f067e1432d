import Mathlib.Data.Int.Interval
import MinionAgent.Tools.Exif

/-!
# MinionAgent.Tools.ImageScan

The scans of the two bindings side by side.

* `jpeg_scans` — the segments of a JPEG lead both to the same block;
* `webp_scans` — the chunks of a WebP do as well, until a size is negative;
* `image_scan_iff` — when both end with the same orientation and type.
-/

namespace MinionAgent

namespace Exif

open Words

/-- What Rust reads at an offset that Python's scan finds. -/
def rustOrientationAt (data : List UInt8) (tiff : Int) : Nat :=
  if tiff = -1 then 1 else if ifdStart data tiff < 0 then 1 else readOrientationFromTiff data tiff

/-- What Python reads at an offset that its scan finds. -/
def orientationAt (data : List UInt8) (tiff : Int) : Nat := if tiff = -1 then 1 else readOrientationFromTiff data tiff

/-- The chunk has a negative size. -/
def IsNegative (data : List UInt8) (offset : Int) : Prop := offset + 8 ≤ data.length ∧ chunkSize data offset < 0

theorem tiffOrientation_natCast (data : List UInt8) (start : Nat) :
    Rust.tiffOrientation data start = some (rustOrientationAt data start) := by
  rw [Rust.tiffOrientation_eq, rustOrientationAt, if_neg (c := (start : Int) = -1) (by omega)]

/-! ## Segments -/

variable {data : List UInt8} {offset : Nat}

theorem hasExifHeader_iff (h : offset + 6 ≤ data.length) :
    hasExifHeader data offset = true ↔ slice? data offset (offset + 6) = some exifHeader := by
  have hread (k : Nat) : get data (offset + k) = id data[offset + k]? := get_natCast data (offset + k)
  rw [hasExifHeader, slice?_eq_some (Nat.le_add_right _ _) h, Option.some.injEq, beq_iff_eq]
  simp only [hread]
  rw [map_range_getElem? h id]
  exact (List.map_injective_iff.mpr (Option.some_injective _)).eq_iff

theorem isExifChunk_iff (h : offset + 4 ≤ data.length) :
    isExifChunk data offset = true ↔ (data.take (offset + 4)).drop offset = exifChunk := by
  have hread (k : Nat) : bit data (offset + k) = (data[offset + k]?.map UInt8.toNat).getD 0 := by
    rw [bit, ← get_natCast data (offset + k)]
    rfl
  rw [isExifChunk, beq_iff_eq]
  simp only [hread]
  rw [map_range_getElem? h fun b => (b.map UInt8.toNat).getD 0]
  exact (List.map_injective_iff.mpr fun a b => UInt8.toNat_inj.mp).eq_iff

/-- The length of a segment that is there. -/
theorem segmentLength_natCast (h : offset + 4 ≤ data.length) :
    bit data (offset + 2) <<< 8 ||| bit data (offset + 3) = ofBeBytes ((data.take (offset + 4)).drop (offset + 2)) := by
  have hfirst : bit data (offset + 2) = data[offset + 2].toNat := bit_natCast (n := offset + 2) (by omega)
  have hsecond : bit data (offset + 3) = data[offset + 3].toNat := bit_natCast (n := offset + 3) (by omega)
  rw [lor16_rev (bit_lt ..), hfirst, hsecond, @take_drop_two _ data (offset + 2) h]
  rfl

/-- A turn of both loops over the segments. -/
theorem findJpegStep_cases (data : List UInt8) (offset : Nat) :
    (∃ next, offset < next ∧ offset + 1 < data.length ∧ Rust.jpegStep data offset = .inl next ∧
      findJpegStep data offset = .inl next) ∨
    ∃ tiff, Rust.jpegStep data offset = .inr (some (rustOrientationAt data tiff)) ∧
      findJpegStep data offset = .inr tiff := by
  unfold Rust.jpegStep findJpegStep
  by_cases hinside : offset < data.length - 1
  · have hinside' : (offset : Int) < data.length - 1 := by omega
    have hfirst : data[offset]? = some data[offset] := List.getElem?_eq_getElem (by omega)
    have hmarker : data[offset + 1]? = some data[offset + 1] := List.getElem?_eq_getElem (by omega)
    have hget := get_natCast data offset
    have hget' := get_natCast data (offset + 1)
    rw [Int.natCast_succ] at hget'
    simp only [if_pos hinside, if_pos hinside', hget, hget', hfirst, hmarker, ne_eq, Option.some.injEq]
    by_cases hff : data[offset] = 0xFF
    · simp only [hff, not_true_eq_false, if_false]
      by_cases hfill : data[offset + 1] = 0xFF
      · simp only [hfill, if_true]
        exact .inl ⟨offset + 1, by omega, by omega, rfl, rfl⟩
      · simp only [hfill, if_false]
        by_cases hexif : data[offset + 1] = 0xE1
        · simp only [hexif, if_true]
          by_cases hend : data.length ≤ offset + 4
          · have hend' : (data.length : Int) ≤ offset + 4 := by omega
            simp only [if_pos hend, if_pos hend']
            exact .inr ⟨-1, rfl, rfl⟩
          · have hend' : ¬ (data.length : Int) ≤ offset + 4 := by omega
            simp only [if_neg hend, if_neg hend']
            by_cases hheader : slice? data (offset + 4) (offset + 4 + 6) = some exifHeader
            · have hlength : offset + 4 + 6 ≤ data.length := by
                by_contra hshort
                rw [slice?_eq_none (by omega)] at hheader
                cases hheader
              have hheader' : hasExifHeader data (offset + 4) = true := (hasExifHeader_iff hlength).mpr hheader
              rw [if_neg (not_not.mpr hheader), if_neg (by rw [hheader', not_or]; exact ⟨by omega, by decide⟩),
                tiffOrientation_natCast]
              exact .inr ⟨_, rfl, rfl⟩
            · rw [if_pos hheader, if_pos]
              · exact .inr ⟨-1, rfl, rfl⟩
              · obtain hshort | hlength := Nat.lt_or_ge data.length (offset + 4 + 6)
                · exact .inl (by omega)
                · have hheader' : ¬ hasExifHeader data (offset + 4) = true :=
                    (hasExifHeader_iff hlength).not.mpr hheader
                  exact .inr (Bool.not_eq_true _ ▸ hheader')
        · simp only [hexif, if_false]
          by_cases hlength : data.length < offset + 4
          · have hlength' : (data.length : Int) < offset + 4 := by omega
            rw [slice?_eq_none hlength, if_pos hlength']
            exact .inr ⟨-1, rfl, rfl⟩
          · have hlength' : ¬ (data.length : Int) < offset + 4 := by omega
            have hbits := @segmentLength_natCast data offset (by omega)
            rw [slice?_eq_some (by omega) (by omega), if_neg hlength', hbits]
            exact .inl ⟨_, by omega, by omega, rfl, rfl⟩
    · simp only [hff, not_false_eq_true, if_true]
      exact .inr ⟨-1, rfl, rfl⟩
  · have hinside' : ¬ (offset : Int) < data.length - 1 := by omega
    simp only [if_neg hinside, if_neg hinside']
    exact .inr ⟨-1, rfl, rfl⟩

/-- The segments of a JPEG lead both bindings to the same block. -/
theorem jpeg_scans (data : List UInt8) (offset : Nat) :
    ∃ tiff, Loop.Returns (findJpegStep data) offset tiff ∧
      Loop.Returns (Rust.jpegStep data) offset (some (rustOrientationAt data tiff)) := by
  induction hn : data.length - offset using Nat.strong_induction_on generalizing offset with
  | _ n ih =>
    obtain ⟨next, hlt, hinside, hrust, hpython⟩ | ⟨tiff, hrust, hpython⟩ := findJpegStep_cases data offset
    · obtain ⟨tiff, hreturns, hreturns'⟩ := ih _ (by omega) next rfl
      exact ⟨tiff, (Loop.Reaches.single hpython).returns hreturns, (Loop.Reaches.single hrust).returns hreturns'⟩
    · exact ⟨tiff, Loop.Returns.of_inr hpython, Loop.Returns.of_inr hrust⟩

/-! ## Chunks -/

/-- A turn of both loops over the chunks. -/
theorem findWebpStep_cases (data : List UInt8) (offset : Nat) :
    (∃ next, offset < next ∧ offset + 8 ≤ data.length ∧ ¬ IsNegative data offset ∧
      Rust.webpStep data offset = .inl next ∧ findWebpStep data offset = .inl next) ∨
    (∃ tiff, ¬ IsNegative data offset ∧ Rust.webpStep data offset = .inr (some (rustOrientationAt data tiff)) ∧
      findWebpStep data offset = .inr tiff) ∨
    (IsNegative data offset ∧ Rust.webpStep data offset = .inr (some 1)) := by
  unfold Rust.webpStep findWebpStep IsNegative
  by_cases hinside : offset + 8 ≤ data.length
  · have hinside' : (offset : Int) + 8 ≤ data.length := by omega
    have hchunk := @isExifChunk_iff data offset (by omega)
    rw [slice?_eq_some (by omega) hinside, slice?_eq_some (by omega) (by omega)]
    simp only [if_pos hinside, ← chunkSize_natCast hinside, ← hchunk, hinside', true_and, if_true]
    obtain hnegative | hnonneg := lt_or_ge (chunkSize data offset) 0
    · exact .inr (.inr ⟨hnegative, by simp only [hnegative, true_or, if_true, ite_self]⟩)
    · obtain ⟨size, hsize⟩ := Int.eq_ofNat_of_zero_le hnonneg
      have hsize' : ¬ (size : Int) < 0 := by omega
      simp only [hsize, hsize', false_or, if_false, not_false_eq_true, true_and, Int.toNat_natCast, false_and, or_false]
      by_cases hexif : isExifChunk data offset = true
      · refine .inr ?_
        simp only [if_pos hexif]
        by_cases hend : data.length < offset + 8 + size
        · have hend' : (data.length : Int) < offset + 8 + size := by omega
          rw [if_pos hend, if_pos hend']
          exact ⟨-1, rfl, rfl⟩
        · have hend' : ¬ (data.length : Int) < offset + 8 + size := by omega
          rw [if_neg hend, if_neg hend']
          by_cases hsix : (6 : Int) ≤ size
          · have hheader : hasExifHeader data (offset + 8) = true ↔
                slice? data (offset + 8) (offset + 8 + 6) = some exifHeader :=
              @hasExifHeader_iff data (offset + 8) (by omega)
            simp only [hheader]
            by_cases hfound : slice? data (offset + 8) (offset + 8 + 6) = some exifHeader
            · rw [if_pos ⟨hsix, hfound⟩, if_pos ⟨hsix, hfound⟩, tiffOrientation_natCast]
              exact ⟨_, rfl, rfl⟩
            · rw [if_neg (hfound ·.2), if_neg (hfound ·.2), tiffOrientation_natCast]
              exact ⟨_, rfl, rfl⟩
          · rw [if_neg (hsix ·.1), if_neg (hsix ·.1), tiffOrientation_natCast]
            exact ⟨_, rfl, rfl⟩
      · simp only [if_neg hexif]
        have hnext : (offset + 8 + size + Int.tmod size 2 : Int) = (offset + 8 + (size + size % 2) : Nat) := by
          have hrest : Int.tmod size 2 = (size % 2 : Nat) := rfl
          omega
        exact .inl ⟨_, by omega, hinside, rfl, congrArg Sum.inl hnext⟩
  · have hinside' : ¬ (offset : Int) + 8 ≤ data.length := by omega
    simp only [if_neg hinside, hinside', false_and, not_false_eq_true, true_and, or_false]
    exact .inr ⟨-1, rfl, rfl⟩

/-- The chunks of a WebP lead both bindings to the same block, or to a negative size, where Rust stops. -/
theorem webp_scans (data : List UInt8) (offset : Nat) :
    (∃ tiff, Loop.Returns (findWebpStep data) offset tiff ∧
      Loop.Returns (Rust.webpStep data) offset (some (rustOrientationAt data tiff)) ∧
      ∀ o, Loop.Reaches (findWebpStep data) offset o → ¬ IsNegative data o) ∨
    (Loop.Returns (Rust.webpStep data) offset (some 1) ∧
      ∃ o, Loop.Reaches (findWebpStep data) offset o ∧ IsNegative data o) := by
  induction hn : data.length - offset using Nat.strong_induction_on generalizing offset with
  | _ n ih =>
    obtain ⟨next, hlt, hinside, hsize, hrust, hpython⟩ | ⟨tiff, hsize, hrust, hpython⟩ | ⟨hsize, hrust⟩ :=
      findWebpStep_cases data offset
    · have hstep := Loop.Reaches.single hpython
      obtain ⟨tiff, hreturns, hreturns', hforward⟩ | ⟨hreturns', o, hreach, ho⟩ := ih _ (by omega) next rfl
      · refine .inl ⟨tiff, hstep.returns hreturns, (Loop.Reaches.single hrust).returns hreturns', fun o hreach => ?_⟩
        obtain rfl | ⟨s, hturn, hrest⟩ := Relation.ReflTransGen.cases_head hreach
        · exact hsize
        · rw [hpython] at hturn
          cases hturn
          exact hforward o hrest
      · exact .inr ⟨(Loop.Reaches.single hrust).returns hreturns', o, hstep.trans hreach, ho⟩
    · refine .inl ⟨tiff, Loop.Returns.of_inr hpython, Loop.Returns.of_inr hrust, fun o hreach => ?_⟩
      obtain rfl | ⟨s, hturn, hrest⟩ := Relation.ReflTransGen.cases_head hreach
      · exact hsize
      · rw [hpython] at hturn
        cases hturn
    · exact .inr ⟨Loop.Returns.of_inr hrust, offset, Loop.Reaches.refl _, hsize⟩

theorem int32_bounds (value : Nat) : -0x80000000 ≤ int32 value ∧ int32 value < 0x80000000 := by
  unfold int32
  simp only
  split_ifs <;> omega

/-- In front of the file every chunk is empty. -/
theorem chunkSize_of_lt {offset : Int} (h : offset < -7) : chunkSize data offset = 0 := by
  unfold chunkSize
  rw [bit_negative (by omega), bit_negative (by omega), bit_negative (by omega), bit_negative (by omega)]
  rfl

/-- The walk over the chunks stays near the file. -/
theorem findWebpStep_bounds {offset next : Int} (h : findWebpStep data offset = .inl next)
    (hlo : -0x80000001 ≤ offset) : -0x80000001 ≤ next ∧ next ≤ data.length + 0x80000001 := by
  unfold findWebpStep at h
  simp only at h
  split_ifs at h with hinside hexif
  cases h
  obtain ⟨hmin, hmax⟩ : -0x80000000 ≤ chunkSize data offset ∧ chunkSize data offset < 0x80000000 := int32_bounds _
  obtain hbefore | hat := lt_or_ge offset (-7)
  · rw [chunkSize_of_lt hbefore]
    simp
    omega
  · obtain heven | heven | heven := Int.tmod_two_eq (chunkSize data offset) <;> omega

theorem finite_reaches (data : List UInt8) : Set.Finite {o | Loop.Reaches (findWebpStep data) 12 o} := by
  apply (Set.finite_Icc (-0x80000001 : Int) (data.length + 0x80000001)).subset
  intro o hreach
  show -0x80000001 ≤ o ∧ o ≤ data.length + 0x80000001
  induction hreach with
  | refl => omega
  | tail _ hturn ih => exact findWebpStep_bounds hturn ih.1

/-! ## What both can read -/

/-- The chunks of a WebP lead back to a chunk that was read. -/
def ComesBack (data : List UInt8) : Prop :=
  ∃ o, Loop.Reaches (findWebpStep data) 12 o ∧ Loop.Continues (findWebpStep data) o o

/-- On the walk over the chunks of a WebP lies one with a negative size. -/
def MeetsNegative (data : List UInt8) : Prop := ∃ o, Loop.Reaches (findWebpStep data) 12 o ∧ IsNegative data o

/-- The scan comes to a block. -/
def HasBlock (data : List UInt8) (tiff : Int) : Prop :=
  tiff ≠ -1 ∧
    (isJpeg data = true ∧ (∃ o, Loop.Reaches (findJpegStep data) 2 o ∧ findJpegStep data o = .inr tiff) ∨
      isWebp data = true ∧ ∃ o, Loop.Reaches (findWebpStep data) 12 o ∧ findWebpStep data o = .inr tiff)

/-- What both bindings can be relied on to read: the chunks of a WebP do not lead
back, and an orientation other than the first is in a directory inside the file,
to which no negative size leads. -/
structure Readable (data : List UInt8) : Prop where
  forward : isWebp data = true → ¬ ComesBack data
  named : ∀ tiff orientation, HasBlock data tiff → Names data tiff orientation →
    0 ≤ ifdStart data tiff ∧ (isWebp data = true → ¬ MeetsNegative data)

/-- Both bindings end, without an access outside the data, with the same
orientation and the same type. -/
def ScansAgree (data : List UInt8) : Prop :=
  ∃ orientation type, 1 ≤ orientation ∧ orientation ≤ 8 ∧
    (∃ fuel, getExifOrientation fuel data = some orientation) ∧
    (∃ fuel, Rust.orientation fuel data = some (some orientation)) ∧
    (∃ fuel, Mime.detectSupportedImageMimeType fuel data = some type) ∧
    ∃ fuel, Mime.Rust.detectSupportedImageMimeType fuel data = some (some type)

theorem exists_type (data : List UInt8) : ∃ type, (∃ fuel, Mime.detectSupportedImageMimeType fuel data = some type) ∧
    ∃ fuel, Mime.Rust.detectSupportedImageMimeType fuel data = some (some type) := by
  obtain ⟨fuel, type, htype⟩ := Mime.exists_detect data
  exact ⟨type, ⟨fuel, htype⟩, fuel, by rw [Mime.Rust.detect_eq, htype]; rfl⟩

/-- The types agree anyway: what is left is the orientation. -/
theorem scansAgree_iff (data : List UInt8) : ScansAgree data ↔ ∃ orientation, 1 ≤ orientation ∧ orientation ≤ 8 ∧
    (∃ fuel, getExifOrientation fuel data = some orientation) ∧
    ∃ fuel, Rust.orientation fuel data = some (some orientation) := by
  obtain ⟨type, hpython, hrust⟩ := exists_type data
  constructor
  · rintro ⟨orientation, -, hmin, hmax, hleft, hright, -⟩
    exact ⟨orientation, hmin, hmax, hleft, hright⟩
  · rintro ⟨orientation, hmin, hmax, hleft, hright⟩
    exact ⟨orientation, type, hmin, hmax, hleft, hright, hpython, hrust⟩

theorem orientationAt_range (data : List UInt8) (tiff : Int) :
    1 ≤ orientationAt data tiff ∧ orientationAt data tiff ≤ 8 := by
  have := readOrientationFromTiff_range data tiff
  unfold orientationAt
  split_ifs <;> grind

/-- An orientation is the first unless the directory of the block names another. -/
theorem orientationAt_eq_one_iff (data : List UInt8) (tiff : Int) :
    orientationAt data tiff = 1 ↔ tiff ≠ -1 → ∀ orientation, ¬ Names data tiff orientation := by
  unfold orientationAt
  by_cases hnone : tiff = -1
  · simp [hnone]
  · rw [if_neg hnone]
    constructor
    · intro hone _ orientation hnames
      have hread := (readOrientationFromTiff_eq_iff data tiff hnames.range.1).mpr hnames
      have := hnames.range.1
      omega
    · intro hnames
      by_contra hone
      have hmin := (readOrientationFromTiff_range data tiff).1
      exact hnames hnone _ ((readOrientationFromTiff_eq_iff data tiff (by omega)).mp rfl)

theorem orientationAt_eq_iff (data : List UInt8) (tiff : Int) : orientationAt data tiff = rustOrientationAt data tiff ↔
    (tiff ≠ -1 → ∀ orientation, Names data tiff orientation → 0 ≤ ifdStart data tiff) := by
  obtain hifd | hifd := lt_or_ge (ifdStart data tiff) 0
  · have hrust : rustOrientationAt data tiff = 1 := by
      unfold rustOrientationAt
      rw [if_pos hifd, ite_self]
    rw [hrust, orientationAt_eq_one_iff]
    exact forall_congr' fun _ => forall_congr' fun _ => forall_congr' fun _ => ⟨False.elim, fun hle => by omega⟩
  · have hrust : rustOrientationAt data tiff = orientationAt data tiff := by
      unfold rustOrientationAt orientationAt
      rw [if_neg (c := ifdStart data tiff < 0) (by omega)]
    rw [hrust]
    exact ⟨fun _ _ _ _ => hifd, fun _ => rfl⟩

/-! ## The main result -/

theorem isPrefixOf_jpeg (data : List UInt8) : [0xFF, 0xD8].isPrefixOf data = isJpeg data := by
  match data with
  | [] => rfl
  | [a] => simp [isJpeg, List.isPrefixOf]
  | a :: b :: rest =>
    have hlength : 2 ≤ (a :: b :: rest).length := by simp
    simp only [isJpeg, List.isPrefixOf, decide_eq_true hlength, Bool.true_and, Bool.and_true, List.getElem?_cons_zero,
      List.getElem?_cons_succ, Option.some_beq_some]
    rw [BEq.comm, BEq.comm (a := (0xD8 : UInt8))]

theorem isJpeg_of_isWebp (h : isWebp data = true) : isJpeg data = false := by
  match data with
  | [] => rfl
  | [a] => rfl
  | a :: b :: rest =>
    simp only [isWebp, Mime.riff, Bool.and_eq_true, beq_iff_eq] at h
    have ha : a = 0x52 := by simpa using congrArg List.head? h.1.2
    simp [isJpeg, ha]

theorem orientation_jpeg (h : isJpeg data = true) (orientation : Nat) :
    ((∃ fuel, getExifOrientation fuel data = some orientation) ↔
      ∃ tiff, Loop.Returns (findJpegStep data) 2 tiff ∧ orientationAt data tiff = orientation) ∧
      ((∃ fuel, Rust.orientation fuel data = some (some orientation)) ↔
        Loop.Returns (Rust.jpegStep data) 2 (some orientation)) := by
  simp only [getExifOrientation, tiffOffset, Rust.orientation, isPrefixOf_jpeg, h, if_true, Option.map_eq_some_iff]
  exact ⟨⟨fun ⟨fuel, tiff, hrun, heq⟩ => ⟨tiff, ⟨fuel, hrun⟩, heq⟩,
    fun ⟨tiff, ⟨fuel, hrun⟩, heq⟩ => ⟨fuel, tiff, hrun, heq⟩⟩, Iff.rfl⟩

theorem orientation_webp (h : isWebp data = true) (orientation : Nat) :
    ((∃ fuel, getExifOrientation fuel data = some orientation) ↔
      ∃ tiff, Loop.Returns (findWebpStep data) 12 tiff ∧ orientationAt data tiff = orientation) ∧
      ((∃ fuel, Rust.orientation fuel data = some (some orientation)) ↔
        Loop.Returns (Rust.webpStep data) 12 (some orientation)) := by
  obtain ⟨⟨hlength, hriff⟩, hformat⟩ : (12 ≤ data.length ∧ data.take 4 = Mime.riff) ∧
      (data.take 12).drop 8 = Mime.webp := by
    simpa [isWebp] using h
  have hprefix : Mime.riff.isPrefixOf data = true := (Mime.Rust.isPrefixOf_iff ..).mpr hriff
  have hslice : slice? data 8 12 = some Mime.webp := by rw [slice?_eq_some (by omega) hlength, hformat]
  simp only [getExifOrientation, tiffOffset, Rust.orientation, isPrefixOf_jpeg, isJpeg_of_isWebp h, h, if_true,
    Bool.false_eq_true, if_false, hlength, hprefix, hslice, decide_true, Bool.and_self, Option.map_eq_some_iff]
  exact ⟨⟨fun ⟨fuel, tiff, hrun, heq⟩ => ⟨tiff, ⟨fuel, hrun⟩, heq⟩,
    fun ⟨tiff, ⟨fuel, hrun⟩, heq⟩ => ⟨fuel, tiff, hrun, heq⟩⟩, Iff.rfl⟩

theorem orientation_other (hjpeg : isJpeg data = false) (hwebp : isWebp data = false) (fuel : Nat) :
    getExifOrientation fuel data = some 1 ∧ Rust.orientation fuel data = some (some 1) := by
  have hrust : Rust.orientation fuel data = some (some 1) := by
    unfold Rust.orientation
    rw [isPrefixOf_jpeg, hjpeg, if_neg Bool.false_ne_true]
    by_cases hriff : (decide (12 ≤ data.length) && Mime.riff.isPrefixOf data) = true
    · rw [if_pos hriff]
      obtain ⟨hlength, hprefix⟩ : 12 ≤ data.length ∧ Mime.riff.isPrefixOf data = true := by simpa using hriff
      have htake : data.take 4 = Mime.riff := (Mime.Rust.isPrefixOf_iff ..).mp hprefix
      have hformat : (data.take 12).drop 8 ≠ Mime.webp := by
        intro hformat
        simp [isWebp, hlength, htake, hformat] at hwebp
      rw [slice?_eq_some (by omega) hlength]
      exact if_neg hformat
    · rw [if_neg hriff]
  exact ⟨by simp [getExifOrientation, tiffOffset, hjpeg, hwebp], hrust⟩

/-- A scan that ends has one block. -/
theorem hasBlock_jpeg (h : isJpeg data = true) {tiff : Int} (hreturns : Loop.Returns (findJpegStep data) 2 tiff)
    (tiff' : Int) : HasBlock data tiff' ↔ tiff' ≠ -1 ∧ tiff' = tiff := by
  have hwebp : ¬ isWebp data = true := fun hwebp => by simp [isJpeg_of_isWebp hwebp] at h
  simp only [HasBlock, ← Loop.returns_iff, h, hwebp, Bool.false_eq_true, true_and, false_and, or_false]
  exact and_congr_right fun _ => ⟨fun hreturns' => hreturns'.unique hreturns, fun heq => heq ▸ hreturns⟩

theorem hasBlock_webp (h : isWebp data = true) (tiff : Int) :
    HasBlock data tiff ↔ tiff ≠ -1 ∧ Loop.Returns (findWebpStep data) 12 tiff := by
  simp only [HasBlock, ← Loop.returns_iff, h, isJpeg_of_isWebp h, Bool.false_eq_true, false_and, false_or, true_and]

theorem jpeg_readable_iff (hjpeg : isJpeg data = true) : ScansAgree data ↔ Readable data := by
  obtain ⟨tiff, hpython, hrust⟩ := jpeg_scans data 2
  have hwebp : isWebp data = true → False := fun h => by simp [isJpeg_of_isWebp h] at hjpeg
  have hagree : ScansAgree data ↔ orientationAt data tiff = rustOrientationAt data tiff := by
    simp only [scansAgree_iff, (orientation_jpeg hjpeg _).1, (orientation_jpeg hjpeg _).2]
    constructor
    · rintro ⟨orientation, -, -, ⟨tiff', hpython', rfl⟩, hrust'⟩
      obtain rfl := hpython.unique hpython'
      exact Option.some.inj (hrust'.unique hrust)
    · intro heq
      obtain ⟨hmin, hmax⟩ := orientationAt_range data tiff
      exact ⟨_, hmin, hmax, ⟨tiff, hpython, rfl⟩, heq ▸ hrust⟩
  rw [hagree, orientationAt_eq_iff]
  constructor
  · intro hnamed
    refine ⟨fun h => (hwebp h).elim, fun tiff' orientation hblock hnames => ⟨?_, fun h => (hwebp h).elim⟩⟩
    obtain ⟨hne, rfl⟩ := (hasBlock_jpeg hjpeg hpython _).mp hblock
    exact hnamed hne orientation hnames
  · exact fun hreadable hne orientation hnames =>
      (hreadable.named tiff orientation ((hasBlock_jpeg hjpeg hpython _).mpr ⟨hne, rfl⟩) hnames).1

/-- Without a negative size both bindings come to the same block. -/
theorem forward_readable_iff (hwebp : isWebp data = true) {tiff : Int}
    (hpython : Loop.Returns (findWebpStep data) 12 tiff)
    (hrust : Loop.Returns (Rust.webpStep data) 12 (some (rustOrientationAt data tiff)))
    (hforward : ¬ MeetsNegative data) : ScansAgree data ↔ Readable data := by
  have hagree : ScansAgree data ↔ orientationAt data tiff = rustOrientationAt data tiff := by
    simp only [scansAgree_iff, (orientation_webp hwebp _).1, (orientation_webp hwebp _).2]
    constructor
    · rintro ⟨orientation, -, -, ⟨tiff', hpython', rfl⟩, hrust'⟩
      obtain rfl := hpython.unique hpython'
      exact Option.some.inj (hrust'.unique hrust)
    · intro heq
      obtain ⟨hmin, hmax⟩ := orientationAt_range data tiff
      exact ⟨_, hmin, hmax, ⟨tiff, hpython, rfl⟩, heq ▸ hrust⟩
  rw [hagree, orientationAt_eq_iff]
  constructor
  · intro hnamed
    refine ⟨fun _ ⟨o, hreach, hback⟩ => hback.not_returns tiff (hreach.returns_of hpython),
      fun tiff' orientation hblock hnames => ⟨?_, fun _ => hforward⟩⟩
    obtain ⟨hne, hreturns⟩ := (hasBlock_webp hwebp _).mp hblock
    obtain rfl := hreturns.unique hpython
    exact hnamed hne orientation hnames
  · exact fun hreadable hne orientation hnames =>
      (hreadable.named tiff orientation ((hasBlock_webp hwebp _).mpr ⟨hne, hpython⟩) hnames).1

/-- At a negative size Rust stops: Python must end as well, and find no other orientation. -/
theorem negative_readable_iff (hwebp : isWebp data = true)
    (hrust : Loop.Returns (Rust.webpStep data) 12 (some 1)) (hnegative : MeetsNegative data) :
    ScansAgree data ↔ Readable data := by
  simp only [scansAgree_iff, (orientation_webp hwebp _).1, (orientation_webp hwebp _).2]
  constructor
  · rintro ⟨orientation, -, -, ⟨tiff, hpython, heq⟩, hrust'⟩
    obtain rfl : orientation = 1 := Option.some.inj (hrust'.unique hrust)
    refine ⟨fun _ ⟨o, hreach, hback⟩ => hback.not_returns tiff (hreach.returns_of hpython),
      fun tiff' orientation hblock hnames => ?_⟩
    obtain ⟨hne, hreturns⟩ := (hasBlock_webp hwebp _).mp hblock
    obtain rfl := hreturns.unique hpython
    exact absurd hnames ((orientationAt_eq_one_iff data _).mp heq hne orientation)
  · intro hreadable
    have hends : ¬ ∀ tiff, ¬ Loop.Returns (findWebpStep data) 12 tiff :=
      fun hnever => hreadable.forward hwebp ((Loop.not_returns_iff (finite_reaches data)).mp hnever)
    obtain ⟨tiff, hpython⟩ := not_forall_not.mp hends
    refine ⟨1, le_rfl, by omega, ⟨tiff, hpython, ?_⟩, hrust⟩
    rw [orientationAt_eq_one_iff]
    intro hne orientation hnames
    exact (hreadable.named tiff orientation ((hasBlock_webp hwebp _).mpr ⟨hne, hpython⟩) hnames).2 hwebp hnegative

theorem webp_readable_iff (hwebp : isWebp data = true) : ScansAgree data ↔ Readable data := by
  obtain ⟨tiff, hpython, hrust, hforward⟩ | ⟨hrust, hnegative⟩ := webp_scans data 12
  · exact forward_readable_iff hwebp hpython hrust fun ⟨o, hreach, ho⟩ => hforward o hreach ho
  · exact negative_readable_iff hwebp hrust hnegative

/-- The bindings end with the same orientation and type just on the data that both can read. -/
theorem image_scan_iff (data : List UInt8) : ScansAgree data ↔ Readable data := by
  by_cases hjpeg : isJpeg data = true
  · exact jpeg_readable_iff hjpeg
  · by_cases hwebp : isWebp data = true
    · exact webp_readable_iff hwebp
    · obtain ⟨hpython, hrust⟩ := orientation_other (Bool.not_eq_true _ ▸ hjpeg) (Bool.not_eq_true _ ▸ hwebp) 0
      have hagree : ScansAgree data :=
        (scansAgree_iff data).mpr ⟨1, le_rfl, by omega, ⟨0, hpython⟩, 0, hrust⟩
      have hreadable : Readable data := by
        refine ⟨fun h => absurd h hwebp, fun tiff orientation hblock _ => ?_⟩
        obtain ⟨-, ⟨h, -⟩ | ⟨h, -⟩⟩ := hblock
        · exact absurd h hjpeg
        · exact absurd h hwebp
      exact ⟨fun _ => hreadable, fun _ => hagree⟩

/-- A chunk of size -8 leads back to itself. -/
theorem chunk_leads_back : ¬ ScansAgree [0x52, 0x49, 0x46, 0x46, 0, 0, 0, 0, 0x57, 0x45, 0x42, 0x50,
    0x58, 0x58, 0x58, 0x58, 0xF8, 0xFF, 0xFF, 0xFF] := by
  intro hagree
  obtain ⟨orientation, -, -, ⟨fuel, hpython⟩, -⟩ := (scansAgree_iff _).mp hagree
  have hwebp : isWebp [0x52, 0x49, 0x46, 0x46, 0, 0, 0, 0, 0x57, 0x45, 0x42, 0x50,
    0x58, 0x58, 0x58, 0x58, 0xF8, 0xFF, 0xFF, 0xFF] = true := by decide
  obtain ⟨tiff, hreturns, -⟩ := (orientation_webp hwebp _).1.mp ⟨fuel, hpython⟩
  exact Loop.Continues.not_returns (Relation.TransGen.single (by decide)) tiff hreturns

end Exif

end MinionAgent
