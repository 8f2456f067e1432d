import Mathlib.Data.List.Chain

/-!
# MinionAgent.Library.Splice

Regions of a text that are replaced, and the lines that are not.

* `replaceAll` — all regions replaced at once, from left to right;
* `spliceAll_eq` — one after another from right to left is the same;
* `Preserved` — a text that has come from lines some of which are marked to stay;
* `kept_replaceAll` — every line that no region touches stays.
-/

namespace Splice

variable {α β : Type}

/-- A region of a text, with what it is replaced by. -/
structure Region (α : Type) where
  start : Nat
  length : Nat
  new : List α
  deriving DecidableEq

/-- Where a region ends. -/
def Region.stop (r : Region α) : Nat := r.start + r.length

/-- Regions one after another from `pos` to `stop`. -/
def Ordered (pos stop : Nat) : List (Region α) → Prop
  | [] => pos ≤ stop
  | r :: regions => pos ≤ r.start ∧ Ordered r.stop stop regions

/-- The regions of a text that begins at `pos`, replaced at once. -/
def replaceAll (pos : Nat) : List (Region α) → List α → List α
  | [], text => text
  | r :: regions, text =>
    text.take (r.start - pos) ++ (r.new ++ replaceAll r.stop regions (text.drop (r.stop - pos)))

/-- One region of a text that begins at `offset`, replaced. -/
def splice (offset : Nat) (r : Region α) (text : List α) : List α :=
  text.take (r.start - offset) ++ r.new ++ text.drop (r.start - offset + r.length)

/-- The regions replaced from the last one on. -/
def spliceAll (offset : Nat) (regions : List (Region α)) (text : List α) : List α :=
  regions.foldr (splice offset) text

variable {pos stop : Nat} {r : Region α} {regions : List (Region α)} {front text : List α}

theorem Ordered.le (h : Ordered pos stop regions) : pos ≤ stop := by
  induction regions generalizing pos with
  | nil => exact h
  | cons r regions ih => exact Nat.le_trans (Nat.le_trans h.1 (Nat.le_add_right ..)) (ih h.2)

theorem Ordered.start_le (h : Ordered pos stop regions) : ∀ r ∈ regions, pos ≤ r.start := by
  induction regions generalizing pos with
  | nil => simp
  | cons first regions ih =>
    intro r hr
    rcases List.mem_cons.mp hr with rfl | hr
    · exact h.1
    · exact Nat.le_trans (Nat.le_trans h.1 (Nat.le_add_right ..)) (ih h.2 r hr)

theorem Ordered.mono {pos' : Nat} (h : Ordered pos stop regions) (hstop : pos' ≤ stop)
    (hstart : ∀ r ∈ regions, pos' ≤ r.start) : Ordered pos' stop regions := by
  cases regions with
  | nil => exact hstop
  | cons r regions => exact ⟨hstart r (List.mem_cons_self ..), h.2⟩

/-- Regions of which each ends before the next one begins, within a text. -/
theorem ordered_of_isChain (hchain : regions.IsChain fun r r' => r.stop ≤ r'.start) (hpos : pos ≤ stop)
    (hfirst : ∀ r ∈ regions.head?, pos ≤ r.start) (hstop : ∀ r ∈ regions, r.stop ≤ stop) :
    Ordered pos stop regions := by
  induction regions generalizing pos with
  | nil => exact hpos
  | cons r regions ih =>
    obtain ⟨hr, hrest⟩ := List.forall_mem_cons.mp hstop
    refine ⟨hfirst r rfl, ih hchain.tail hr ?_ hrest⟩
    cases regions with
    | nil => simp
    | cons r' regions => simpa using (List.isChain_cons_cons.mp hchain).1

/-! ## At once and one after another -/

/-- What comes before all regions is left alone. -/
theorem replaceAll_append (h : Ordered pos stop regions) (hfront : ∀ r ∈ regions, pos + front.length ≤ r.start)
    (text : List α) :
    replaceAll pos regions (front ++ text) = front ++ replaceAll (pos + front.length) regions text := by
  cases regions with
  | nil => rfl
  | cons r regions =>
    have hr := hfront r (List.mem_cons_self ..)
    have hstop : r.start ≤ r.stop := Nat.le_add_right ..
    have htake : (front ++ text).take (r.start - pos) = front ++ text.take (r.start - (pos + front.length)) := by
      rw [List.take_append, List.take_of_length_le (by omega), Nat.sub_sub]
    have hdrop : (front ++ text).drop (r.stop - pos) = text.drop (r.stop - (pos + front.length)) := by
      rw [List.drop_append, List.drop_of_length_le (by omega), Nat.sub_sub, List.nil_append]
    rw [replaceAll, replaceAll, htake, hdrop, List.append_assoc]

theorem splice_append (h : pos + front.length ≤ r.start) (text : List α) :
    splice pos r (front ++ text) = front ++ splice (pos + front.length) r text := by
  have htake : (front ++ text).take (r.start - pos) = front ++ text.take (r.start - (pos + front.length)) := by
    rw [List.take_append, List.take_of_length_le (by omega), Nat.sub_sub]
  have hdrop : (front ++ text).drop (r.start - pos + r.length) =
      text.drop (r.start - (pos + front.length) + r.length) := by
    rw [List.drop_append, List.drop_of_length_le (by omega), List.nil_append]
    congr 1
    omega
  rw [splice, splice, htake, hdrop]
  simp only [List.append_assoc]

theorem spliceAll_append (h : ∀ r ∈ regions, pos + front.length ≤ r.start) (text : List α) :
    spliceAll pos regions (front ++ text) = front ++ spliceAll (pos + front.length) regions text := by
  induction regions with
  | nil => rfl
  | cons r regions ih =>
    obtain ⟨hr, hrest⟩ := List.forall_mem_cons.mp h
    have hcons (offset : Nat) (text : List α) :
        spliceAll offset (r :: regions) text = splice offset r (spliceAll offset regions text) := rfl
    rw [hcons, hcons, ih hrest, splice_append hr]

/-- What comes before all regions, cut off. -/
theorem spliceAll_cut {cut : Nat} (hpos : pos ≤ cut) (hcut : cut ≤ pos + text.length)
    (h : ∀ r ∈ regions, cut ≤ r.start) :
    spliceAll pos regions text = text.take (cut - pos) ++ spliceAll cut regions (text.drop (cut - pos)) := by
  have hlength : pos + (text.take (cut - pos)).length = cut := by
    rw [List.length_take]
    omega
  conv_lhs => rw [← List.take_append_drop (cut - pos) text]
  rw [spliceAll_append (by rw [hlength]; exact h), hlength]

/-- From the last region on, or all at once. -/
theorem spliceAll_eq (h : Ordered pos (pos + text.length) regions) :
    spliceAll pos regions text = replaceAll pos regions text := by
  induction regions generalizing pos text with
  | nil => rfl
  | cons r regions ih =>
    obtain ⟨hstart, hrest⟩ := h
    have hle : r.stop ≤ pos + text.length := hrest.le
    have hstop : r.start + r.length = r.stop := rfl
    have hback : r.stop + (text.drop (r.stop - pos)).length = pos + text.length := by
      rw [List.length_drop]
      omega
    have hsplit : spliceAll pos regions text =
        text.take (r.stop - pos) ++ replaceAll r.stop regions (text.drop (r.stop - pos)) := by
      rw [spliceAll_cut (by omega) hle hrest.start_le, ih (by rw [hback]; exact hrest)]
    show splice pos r (spliceAll pos regions text) = _
    rw [hsplit, splice, replaceAll, List.take_append_of_le_length (by rw [List.length_take]; omega), List.take_take,
      Nat.min_eq_left (by omega), List.append_assoc]
    congr 2
    rw [List.drop_append, List.drop_of_length_le (by rw [List.length_take]; omega), List.length_take, List.nil_append]
    have hzero : r.start - pos + r.length - min (r.stop - pos) text.length = 0 := by omega
    rw [hzero, List.drop_zero]

/-! ## What stays -/

/-- A text that has come from pieces, of which those that are marked stayed and
the others became anything. -/
inductive Preserved : List (Option (List α)) → List α → Prop
  | nil : Preserved [] []
  | keep {piece : List α} {marks : List (Option (List α))} {text : List α} (h : Preserved marks text) :
    Preserved (some piece :: marks) (piece ++ text)
  | change (new : List α) {marks : List (Option (List α))} {text : List α} (h : Preserved marks text) :
    Preserved (none :: marks) (new ++ text)

theorem kept_map_some (pieces : List (List α)) : Preserved (pieces.map some) pieces.flatten := by
  induction pieces with
  | nil => exact .nil
  | cons piece pieces ih => exact ih.keep

/-- A piece more that became anything. -/
theorem Preserved.insert {marks : List (Option (List α))} (h : Preserved (none :: marks) text) :
    Preserved (none :: none :: marks) text := h.change []

/-- A text that stays within what changes. -/
theorem Preserved.prepend {marks : List (Option (List α))} (h : Preserved (none :: marks) text) (new : List α) :
    Preserved (none :: marks) (new ++ text) := by
  cases h with
  | change front h =>
    rw [← List.append_assoc]
    exact h.change (new ++ front)

/-- A function on texts that takes the pieces one by one. -/
theorem Preserved.flatMap (f : α → List β) {marks : List (Option (List α))} (h : Preserved marks text) :
    Preserved (marks.map (Option.map (·.flatMap f))) (text.flatMap f) := by
  induction h with
  | nil => exact .nil
  | keep h ih =>
    rw [List.flatMap_append]
    exact ih.keep
  | change new h ih =>
    rw [List.flatMap_append]
    exact ih.change _

theorem Preserved.append {marks marks' : List (Option (List α))} {text' : List α} (h : Preserved marks text)
    (h' : Preserved marks' text') : Preserved (marks ++ marks') (text ++ text') := by
  induction h with
  | nil => exact h'
  | keep h ih =>
    rw [List.append_assoc]
    exact ih.keep
  | change new h ih =>
    rw [List.append_assoc]
    exact ih.change new

/-- Pieces that may all change became anything, when there is one. -/
theorem kept_replicate {n : Nat} (h : 0 < n) (text : List α) : Preserved (List.replicate n none) text := by
  obtain ⟨n, rfl⟩ := Nat.exists_eq_succ_of_ne_zero (Nat.pos_iff_ne_zero.mp h)
  have hempty : Preserved (List.replicate n (none : Option (List α))) [] := by
    induction n with
    | zero => exact .nil
    | succ n ih => exact (ih (Nat.succ_pos n)).change []
  have htext := hempty.change text
  rwa [List.append_nil] at htext

/-- Pieces by their numbers, those that may change unmarked. -/
def keepBy (changes : Nat → Prop) [DecidablePred changes] : Nat → List (List α) → List (Option (List α))
  | _, [] => []
  | i, piece :: pieces => (if changes i then none else some piece) :: keepBy changes (i + 1) pieces

section

variable (changes : Nat → Prop) [DecidablePred changes]

theorem keepBy_append (i : Nat) (pieces pieces' : List (List α)) :
    keepBy changes i (pieces ++ pieces') = keepBy changes i pieces ++ keepBy changes (i + pieces.length) pieces' := by
  induction pieces generalizing i with
  | nil => rfl
  | cons piece pieces ih => simp [keepBy, ih, Nat.add_assoc, Nat.add_comm 1]

/-- What stays all the same. -/
theorem kept_keepBy (i : Nat) (pieces : List (List α)) : Preserved (keepBy changes i pieces) pieces.flatten := by
  induction pieces generalizing i with
  | nil => exact .nil
  | cons piece pieces ih =>
    rw [keepBy, List.flatten_cons]
    split
    · exact (ih (i + 1)).change piece
    · exact (ih (i + 1)).keep

theorem map_keepBy (f : List α → List β) (i : Nat) (pieces : List (List α)) :
    (keepBy changes i pieces).map (Option.map f) = keepBy changes i (pieces.map f) := by
  induction pieces generalizing i with
  | nil => rfl
  | cons piece pieces ih =>
    rw [keepBy, List.map_cons, ih, List.map_cons, keepBy]
    split <;> rfl

theorem mem_of_some_mem_keepBy {i : Nat} {piece : List α} {pieces : List (List α)}
    (h : some piece ∈ keepBy changes i pieces) : piece ∈ pieces := by
  induction pieces generalizing i with
  | nil => cases h
  | cons first pieces ih =>
    rcases List.mem_cons.mp h with heq | hmem
    · split at heq
      · cases heq
      · exact Option.some.inj heq ▸ List.mem_cons_self ..
    · exact List.mem_cons_of_mem _ (ih hmem)

theorem keepBy_eq_replicate {i : Nat} {pieces : List (List α)} (h : ∀ j, i ≤ j → j < i + pieces.length → changes j) :
    keepBy changes i pieces = List.replicate pieces.length none := by
  induction pieces generalizing i with
  | nil => rfl
  | cons piece pieces ih =>
    have hfirst := h i (Nat.le_refl i) (by simp)
    have hrest := @ih (i + 1) fun j hj hj' => h j (by omega) (by simp only [List.length_cons]; omega)
    rw [keepBy, if_pos hfirst, hrest]
    rfl

end

/-- A region touches what begins at `start` and ends at `stop`: one of its
elements is there, or it is empty there. -/
def Touches (r : Region α) (start stop : Nat) : Prop := r.start < stop ∧ (start < r.stop ∨ start ≤ r.start)

instance (r : Region α) (start stop : Nat) : Decidable (Touches r start stop) :=
  inferInstanceAs (Decidable (_ ∧ _))

/-- One of the regions touches it. -/
def Touched (regions : List (Region α)) (start stop : Nat) : Prop := ∃ r ∈ regions, Touches r start stop

instance (regions : List (Region α)) (start stop : Nat) : Decidable (Touched regions start stop) :=
  inferInstanceAs (Decidable (∃ r ∈ regions, Touches r start stop))

/-- The pieces of a text that begins at `pos`, those that no region touches
marked. -/
def marks (regions : List (Region α)) : Nat → List (List α) → List (Option (List α))
  | _, [] => []
  | pos, piece :: pieces =>
    (if Touched regions pos (pos + piece.length) then none else some piece) ::
      marks regions (pos + piece.length) pieces

theorem marks_nil (pos : Nat) (pieces : List (List α)) : marks [] pos pieces = pieces.map some := by
  induction pieces generalizing pos with
  | nil => rfl
  | cons piece pieces ih => simp [marks, Touched, ih]

theorem touched_cons {start stop : Nat} :
    Touched (r :: regions) start stop ↔ Touches r start stop ∨ Touched regions start stop := by
  simp [Touched]

/-- A region that ends before a text touches no piece of it. -/
theorem marks_of_stop_le (hlength : 0 < r.length) (h : r.stop ≤ pos) (pieces : List (List α)) :
    marks (r :: regions) pos pieces = marks regions pos pieces := by
  induction pieces generalizing pos with
  | nil => rfl
  | cons piece pieces ih =>
    have hnot : ¬ Touches r pos (pos + piece.length) := by
      simp only [Touches, Region.stop] at h ⊢
      omega
    simp only [marks, touched_cons, hnot, false_or, ih (Nat.le_add_right_of_le h)]

/-- Every piece that no region touches stays when the regions, of one element at
least, are replaced; `front` is left of a piece that is touched. -/
theorem kept_replaceAll {regions : List (Region α)} (hlength : ∀ r ∈ regions, 0 < r.length)
    {pos stop : Nat} (h : Ordered pos stop regions) {front : List α} {pieces : List (List α)}
    (hpieces : ∀ piece ∈ pieces, piece ≠ []) (hstop : stop = pos + (front ++ pieces.flatten).length) :
    Preserved (none :: marks regions (pos + front.length) pieces) (replaceAll pos regions (front ++ pieces.flatten)) ∧
      (front = [] → Preserved (marks regions pos pieces) (replaceAll pos regions pieces.flatten)) := by
  induction regions generalizing pos front pieces with
  | nil =>
    rw [marks_nil, marks_nil]
    exact ⟨(kept_map_some pieces).change front, fun _ => kept_map_some pieces⟩
  | cons r regions ih =>
    obtain ⟨hr, hlengths⟩ := List.forall_mem_cons.mp hlength
    have hstop' : r.start + r.length = r.stop := rfl
    induction pieces generalizing pos front with
    | nil =>
      refine ⟨?_, fun hfront => ?_⟩
      · have hnil := (Preserved.nil (α := α)).change (replaceAll pos (r :: regions) (front ++ [].flatten))
        rwa [List.append_nil] at hnil
      · subst hfront
        have hwithin := h.2.le
        have hstart := h.1
        simp only [List.flatten_nil, List.append_nil, List.length_nil] at hstop
        omega
    | cons piece pieces ihPieces =>
      obtain ⟨hpiece, hrest⟩ := List.forall_mem_cons.mp hpieces
      have hpos := List.length_pos_iff.mpr hpiece
      have hwithin := h.2.le
      have hstart := h.1
      rw [List.flatten_cons] at hstop ⊢
      simp only [List.length_append] at hstop
      by_cases hbefore : pos + front.length + piece.length ≤ r.start
      · -- The piece is before the first region, and so before all.
        have hstarts : ∀ r' ∈ r :: regions, pos + front.length + piece.length ≤ r'.start := by
          intro r' hr'
          rcases List.mem_cons.mp hr' with rfl | hr'
          · exact hbefore
          · have hle := h.2.start_le r' hr'
            omega
        have hnot : ¬ Touched (r :: regions) (pos + front.length) (pos + front.length + piece.length) := by
          intro ⟨r', hr', htouch⟩
          exact absurd htouch.1 (Nat.not_lt.mpr (hstarts r' hr'))
        have hnext := h.mono (by omega) hstarts
        have hkept := (@ihPieces _ hnext [] hrest (by rw [List.nil_append]; omega)).2 rfl
        have hfront : pos + (front ++ piece).length = pos + front.length + piece.length := by
          rw [List.length_append, Nat.add_assoc]
        have hreplace := replaceAll_append h (by rw [hfront]; exact hstarts) pieces.flatten
        rw [List.append_assoc, List.append_assoc, hfront] at hreplace
        refine ⟨?_, fun hnil => ?_⟩
        · rw [marks, if_neg hnot, hreplace]
          exact hkept.keep.change front
        · subst hnil
          rw [List.nil_append, List.nil_append] at hreplace
          rw [List.length_nil, Nat.add_zero] at hnot hreplace hkept
          rw [marks, if_neg hnot, hreplace]
          exact hkept.keep
      · by_cases hafter : r.stop ≤ pos + front.length
        · -- The region ends within what is left of the touched piece.
          refine ⟨?_, fun hnil => ?_⟩
          · have hdrop : (front ++ (piece ++ pieces.flatten)).drop (r.stop - pos) =
                front.drop (r.stop - pos) ++ (piece :: pieces).flatten := by
              rw [List.drop_append_of_le_length (by omega), List.flatten_cons]
            have hlength' : r.stop + (front.drop (r.stop - pos)).length = pos + front.length := by
              rw [List.length_drop]
              omega
            have hkept := (@ih hlengths _ h.2 (front.drop (r.stop - pos)) _ hpieces (by
              rw [List.length_append, List.flatten_cons, List.length_append]
              omega)).1
            rw [hlength'] at hkept
            rw [marks_of_stop_le hr hafter, replaceAll, hdrop, ← List.append_assoc]
            exact hkept.prepend _
          · subst hnil
            rw [List.length_nil] at hafter
            omega
        · -- The region touches the piece, which is left with what comes before it.
          have htouched : Touched (r :: regions) (pos + front.length) (pos + front.length + piece.length) :=
            ⟨r, List.mem_cons_self .., by omega, .inl (by omega)⟩
          have hkept := (@ihPieces pos h (front ++ piece) hrest (by simp only [List.length_append]; omega)).1
          rw [List.length_append, ← Nat.add_assoc, List.append_assoc] at hkept
          refine ⟨?_, fun hnil => ?_⟩
          · rw [marks, if_pos htouched]
            exact hkept.insert
          · subst hnil
            rw [List.length_nil, Nat.add_zero] at htouched hkept
            rw [marks, if_pos htouched]
            exact hkept

/-- Every piece of a text that no region touches stays when they are replaced. -/
theorem kept_marks (hlength : ∀ r ∈ regions, 0 < r.length) {pieces : List (List α)}
    (hpieces : ∀ piece ∈ pieces, piece ≠ []) (h : Ordered 0 pieces.flatten.length regions) :
    Preserved (marks regions 0 pieces) (replaceAll 0 regions pieces.flatten) :=
  (@kept_replaceAll _ _ hlength 0 _ h [] pieces hpieces (by simp)).2 rfl

end Splice
