import MinionAgent.Tools.HeadTruncation

/-!
# MinionAgent.Tools.HeadMaximal

What a head truncation promises (`tools/builtin/truncate.py`,
`tools/builtin/truncate.rs`): the most lines that keep both ceilings, and the
name of a ceiling that the text exceeds.

* `keepHead_stop` — where the loop stops, and what it is named after;
* `truncateHead_honest_iff` — the promise is kept but for a text that is too
  long by its last newline only.
-/

namespace MinionAgent

variable {maxLines maxBytes : Nat}

/-- So many first lines keep both ceilings. -/
def FitsHead (maxLines maxBytes : Nat) (content : List Char) (k : Nat) : Prop :=
  k ≤ maxLines ∧ utf8Len (joinLines ((splitLinesForCounting content).take k)) ≤ maxBytes

/-- A truncation that shows the most lines it may, and names a ceiling that the
text exceeds. -/
structure HonestHead (maxLines maxBytes : Nat) (content : List Char) (t : Truncation) : Prop where
  totalLines : t.totalLines = (splitLinesForCounting content).length
  totalBytes : t.totalBytes = utf8Len content
  unchanged : t.content = content ↔ t.totalLines ≤ maxLines ∧ t.totalBytes ≤ maxBytes
  whole : t.truncated = false ↔ t.totalLines ≤ maxLines ∧ t.totalBytes ≤ maxBytes
  part : t.truncated = true → t.outputLines ≤ t.totalLines ∧
    t.content = joinLines ((splitLinesForCounting content).take t.outputLines)
  fits : t.truncated = true → FitsHead maxLines maxBytes content t.outputLines
  most : t.truncated = true → ∀ k ≤ t.totalLines, FitsHead maxLines maxBytes content k → k ≤ t.outputLines
  first : t.firstLineExceedsLimit = true ↔ ∃ line ∈ (splitLinesForCounting content).head?, maxBytes < utf8Len line
  empty : t.firstLineExceedsLimit = true → t.content = []
  byLines : t.truncatedBy = some .lines → maxLines < t.totalLines
  byBytes : t.truncatedBy = some .bytes → maxBytes < t.totalBytes

/-! ## Where the loop stops -/

theorem utf8Len_joinLines_take {lines : List (List Char)} {j k : Nat} (h : j ≤ k) :
    utf8Len (joinLines (lines.take j)) ≤ utf8Len (joinLines (lines.take k)) := by
  induction lines generalizing j k with
  | nil => simp
  | cons line lines ih =>
    cases j with
    | zero => exact Nat.zero_le _
    | succ j =>
      cases k with
      | zero => omega
      | succ k =>
        have hrest := ih (Nat.le_of_succ_le_succ h)
        have hmore : (lines.take k).isEmpty = true → (lines.take j).isEmpty = true := by
          simp only [List.isEmpty_iff, List.take_eq_nil_iff]
          grind
        rw [List.take_succ_cons, List.take_succ_cons, joinLines_cons, joinLines_cons]
        split_ifs <;> grind

/-- The text is at most a newline longer than its lines joined. -/
theorem utf8Len_joinLines_split (content : List Char) :
    utf8Len content =
      utf8Len (joinLines (splitLinesForCounting content)) + if endsWithNewline content then 1 else 0 := by
  rw [joinLines_splitLinesForCounting]
  split
  · next hends =>
    obtain ⟨before, rfl⟩ := eq_concat_of_endsWithNewline hends
    have hsize : ('\n').utf8Size = 1 := by decide
    simp [utf8Len, hsize]
  · rfl

/-- The loop stops at a ceiling or behind the last line, and is named after the
bytes just where the next line would exceed them. -/
theorem keepHead_stop {kept : HeadKept} (hcounted : kept.Counted) (hby : kept.truncatedBy = .lines)
    (lines : List (List Char)) :
    ∃ k ≤ lines.length, (keepHead maxLines maxBytes kept lines).lines = kept.lines ++ lines.take k ∧
      ((keepHead maxLines maxBytes kept lines).truncatedBy = .lines ∧
          (maxLines ≤ kept.lines.length + k ∨ k = lines.length) ∨
        (keepHead maxLines maxBytes kept lines).truncatedBy = .bytes ∧ k < lines.length ∧
          maxBytes < utf8Len (joinLines (kept.lines ++ lines.take (k + 1)))) := by
  induction lines generalizing kept with
  | nil => exact ⟨0, Nat.le_refl 0, by simp [keepHead], .inl ⟨hby, .inr rfl⟩⟩
  | cons line rest ih =>
    rw [keepHead]
    split_ifs with hfull hover
    · exact ⟨0, Nat.zero_le _, by simp, .inl ⟨hby, .inl hfull⟩⟩
    · have hsize : kept.bytes + kept.lineBytes line = utf8Len (joinLines (kept.lines ++ [line])) := hcounted.add line
      exact ⟨0, Nat.zero_le _, by simp, .inr ⟨rfl, by simp, by simpa [← hsize] using hover⟩⟩
    · obtain ⟨k, hk, hkept, hstop⟩ := @ih (kept.add line) (hcounted.add line) hby
      have hnext (n : Nat) : (kept.add line).lines ++ rest.take n = kept.lines ++ (line :: rest).take (n + 1) := by
        simp [HeadKept.add]
      have hlength : (kept.add line).lines.length = kept.lines.length + 1 := by simp [HeadKept.add]
      rw [hnext, hlength] at hstop
      refine ⟨k + 1, by simpa using hk, hkept.trans (hnext k), hstop.imp ?_ ?_⟩
      · intro hcount
        obtain ⟨hlines, hat⟩ := hcount
        exact ⟨hlines, by rw [List.length_cons]; omega⟩
      · intro hsize
        obtain ⟨hbytes, hlt, hover⟩ := hsize
        exact ⟨hbytes, by rw [List.length_cons]; omega, hover⟩

/-! ## The promise -/

/-- A cut behind the lines that the loop keeps. -/
theorem truncateHead_cut {content : List Char}
    (hwithin : ¬ ((splitLinesForCounting content).length ≤ maxLines ∧ utf8Len content ≤ maxBytes))
    (hfirst : (splitLinesForCounting content).head?.any (maxBytes < utf8Len ·) = false) :
    ∃ (k : Nat) (by' : TruncatedBy), k ≤ (splitLinesForCounting content).length ∧
      Rust.truncateHead maxLines maxBytes content =
        { content := joinLines ((splitLinesForCounting content).take k), truncated := true, truncatedBy := some by'
          totalLines := (splitLinesForCounting content).length, totalBytes := utf8Len content, outputLines := k
          firstLineExceedsLimit := false } ∧
      FitsHead maxLines maxBytes content k ∧
      (by' = .lines ∧ (maxLines ≤ k ∨ k = (splitLinesForCounting content).length) ∨
        by' = .bytes ∧ k < (splitLinesForCounting content).length ∧
          maxBytes < utf8Len (joinLines ((splitLinesForCounting content).take (k + 1)))) := by
  obtain ⟨k, hk, hkept, hstop⟩ := @keepHead_stop maxLines maxBytes {} rfl rfl (splitLinesForCounting content)
  obtain ⟨j, hj, hkept', hcount, hsize⟩ := @keepHead_spec maxLines maxBytes {} rfl (Nat.zero_le _) (Nat.zero_le _)
    (splitLinesForCounting content)
  have hlines (n : Nat) : ({} : HeadKept).lines ++ (splitLinesForCounting content).take n =
      (splitLinesForCounting content).take n := rfl
  have hnone : ({} : HeadKept).lines.length = 0 := rfl
  rw [hlines] at hkept hkept' hsize
  rw [hlines, hnone, Nat.zero_add] at hstop
  rw [hnone, Nat.zero_add] at hcount
  have hkj : k = j := by
    have hlength := congrArg List.length (hkept.symm.trans hkept')
    rwa [List.length_take_of_le hk, List.length_take_of_le hj] at hlength
  subst hkj
  refine ⟨k, _, hk, ?_, ⟨hcount, hsize⟩, hstop⟩
  rw [Rust.truncateHead, truncateHeadBy]
  simp only [hwithin, hfirst, if_false, Bool.false_eq_true, hkept, List.length_take_of_le hk]

/-- A cut is not the text. -/
theorem joinLines_take_ne {content : List Char} {k : Nat}
    (hwithin : ¬ ((splitLinesForCounting content).length ≤ maxLines ∧ utf8Len content ≤ maxBytes))
    (hfits : FitsHead maxLines maxBytes content k) (hk : k ≤ (splitLinesForCounting content).length) :
    joinLines ((splitLinesForCounting content).take k) ≠ content := by
  intro heq
  obtain ⟨hlines, hbytes⟩ := hfits
  rw [heq] at hbytes
  have hlt : k < (splitLinesForCounting content).length := by omega
  have hnext := utf8Len_joinLines_concat ((splitLinesForCounting content).take k) (splitLinesForCounting content)[k]
  rw [← List.take_succ_eq_append_getElem hlt, List.length_take_of_le hk, heq] at hnext
  have hle : utf8Len (joinLines ((splitLinesForCounting content).take (k + 1))) ≤ utf8Len content := by
    have hall := @utf8Len_joinLines_take (splitLinesForCounting content) (k + 1) _ (Nat.succ_le_of_lt hlt)
    rw [List.take_length] at hall
    have := utf8Len_joinLines_split content
    omega
  cases k with
  | zero =>
    -- nothing was kept of a text that has a line
    have hnil : content = [] := by rw [← heq]; rfl
    rw [hnil] at hlt
    exact absurd hlt (Nat.lt_irrefl 0)
  | succ k =>
    rw [if_pos (Nat.succ_pos k)] at hnext
    omega

/-- The first line is no longer than the text. -/
theorem utf8Len_first_le {content : List Char} {line : List Char}
    (h : (splitLinesForCounting content).head? = some line) :
    utf8Len line ≤ utf8Len (joinLines (splitLinesForCounting content)) := by
  obtain ⟨rest, hlines⟩ := List.head?_eq_some_iff.mp h
  rw [hlines, joinLines_cons]
  omega

theorem honest_within {content : List Char}
    (hwithin : (splitLinesForCounting content).length ≤ maxLines ∧ utf8Len content ≤ maxBytes) :
    HonestHead maxLines maxBytes content (Rust.truncateHead maxLines maxBytes content) := by
  have hsplit := utf8Len_joinLines_split content
  rw [Rust.truncateHead, truncateHeadBy, if_pos hwithin]
  have hfalse {p : Prop} : false = true → p := fun h => absurd h Bool.false_ne_true
  have hnone {by' : TruncatedBy} {p : Prop} : none = some by' → p := fun h => absurd h.symm (Option.some_ne_none by')
  refine ⟨rfl, rfl, ?_, ?_, hfalse, hfalse, hfalse, ?_, hfalse, hnone, hnone⟩
  · exact iff_of_true rfl hwithin
  · exact iff_of_true rfl hwithin
  · refine iff_of_false Bool.false_ne_true fun hlong => ?_
    obtain ⟨line, hline, hlong⟩ := hlong
    have hfirst := utf8Len_first_le hline
    omega

theorem honest_long {content line : List Char} (hline : (splitLinesForCounting content).head? = some line)
    (hlong : maxBytes < utf8Len line) :
    HonestHead maxLines maxBytes content (Rust.truncateHead maxLines maxBytes content) := by
  have hsplit := utf8Len_joinLines_split content
  have hfirst := utf8Len_first_le hline
  have hwithin : ¬ ((splitLinesForCounting content).length ≤ maxLines ∧ utf8Len content ≤ maxBytes) := by omega
  have hany : (splitLinesForCounting content).head?.any (maxBytes < utf8Len ·) = true := by simp [hline, hlong]
  obtain ⟨rest, hlines⟩ := List.head?_eq_some_iff.mp hline
  rw [Rust.truncateHead, truncateHeadBy]
  simp only [hwithin, hany, if_false, if_true]
  refine ⟨rfl, rfl, ?_, ?_, ?_, ?_, ?_, ?_, fun _ => rfl, fun h => ?_, ?_⟩
  · refine iff_of_false ?_ hwithin
    intro hnil
    rw [← show ([] : List Char) = content from hnil] at hline
    cases hline
  · exact iff_of_false (Bool.false_ne_true ∘ Eq.symm) hwithin
  · exact fun _ => ⟨Nat.zero_le _, rfl⟩
  · exact fun _ => ⟨Nat.zero_le _, Nat.zero_le _⟩
  · -- any line kept would bring the first one
    intro _ k _ hfits
    have hbytes := hfits.2
    by_contra hk
    have hone := @utf8Len_joinLines_take (splitLinesForCounting content) 1 k (Nat.pos_of_ne_zero (by simpa using hk))
    have hjoin : joinLines ((splitLinesForCounting content).take 1) = line := by simp [hlines, joinLines]
    rw [hjoin] at hone
    omega
  · exact iff_of_true rfl ⟨line, hline, hlong⟩
  · cases h
  · intro _
    show maxBytes < utf8Len content
    omega

/-- A cut is honest but for a text that exceeds the bytes by its last newline. -/
theorem honest_cut {content : List Char}
    (hwithin : ¬ ((splitLinesForCounting content).length ≤ maxLines ∧ utf8Len content ≤ maxBytes))
    (hfirst : (splitLinesForCounting content).head?.any (maxBytes < utf8Len ·) = false) :
    HonestHead maxLines maxBytes content (Rust.truncateHead maxLines maxBytes content) ↔
      ¬ (endsWithNewline content ∧ (splitLinesForCounting content).length ≤ maxLines ∧
        utf8Len content = maxBytes + 1) := by
  have hsplit := utf8Len_joinLines_split content
  have hshort : ∀ line ∈ (splitLinesForCounting content).head?, ¬ maxBytes < utf8Len line := by
    intro line hline
    rw [Option.mem_def] at hline
    simpa [hline] using hfirst
  obtain ⟨k, name, hk, hcut, hfits, hstop⟩ := truncateHead_cut hwithin hfirst
  have hall := @utf8Len_joinLines_take (splitLinesForCounting content) (k + 1) (splitLinesForCounting content).length
  have hkept := @utf8Len_joinLines_take (splitLinesForCounting content) k (splitLinesForCounting content).length hk
  rw [List.take_length] at hall hkept
  rw [hcut]
  constructor
  · intro hhonest hlast
    obtain ⟨hends, hlines, hbytes⟩ := hlast
    rw [if_pos hends] at hsplit
    -- all lines are kept, and the cut is named after them
    rcases hstop with ⟨rfl, _⟩ | ⟨_, hlt, hover⟩
    · have hby : maxLines < (splitLinesForCounting content).length := hhonest.byLines rfl
      omega
    · have := hall hlt
      omega
  · intro hlast
    have hfalse {p : Prop} : false = true → p := fun h => absurd h Bool.false_ne_true
    refine ⟨rfl, rfl, ?_, ?_, fun _ => ⟨hk, rfl⟩, fun _ => hfits, ?_, ?_, hfalse, ?_, ?_⟩
    · exact iff_of_false (joinLines_take_ne hwithin hfits hk) hwithin
    · exact iff_of_false (Bool.false_ne_true ∘ Eq.symm) hwithin
    · intro _ j hj hfits'
      by_contra hmore
      have hnext := @utf8Len_joinLines_take (splitLinesForCounting content) (k + 1) j (Nat.not_le.mp hmore)
      have hlines := hfits'.1
      have hbytes := hfits'.2
      simp only at hj hmore
      rcases hstop with ⟨_, hfull | hend⟩ | ⟨_, _, hover⟩ <;> omega
    · refine iff_of_false Bool.false_ne_true fun hlong => ?_
      obtain ⟨line, hline, hlong⟩ := hlong
      exact hshort line hline hlong
    · intro hby
      obtain rfl : name = .lines := Option.some.inj hby
      by_contra hlines
      simp only at hlines
      obtain ⟨_, hend⟩ | ⟨hbytes, _⟩ := hstop
      · have hfull : k = (splitLinesForCounting content).length := by omega
        have hbytes := hfits.2
        rw [hfull, List.take_length] at hbytes
        refine hlast ⟨?_, by omega, ?_⟩
        · by_contra hends
          rw [if_neg hends] at hsplit
          omega
        · split at hsplit <;> omega
      · cases hbytes
    · intro hby
      obtain rfl : name = .bytes := Option.some.inj hby
      obtain ⟨hbytes, _⟩ | ⟨_, hlt, hover⟩ := hstop
      · cases hbytes
      · have := hall hlt
        show maxBytes < utf8Len content
        omega

/-- A truncation is honest but for a text of at most so many lines that exceeds the
bytes by its last newline. -/
theorem truncateHead_honest_iff (maxLines maxBytes : Nat) (content : List Char) :
    HonestHead maxLines maxBytes content (Python.truncateHead maxLines maxBytes content) ∧
        Rust.truncateHead maxLines maxBytes content = Python.truncateHead maxLines maxBytes content ↔
      ¬ (endsWithNewline content ∧ (splitLinesForCounting content).length ≤ maxLines ∧
        utf8Len content = maxBytes + 1) := by
  rw [truncateHead_agrees, and_iff_left rfl]
  by_cases hwithin : (splitLinesForCounting content).length ≤ maxLines ∧ utf8Len content ≤ maxBytes
  · exact iff_of_true (honest_within hwithin) (by omega)
  · cases hfirst : (splitLinesForCounting content).head?.any (maxBytes < utf8Len ·) with
    | false => exact honest_cut hwithin hfirst
    | true =>
      have hlong : ∃ line, (splitLinesForCounting content).head? = some line ∧ maxBytes < utf8Len line := by
        cases hline : (splitLinesForCounting content).head? with
        | none => simp [hline] at hfirst
        | some line => exact ⟨line, rfl, by simpa [hline] using hfirst⟩
      obtain ⟨line, hline, hlong⟩ := hlong
      have hsplit := utf8Len_joinLines_split content
      have hle := utf8Len_first_le hline
      refine iff_of_true (honest_long hline hlong) ?_
      intro hlast
      obtain ⟨hends, _, hbytes⟩ := hlast
      rw [if_pos hends] at hsplit
      omega

/-- A text of one line that is too long by its last newline is said to have too
many lines. -/
theorem truncateHead_last_newline :
    ¬ ∀ (maxLines maxBytes : Nat) (content : List Char), 1 ≤ maxLines → 1 ≤ maxBytes →
      HonestHead maxLines maxBytes content (Python.truncateHead maxLines maxBytes content) := by
  intro h
  have hby := (h 2000 3 ['a', 'b', 'c', '\n'] (by decide) (by decide)).byLines
  exact absurd (hby (by decide)) (by decide)

end MinionAgent
