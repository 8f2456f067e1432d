import MinionAgent.Tools.ReadAgreement

/-!
# MinionAgent.Tools.PagedReading

Reading a file page by page with the `read` tool.

* `readPage_spec` — the page at a line shows some lines from there on, and names
  the line behind them, if there is one;
* `PagesFrom` — the pages from a line to the end of the file;
* `readNext_returns` — reading on ends, with those pages.
-/

namespace MinionAgent

open Python

/-! ## Joined lines -/

theorem joinLines_append {first rest : List (List Char)} (hfirst : first ≠ []) (hrest : rest ≠ []) :
    joinLines (first ++ rest) = joinLines first ++ '\n' :: joinLines rest := by
  induction first with
  | nil => exact absurd rfl hfirst
  | cons line first ih =>
    cases first with
    | nil => simp [joinLines, List.intercalate_cons_of_ne_nil hrest]
    | cons next first =>
      have htail := ih (List.cons_ne_nil next first)
      simp only [joinLines, List.cons_append, List.intercalate_cons_cons] at htail ⊢
      rw [htail]
      simp

/-! ## Numbers -/

/-- A limit that is absent or a positive integer. -/
def PositiveLimit : Option Binary64 → Prop
  | none => True
  | some limit => ∃ m : ℤ, 0 < m ∧ limit = .finite m

theorem ofInt_nat {n : Nat} (h : n < 2 ^ 53) : Binary64.ofInt n = .finite ((n : ℤ) : ℚ) := by
  refine Binary64.round_int ?_
  rw [abs_of_nonneg (Int.natCast_nonneg n)]
  exact_mod_cast h

theorem add_nat {a b : Nat} (h : a + b < 2 ^ 53) :
    (Binary64.finite (a : ℤ)).add (.finite (b : ℤ)) = .finite ((a + b : Nat) : ℤ) := by
  rw [Binary64.add_int]
  · push_cast
    rfl
  · rw [abs_of_nonneg (by omega)]
    exact_mod_cast h

theorem sub_nat {a b : Nat} (h : b ≤ a) (ha : a < 2 ^ 53) :
    (Binary64.finite (a : ℤ)).sub (.finite (b : ℤ)) = .finite ((a - b : Nat) : ℤ) := by
  have hneg : Binary64.neg (.finite (b : ℤ)) = .finite ((-b : ℤ) : ℚ) := by
    rw [Binary64.neg]
    push_cast
    rfl
  rw [Binary64.sub, hneg, Binary64.add_int]
  · rw [Nat.cast_sub h]
    rfl
  · rw [abs_of_nonneg (by omega)]
    omega

/-- The line behind the last one that a limit allows is in the file, and behind the first one. -/
theorem endLine_positive {shortest : Shortest} {k n : Nat} (hk : k < n) (hn : n < 2 ^ 53) {limit : Binary64}
    (hlimit : PositiveLimit (some limit)) :
    ∃ e : Nat, k < e ∧ e ≤ n ∧ endLine (readFunctions shortest) n (.finite (k : ℤ)) (some limit) =
      some (.finite (e : ℤ)) := by
  obtain ⟨m, hm, rfl⟩ := hlimit
  have hend : ∀ x, endLine (readFunctions shortest) n (.finite (k : ℤ)) (some x) =
      some (mathMin ((Binary64.finite (k : ℤ)).add x) (.finite (n : ℤ))) := by
    intro x
    rw [← ofInt_nat hn]
    rfl
  rw [hend]
  by_cases hsmall : (k : ℤ) + m < 2 ^ 53
  · have habs : |(k : ℤ) + m| < 2 ^ 53 := by rwa [abs_of_nonneg (by omega)]
    rw [Binary64.add_int habs, mathMin, if_neg (by simp), Binary64.le_finite]
    by_cases hle : (k : ℤ) + m ≤ n
    · refine ⟨((k : ℤ) + m).toNat, by omega, by omega, ?_⟩
      rw [decide_eq_true (by exact_mod_cast hle), if_pos rfl, Int.toNat_of_nonneg (by omega)]
    · refine ⟨n, hk, Nat.le_refl n, ?_⟩
      rw [decide_eq_false (by exact_mod_cast hle), if_neg Bool.false_ne_true]
  · -- beyond what doubles count exactly, the sum is still beyond the file
    refine ⟨n, hk, Nat.le_refl n, ?_⟩
    have hbig : (2 : ℚ) ^ 53 ≤ ((k : ℤ) : ℚ) + (m : ℚ) := by exact_mod_cast not_lt.mp hsmall
    rw [Binary64.add]
    rcases Binary64.le_round hbig with hinf | ⟨v, hv, hfin⟩
    · rw [hinf]
      rfl
    · have hlt : ((n : ℤ) : ℚ) < v := lt_of_lt_of_le (by exact_mod_cast hn) hv
      rw [hfin, mathMin, if_neg (by simp), Binary64.le_finite, decide_eq_false (not_le.mpr hlt),
        if_neg Bool.false_ne_true]

/-! ## Selections -/

/-- The line that an offset names, from 0. -/
def NamesLine (k : Nat) : Option Binary64 → Prop
  | none => k = 0
  | some offset => offset = .finite ((k + 1 : Nat) : ℤ)

variable {shortest : Shortest} {data : List UInt8}

theorem startLine_names {k : Nat} (hk : k + 1 < 2 ^ 53) {offset : Option Binary64} (h : NamesLine k offset) :
    startLine (readFunctions shortest) offset = .finite (k : ℤ) := by
  cases offset with
  | none =>
    have hzero : k = 0 := h
    subst hzero
    rfl
  | some offset =>
    have hoffset : offset = .finite ((k + 1 : Nat) : ℤ) := h
    have hfalsy : ¬ (offset = .finite 0 ∨ offset = .nan) := by
      rw [hoffset]
      simp only [Binary64.finite.injEq, reduceCtorEq, or_false]
      exact_mod_cast Nat.succ_ne_zero k
    have hsub : offset.sub (.finite 1) = .finite (k : ℤ) := by
      have hone : (Binary64.finite 1) = .finite ((1 : Nat) : ℤ) := by
        push_cast
        rfl
      rw [hoffset, hone, sub_nat (Nat.le_add_left 1 k) hk, Nat.add_sub_cancel]
    have hle : decide (((k : ℤ) : ℚ) ≤ 0) = true ↔ k = 0 := by
      rw [decide_eq_true_iff]
      norm_cast
      omega
    rw [startLine, if_neg hfalsy, hsub]
    show mathMax (.finite 0) (.finite (k : ℤ)) = .finite (k : ℤ)
    rw [mathMax, if_neg (by simp), Binary64.le_finite]
    by_cases hzero : k = 0
    · rw [if_pos (hle.mpr hzero), hzero]
      rfl
    · rw [if_neg fun htrue => hzero (hle.mp htrue)]

theorem relativeIndex_nat (i length : Nat) : relativeIndex (.finite (i : ℤ)) length = min i length := by
  simp only [relativeIndex, truncate_intCast]
  rw [if_neg (by omega), Int.toNat_natCast]

/-- From a line on, some lines are selected. -/
theorem selectedLines_names {lines : List (List Char)} {k : Nat} (hk : k < lines.length)
    (hlines : lines.length < 2 ^ 53) {offset limit : Option Binary64} (hoffset : NamesLine k offset)
    (hlimit : PositiveLimit limit) :
    ∃ e : Nat, k < e ∧ e ≤ lines.length ∧
      selectedLines (readFunctions shortest) lines offset limit = (lines.drop k).take (e - k) ∧
      endLine (readFunctions shortest) lines.length (.finite (k : ℤ)) limit = limit.map (fun _ => .finite (e : ℤ)) ∧
      (limit = none → e = lines.length) := by
  rw [selectedLines, startLine_names (by omega) hoffset]
  cases limit with
  | none =>
    refine ⟨lines.length, hk, Nat.le_refl _, ?_, rfl, fun _ => rfl⟩
    show jsSlice lines (.finite (k : ℤ)) none = _
    simp only [jsSlice, relativeIndex_nat, Nat.min_eq_left hk.le, if_pos hk, List.take_length]
    rw [List.take_of_length_le (by simp)]
  | some limit =>
    obtain ⟨e, hke, hel, hend⟩ := @endLine_positive shortest k lines.length hk hlines limit hlimit
    refine ⟨e, hke, hel, ?_, hend, fun hnone => by cases hnone⟩
    rw [hend]
    show jsSlice lines (.finite (k : ℤ)) (some (.finite (e : ℤ))) = _
    simp only [jsSlice, relativeIndex_nat, Nat.min_eq_left hk.le, Nat.min_eq_left hel, if_pos hke]
    exact List.drop_take

/-! ## One page -/

/-- A page that shows so many lines from a line on, and names the line behind
them unless it is the end of the file. -/
structure PageAt (lines : List (List Char)) (k shown : Nat) (page : Page) : Prop where
  shown_pos : 0 < shown
  within : k + shown ≤ lines.length
  content : page.content = joinLines ((lines.drop k).take shown)
  last : k + shown = lines.length → page.notice = none
  next : k + shown < lines.length → ∃ said, page.notice = some ⟨said, .finite ((k + shown + 1 : Nat) : ℤ)⟩

/-- What `read` is promised for pages: a file that doubles can count the lines
of, none of which alone exceeds the ceiling. -/
structure Pageable (lines : List (List Char)) : Prop where
  countable : lines.length < 2 ^ 53
  fits : ∀ line ∈ lines, utf8Len line ≤ DEFAULT_MAX_BYTES

/-- The notice of a cut names the line behind the ones shown. -/
theorem truncatedNotice_next {f : ReadFunctions} {total k : Nat} {t : Truncation} (hshown : 0 < t.outputLines)
    (hk : k + t.outputLines + 1 < 2 ^ 53) :
    (truncatedNotice f total (.finite ((k + 1 : Nat) : ℤ)) t).next = .finite ((k + t.outputLines + 1 : Nat) : ℤ) := by
  have hone : (Binary64.finite 1) = .finite ((1 : Nat) : ℤ) := by
    push_cast
    rfl
  show (((Binary64.finite ((k + 1 : Nat) : ℤ)).add (Binary64.ofInt t.outputLines)).sub (.finite 1)).add (.finite 1) = _
  rw [ofInt_nat (by omega), add_nat (by omega), hone, sub_nat (by omega) (by omega), add_nat (by omega)]
  congr 3
  omega

theorem limitNotice_next {f : ReadFunctions} {total k e : Nat} (hke : k ≤ e) (he : e + 1 < 2 ^ 53) :
    (limitNotice f total (.finite (k : ℤ)) (.finite ((e - k : Nat) : ℤ))).next = .finite ((e + 1 : Nat) : ℤ) := by
  have hone : (Binary64.finite 1) = .finite ((1 : Nat) : ℤ) := by
    push_cast
    rfl
  simp only [limitNotice]
  rw [add_nat (by omega), Nat.add_sub_cancel' hke, hone, add_nat he]

/-- The page at a line of the file. -/
theorem readPage_spec (h : Pageable (fileLines data)) (path : List Char) {k : Nat}
    (hk : k < (fileLines data).length) {offset limit : Option Binary64} (hoffset : NamesLine k offset)
    (hlimit : PositiveLimit limit) :
    ∃ page shown, readPage (readFunctions shortest) data path offset limit = .ok page ∧
      PageAt (fileLines data) k shown page := by
  have hcount := h.countable
  have hstart : startLine (readFunctions shortest) offset = .finite (k : ℤ) := startLine_names (by omega) hoffset
  obtain ⟨e, hke, hel, hselected, hend, hall⟩ :=
    @selectedLines_names shortest _ _ hk (by omega) _ _ hoffset hlimit
  have hlength : ((fileLines data).drop k |>.take (e - k)).length = e - k :=
    List.length_take_of_le (by rw [List.length_drop]; omega)
  have hsub : ((fileLines data).drop k |>.take (e - k)).Sublist (fileLines data) :=
    (List.take_sublist _ _).trans (List.drop_sublist _ _)
  have hlines : AreLines ((fileLines data).drop k |>.take (e - k)) := by
    refine (fileLines_areLines data).sublist hsub fun hnil => ?_
    rw [hnil] at hlength
    simp only [List.length_nil] at hlength
    omega
  have hshows := @truncateHead_joinLines DEFAULT_MAX_LINES DEFAULT_MAX_BYTES _ hlines (by decide)
    fun line hline => h.fits line (hsub.subset hline)
  have hcut : (readFunctions shortest).truncateHead (joinLines ((fileLines data).drop k |>.take (e - k))) =
      Rust.truncateHead DEFAULT_MAX_LINES DEFAULT_MAX_BYTES (joinLines ((fileLines data).drop k |>.take (e - k))) :=
    truncateHead_agrees _
  have hbeyond : ¬ (Binary64.ofInt (fileLines data).length).le (.finite (k : ℤ)) = true := by
    rw [ofInt_nat (by omega), Binary64.le_finite, decide_eq_true_eq, not_le]
    exact_mod_cast hk
  have hdisplay : (Binary64.finite (k : ℤ)).add (.finite 1) = .finite ((k + 1 : Nat) : ℤ) := by
    have hadd := add_nat (show k + 1 < 2 ^ 53 by omega)
    push_cast at hadd ⊢
    exact hadd
  simp only [readPage, hstart, hselected, hcut, hdisplay]
  generalize Rust.truncateHead DEFAULT_MAX_LINES DEFAULT_MAX_BYTES
    (joinLines ((fileLines data).drop k |>.take (e - k))) = t at hshows
  rw [if_neg hbeyond, if_neg (by rw [hshows.fits]; exact Bool.false_ne_true)]
  by_cases htruncated : t.truncated = true
  · -- cut by a ceiling: the lines kept are fewer than those selected
    obtain ⟨hpos, hlt, hcontent⟩ := hshows.part htruncated
    rw [hlength] at hlt
    rw [if_pos htruncated]
    refine ⟨_, t.outputLines, rfl, hpos, by omega, ?_, fun heq => by omega, fun _ => ?_⟩
    · rw [hcontent, List.take_take, Nat.min_eq_left hlt.le]
    · refine ⟨(truncatedNotice (readFunctions shortest) (fileLines data).length (.finite ((k + 1 : Nat) : ℤ))
        t).said, ?_⟩
      rw [← @truncatedNotice_next (readFunctions shortest) (fileLines data).length _ _ hpos (by omega)]
  · have hcontent := hshows.whole (Bool.eq_false_iff.mpr htruncated)
    rw [if_neg htruncated, hend]
    cases limit with
    | none =>
      have he : e = (fileLines data).length := hall rfl
      exact ⟨_, e - k, rfl, by omega, by omega, hcontent, fun _ => rfl, fun hlt => by omega⟩
    | some limit =>
      simp only [Option.map_some]
      rw [sub_nat hke.le (by omega), add_nat (by omega), Nat.add_sub_cancel' hke.le, ofInt_nat (by omega),
        Binary64.lt_finite]
      by_cases hmore : e < (fileLines data).length
      · -- cut by the limit: the notice names the line behind the selected ones
        rw [if_pos (by rw [decide_eq_true_eq]; exact_mod_cast hmore)]
        refine ⟨_, e - k, rfl, by omega, by omega, hcontent, fun heq => by omega, fun _ => ?_⟩
        refine ⟨(limitNotice (readFunctions shortest) (fileLines data).length (.finite (k : ℤ))
          (.finite ((e - k : Nat) : ℤ))).said, ?_⟩
        have hnext := @limitNotice_next (readFunctions shortest) (fileLines data).length k e hke.le (by omega)
        rw [show k + (e - k) + 1 = e + 1 by omega, ← hnext]
      · rw [if_neg (by rw [decide_eq_true_eq]; exact_mod_cast hmore)]
        exact ⟨_, e - k, rfl, by omega, by omega, hcontent, fun _ => rfl, fun hlt => by omega⟩

/-! ## Reading on -/

/-- The pages from a line to the end of the file. -/
inductive PagesFrom (lines : List (List Char)) : Nat → List Page → Prop
  | last {k shown : Nat} {page : Page} (h : PageAt lines k shown page) (hend : k + shown = lines.length) :
    PagesFrom lines k [page]
  | next {k shown : Nat} {page : Page} {pages : List Page} (h : PageAt lines k shown page)
    (hmore : k + shown < lines.length) (hpages : PagesFrom lines (k + shown) pages) : PagesFrom lines k (page :: pages)

/-- Reading on from a line ends, with the pages from there. -/
theorem readNext_returns (h : Pageable (fileLines data)) (path : List Char) {limits : Nat → Option Binary64}
    (hlimits : ∀ i, PositiveLimit (limits i)) (k : Nat) (hk : k < (fileLines data).length) (r : Reading)
    (hoffset : NamesLine k r.offset) :
    ∃ pages, Loop.Returns (readNext (readFunctions shortest) data path limits) r (.ok (r.pages ++ pages)) ∧
      PagesFrom (fileLines data) k pages := by
  obtain ⟨page, shown, hread, hpage⟩ := @readPage_spec shortest data h path k hk _ _ hoffset (hlimits r.turn)
  rcases Nat.lt_or_eq_of_le hpage.within with hmore | hend
  · obtain ⟨said, hnotice⟩ := hpage.next hmore
    let r' : Reading :=
      { offset := some (.finite ((k + shown + 1 : Nat) : ℤ)), turn := r.turn + 1, pages := r.pages ++ [page] }
    have hturn : readNext (readFunctions shortest) data path limits r = .inl r' := by
      unfold readNext
      rw [hread]
      simp only [hnotice, r']
    have hshown := hpage.shown_pos
    obtain ⟨pages, hreturns, hpages⟩ := readNext_returns h path hlimits (k + shown) hmore r' rfl
    refine ⟨page :: pages, ?_, PagesFrom.next hpage hmore hpages⟩
    have hlist : r'.pages ++ pages = r.pages ++ page :: pages := by simp [r']
    rw [← hlist]
    exact (Loop.Reaches.single hturn).returns hreturns
  · have hturn : readNext (readFunctions shortest) data path limits r = .inr (.ok (r.pages ++ [page])) := by
      unfold readNext
      rw [hread]
      simp only [hpage.last hend]
    exact ⟨[page], Loop.Returns.of_inr hturn, PagesFrom.last hpage hend⟩
termination_by (fileLines data).length - k

/-! ## What the pages hold -/

namespace PagesFrom

variable {lines : List (List Char)} {k : Nat} {pages : List Page}

theorem ne_nil (h : PagesFrom lines k pages) : pages ≠ [] := by
  cases h <;> exact List.cons_ne_nil _ _

theorem contents (h : PagesFrom lines k pages) : joinLines (pages.map Page.content) = joinLines (lines.drop k) := by
  induction h with
  | last h hend =>
    rw [List.map_singleton, h.content, List.take_of_length_le (by rw [List.length_drop]; omega)]
    simp [joinLines]
  | @next k shown page pages h hmore hpages ih =>
    have hshown : (lines.drop k).take shown ≠ [] := by
      rw [ne_eq, List.take_eq_nil_iff, List.drop_eq_nil_iff]
      have hpos := h.shown_pos
      omega
    have hrest : (lines.drop k).drop shown ≠ [] := by
      rw [List.drop_drop, ne_eq, List.drop_eq_nil_iff]
      omega
    have hpage : joinLines (page.content :: pages.map Page.content) =
        page.content ++ '\n' :: joinLines (pages.map Page.content) := by
      have hne : pages.map Page.content ≠ [] := by simpa using hpages.ne_nil
      simp [joinLines, List.intercalate_cons_of_ne_nil hne]
    calc
      joinLines ((page :: pages).map Page.content)
        = joinLines ((lines.drop k).take shown) ++ '\n' :: joinLines ((lines.drop k).drop shown) := by
          rw [List.map_cons, hpage, ih, h.content, List.drop_drop]
      _ = joinLines (lines.drop k) := by rw [← joinLines_append hshown hrest, List.take_append_drop]

/-- The offsets that the notices name. -/
abbrev offsets (pages : List Page) : List Binary64 := pages.filterMap fun page => page.notice.map Notice.next

theorem offsets_gt (h : PagesFrom lines k pages) :
    ∀ offset ∈ offsets pages, ∃ i : Nat, k + 1 < i ∧ offset = .finite (i : ℤ) := by
  induction h with
  | last h hend => simp [h.last hend]
  | @next k shown page pages h hmore hpages ih =>
    have hpos := h.shown_pos
    obtain ⟨said, hnotice⟩ := h.next hmore
    intro offset hmem
    simp only [offsets, List.filterMap_cons, hnotice, Option.map_some, List.mem_cons] at hmem
    cases hmem with
    | inl heq => exact ⟨k + shown + 1, by omega, heq⟩
    | inr hmem =>
      obtain ⟨i, hi, heq⟩ := ih offset hmem
      exact ⟨i, by omega, heq⟩

theorem offsets_increasing (h : PagesFrom lines k pages) :
    (offsets pages).Pairwise fun a b => a.lt b = true := by
  induction h with
  | last h hend => simp [h.last hend]
  | @next k shown page pages h hmore hpages ih =>
    obtain ⟨said, hnotice⟩ := h.next hmore
    simp only [offsets, List.filterMap_cons, hnotice, Option.map_some, List.pairwise_cons]
    refine ⟨fun offset hmem => ?_, ih⟩
    obtain ⟨i, hi, rfl⟩ := hpages.offsets_gt offset hmem
    rw [Binary64.lt_finite, decide_eq_true_eq]
    exact_mod_cast hi

theorem notices (h : PagesFrom lines k pages) :
    ∃ before page, pages = before ++ [page] ∧ page.notice = none ∧ ∀ earlier ∈ before, earlier.notice ≠ none := by
  induction h with
  | @last k shown page h hend => exact ⟨[], page, rfl, h.last hend, fun _ hmem => by cases hmem⟩
  | @next k shown page pages h hmore hpages ih =>
    obtain ⟨before, final, rfl, hfinal, hbefore⟩ := ih
    obtain ⟨said, hnotice⟩ := h.next hmore
    refine ⟨page :: before, final, rfl, hfinal, fun earlier hmem => ?_⟩
    cases List.mem_cons.mp hmem with
    | inl heq =>
      rw [heq, hnotice]
      exact Option.some_ne_none _
    | inr hmem => exact hbefore earlier hmem

end PagesFrom

/-- Pages that give a file without loss. -/
structure Lossless (data : List UInt8) (pages : List Page) : Prop where
  whole : joinLines (pages.map Page.content) = decodeUtf8 data
  increasing : (PagesFrom.offsets pages).Pairwise fun a b => a.lt b = true
  ends : ∃ before page, pages = before ++ [page] ∧ page.notice = none ∧ ∀ earlier ∈ before, earlier.notice ≠ none

theorem PagesFrom.lossless {pages : List Page} (h : PagesFrom (fileLines data) 0 pages) : Lossless data pages := by
  refine ⟨?_, h.offsets_increasing, h.notices⟩
  rw [h.contents, List.drop_zero]
  exact List.intercalate_splitOn '\n'

/-- Whatever the limits, reading on from the start ends with all of the file. -/
def ReadsAll (f : ReadFunctions) (data : List UInt8) (path : List Char) : Prop :=
  ∀ limits : Nat → Option Binary64, (∀ i, PositiveLimit (limits i)) →
    ∃ pages, Loop.Returns (readNext f data path limits) { offset := none, turn := 0, pages := [] } (.ok pages) ∧
      Lossless data pages

theorem python_readsAll (h : Pageable (fileLines data)) (path : List Char) :
    ReadsAll (readFunctions shortest) data path := by
  intro limits hlimits
  have hpos : 0 < (fileLines data).length := List.length_pos_iff.mpr (fileLines_areLines data).ne_nil
  obtain ⟨pages, hreturns, hpages⟩ :=
    @readNext_returns shortest data h path limits hlimits 0 hpos { offset := none, turn := 0, pages := [] } rfl
  exact ⟨pages, hreturns, hpages.lossless⟩

/-- Without a long line the bindings read the same pages. -/
theorem readNext_eq {ryu : ℚ → List Char} (hryu : WritesEcma shortest ryu) (h : Pageable (fileLines data))
    (path : List Char) (limits : Nat → Option Binary64) :
    readNext (Rust.readFunctions ryu) data path limits = readNext (readFunctions shortest) data path limits := by
  funext r
  have hnone : ∀ line, ¬ ShowsLine (readFunctions shortest) data r.offset (limits r.turn) line := by
    intro line hline
    obtain ⟨hat, hne, hlong⟩ := (showsLine_iff h.countable).mp hline
    obtain ⟨rest, hselected⟩ := selectedLines_cons hat hne
    have hmem : line ∈ fileLines data := by
      have hsub : (line :: rest).Sublist (fileLines data) := hselected ▸ jsSlice_sublist _ _ _
      exact hsub.subset List.mem_cons_self
    exact absurd (h.fits line hmem) (by omega)
  unfold readNext
  rw [(agreeOn hryu h.countable).readPage_eq path hnone]

/-! ## Both bindings -/

/-- A page that shows the size of a line where the bindings round it apart. -/
def ShowsTiedLine (shortest : Shortest) (data : List UInt8) (offset limit : Option Binary64) : Prop :=
  ∃ line, lineAt (fileLines data) (startLine (readFunctions shortest) offset) = some line ∧
    selectedLines (readFunctions shortest) (fileLines data) offset limit ≠ [] ∧
    DEFAULT_MAX_BYTES < utf8Len line ∧ TiedSize (utf8Len line)

theorem readText_eq_iff {ryu : ℚ → List Char} (hryu : WritesEcma shortest ryu)
    (hcount : (fileLines data).length < 2 ^ 53) (path : List Char) (offset limit : Option Binary64) :
    Python.text shortest data path offset limit = Rust.readText ryu data path offset limit ↔
      ¬ ShowsTiedLine shortest data offset limit := by
  have hagree := (agreeOn hryu hcount).readTextBy_eq_iff path offset limit
  rw [Python.text, Rust.readText, eq_comm, hagree]
  constructor
  · rintro hsizes ⟨line, hat, hne, hlong, htied⟩
    have hsize := hsizes line ((showsLine_iff hcount).mpr ⟨hat, hne, hlong⟩)
    exact (formatSize_eq_iff (utf8Len line)).mp hsize.symm htied
  · intro hfree line hline
    obtain ⟨hat, hne, hlong⟩ := (showsLine_iff hcount).mp hline
    exact ((formatSize_eq_iff (utf8Len line)).mpr fun htied => hfree ⟨line, hat, hne, hlong, htied⟩).symm

/-- Paged reading is lossless in both bindings, and the bindings read the same
but for the size of a line that is shown. -/
theorem paged_reading {shortest : Shortest} {ryu : ℚ → List Char} (hryu : WritesEcma shortest ryu) {data : List UInt8}
    (hcount : (fileLines data).length < 2 ^ 53) (path : List Char) :
    ((∀ line ∈ fileLines data, utf8Len line ≤ DEFAULT_MAX_BYTES) →
      ReadsAll (Python.readFunctions shortest) data path ∧ ReadsAll (Rust.readFunctions ryu) data path) ∧
    ∀ offset limit, Python.text shortest data path offset limit = Rust.readText ryu data path offset limit ↔
      ¬ ShowsTiedLine shortest data offset limit := by
  refine ⟨fun hfits => ?_, readText_eq_iff hryu hcount path⟩
  have hpageable : Pageable (fileLines data) := ⟨hcount, hfits⟩
  have hpython := @python_readsAll shortest data hpageable path
  refine ⟨hpython, fun limits hlimits => ?_⟩
  rw [readNext_eq hryu hpageable path limits]
  exact hpython limits hlimits

/-- The digits of a whole number that does not end in a zero. -/
def wholeDigits : Shortest := fun q => (Ecma.natText ⌊q⌋.toNat, 0)

/-- What ECMAScript writes with some digits. -/
def ecmaText (shortest : Shortest) (q : ℚ) : List Char :=
  (if q < 0 then ['-'] else []) ++ Ecma.toText (shortest |q|).1 ((shortest |q|).2 + (shortest |q|).1.length)

theorem writesEcma_ecmaText (shortest : Shortest) : WritesEcma shortest (ecmaText shortest) := fun _ _ => rfl

/-- Three lines, the last of them empty. -/
theorem paged_reading_lines :
    (ReadsAll (Python.readFunctions wholeDigits) [0x61, 0x0A, 0x62, 0x0A] "f".toList ∧
      ReadsAll (Rust.readFunctions (ecmaText wholeDigits)) [0x61, 0x0A, 0x62, 0x0A] "f".toList) ∧
    ∀ offset limit, Python.text wholeDigits [0x61, 0x0A, 0x62, 0x0A] "f".toList offset limit =
        Rust.readText (ecmaText wholeDigits) [0x61, 0x0A, 0x62, 0x0A] "f".toList offset limit ↔
      ¬ ShowsTiedLine wholeDigits [0x61, 0x0A, 0x62, 0x0A] offset limit := by
  have hlines : fileLines [0x61, 0x0A, 0x62, 0x0A] = [['a'], ['b'], []] := by decide +kernel
  have hcount : (fileLines [0x61, 0x0A, 0x62, 0x0A]).length < 2 ^ 53 := by
    rw [hlines]
    decide
  obtain ⟨hreads, hagree⟩ := paged_reading (writesEcma_ecmaText wholeDigits) hcount "f".toList
  refine ⟨hreads ?_, hagree⟩
  rw [hlines]
  decide

theorem feed_ascii (n : Nat) : Utf8Decoder.feed {} (List.replicate n 0x61) = (List.replicate n 'a', {}) := by
  induction n with
  | zero => rfl
  | succ n ih =>
    have hstep : Utf8Decoder.step {} 0x61 = (['a'], {}) := by decide
    rw [List.replicate_succ, Utf8Decoder.feed, hstep, ih]
    rfl

theorem fileLines_ascii (n : Nat) : fileLines (List.replicate n 0x61) = [List.replicate n 'a'] := by
  have hdecode : decodeUtf8 (List.replicate n 0x61) = List.replicate n 'a' := by
    rw [decodeUtf8, feed_ascii]
    exact List.append_nil _
  rw [fileLines, hdecode]
  exact List.splitOn_eq_singleton fun hmem => absurd (List.eq_of_mem_replicate hmem) (by decide)

theorem utf8Len_ascii (n : Nat) : utf8Len (List.replicate n 'a') = n := by
  induction n with
  | zero => rfl
  | succ n ih =>
    have hsize : 'a'.utf8Size = 1 := by decide
    rw [List.replicate_succ, utf8Len_cons, ih, hsize]
    omega

/-- A line of a quarter more than 50 KiB: its size is `50.3KB` in one binding, `50.2KB` in the other. -/
theorem texts_differ :
    WritesEcma wholeDigits (ecmaText wholeDigits) ∧
      Python.text wholeDigits (List.replicate 51456 0x61) "f".toList none none ≠
        Rust.readText (ecmaText wholeDigits) (List.replicate 51456 0x61) "f".toList none none := by
  refine ⟨writesEcma_ecmaText wholeDigits, ?_⟩
  have hlines := fileLines_ascii 51456
  have hlen := utf8Len_ascii 51456
  have hcount : (fileLines (List.replicate 51456 0x61)).length < 2 ^ 53 := by
    rw [hlines]
    decide
  rw [ne_eq, readText_eq_iff (writesEcma_ecmaText wholeDigits) hcount, not_not]
  refine ⟨List.replicate 51456 'a', ?_, ?_, ?_, ?_⟩
  · rw [hlines]
    rfl
  · rw [hlines]
    exact List.cons_ne_nil _ _
  · rw [hlen]
    decide
  · rw [hlen]
    decide

end MinionAgent
