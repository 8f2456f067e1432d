import Mathlib.Data.List.Forall2
import Mathlib.Data.List.Infix

/-!
# MinionAgent.Library.Obligation

Sequences in which some elements raise obligations and later ones meet them.

An obligation raised by an element has to be met within the run of meeting
elements that directly follows it.  `discharge` is the pass that inserts an
answer for every obligation still open where such a run ends; it also drops
the elements marked `discards`.

* `closed_discharge` — after the pass every obligation is met in time;
* `padded_discharge` — the pass only inserts answers: everything else is the
  input without its discarded elements, in order;
* `discharge_of_closed` — where all obligations are met the pass inserts
  nothing.
-/

namespace Obligation

/-- What an element does to the open obligations. -/
inductive Event (κ ι : Type)
  | raises (ks : List κ)
  | meets (i : ι)
  | interrupts
  | discards

/-- The obligations an event raises. -/
def Event.raised {κ ι : Type} : Event κ ι → List κ
  | .raises ks => ks
  | _ => []

/-- Whether an event meets an obligation. -/
def Event.isMeeting {κ ι : Type} : Event κ ι → Bool
  | .meets _ => true
  | _ => false

/-- Whether an event's element is dropped. -/
def Event.isDiscarded {κ ι : Type} : Event κ ι → Bool
  | .discards => true
  | _ => false

/-! ## Insertion -/

/-- `Padded P xs ys`: `ys` is `xs` with elements satisfying `P` inserted. -/
inductive Padded {α : Type} (P : α → Prop) : List α → List α → Prop
  | nil : Padded P [] []
  | keep {x : α} {xs ys : List α} (h : Padded P xs ys) : Padded P (x :: xs) (x :: ys)
  | insert {y : α} {xs ys : List α} (hy : P y) (h : Padded P xs ys) : Padded P xs (y :: ys)

namespace Padded

variable {α : Type} {P : α → Prop}

theorem sublist {xs ys : List α} (h : Padded P xs ys) : xs.Sublist ys := by
  induction h with
  | nil => exact .slnil
  | keep _ ih => exact ih.cons_cons _
  | insert _ _ ih => exact ih.cons _

theorem insert_all {zs xs ys : List α} (hz : ∀ z ∈ zs, P z) (h : Padded P xs ys) : Padded P xs (zs ++ ys) := by
  induction zs with
  | nil => exact h
  | cons z zs ih =>
    exact .insert (hz z (by simp)) (ih fun w hw => hz w (by simp [hw]))

theorem mono {Q : α → Prop} (hPQ : ∀ y, P y → Q y) {xs ys : List α} (h : Padded P xs ys) : Padded Q xs ys := by
  induction h with
  | nil => exact .nil
  | keep _ ih => exact .keep ih
  | insert hy _ ih => exact .insert (hPQ _ hy) ih

/-- Every element of the padded list is an original or an inserted one. -/
theorem mem {xs ys : List α} (h : Padded P xs ys) {y : α} (hy : y ∈ ys) : y ∈ xs ∨ P y := by
  induction h with
  | nil => simp at hy
  | keep _ ih => grind
  | insert hP _ ih => grind

end Padded

section

variable {α κ ι : Type} (classify : α → Event κ ι) (key : κ → ι) (answer : Nat → κ → α)

/-! ## Obligations met in time -/

/-- `post` meets obligation `k` before its run of meeting elements ends. -/
def Met (k : κ) (post : List α) : Prop :=
  ∃ y ∈ post.takeWhile fun y => (classify y).isMeeting, classify y = .meets (key k)

/-- Every obligation raised in `xs` is met directly after it. -/
def Closed (xs : List α) : Prop :=
  ∀ x post, (x :: post) <:+ xs → ∀ k ∈ (classify x).raised, Met classify key k post

theorem met_cons_of_meets {k : κ} {x : α} {post : List α} {i : ι} (hx : classify x = .meets i) :
    Met classify key k (x :: post) ↔ i = key k ∨ Met classify key k post := by
  simp only [Met, List.takeWhile_cons, hx, Event.isMeeting, if_true]
  grind

theorem not_met_of_not_isMeeting {k : κ} {x : α} {post : List α} (hx : (classify x).isMeeting = false) :
    ¬ Met classify key k (x :: post) := by
  simp [Met, hx]

theorem closed_nil : Closed classify key ([] : List α) := by
  intro x post h
  simp at h

theorem closed_cons {x : α} {xs : List α} :
    Closed classify key (x :: xs) ↔
      (∀ k ∈ (classify x).raised, Met classify key k xs) ∧ Closed classify key xs := by
  constructor
  · intro h
    exact ⟨h x xs (List.suffix_refl _), fun y post hpost => h y post (hpost.trans (List.suffix_cons _ _))⟩
  · rintro ⟨hx, hxs⟩ y post hpost
    rcases List.suffix_cons_iff.mp hpost with heq | hsuffix
    · obtain ⟨rfl, rfl⟩ := List.cons_eq_cons.mp heq
      exact hx
    · exact hxs y post hsuffix

/-! ## Answers -/

/-- Answers for `ks`, numbered from `n` on. -/
def answers (n : Nat) (ks : List κ) : List α := ks.mapIdx fun i k => answer (n + i) k

@[simp] theorem answers_nil (n : Nat) : answers answer n [] = [] := rfl

theorem answers_cons (n : Nat) (k : κ) (ks : List κ) :
    answers answer n (k :: ks) = answer n k :: answers answer (n + 1) ks := by
  simp only [answers, List.mapIdx_cons, Nat.add_zero]
  congr 1
  exact List.mapIdx_eq_mapIdx_iff.mpr fun i _ => by rw [Nat.add_right_comm, Nat.add_assoc]

variable {classify key answer}

/-- Answers meet the obligations they are inserted for. -/
theorem met_answers_append (hanswer : ∀ n k, classify (answer n k) = .meets (key k)) {ks : List κ} {k : κ}
    (hk : k ∈ ks) (n : Nat) (post : List α) : Met classify key k (answers answer n ks ++ post) := by
  obtain ⟨i, hi, rfl⟩ := List.getElem_of_mem hk
  have hall : ∀ y ∈ answers answer n ks, (classify y).isMeeting = true := by
    intro y hy
    obtain ⟨j, hj, rfl⟩ := List.mem_mapIdx.mp hy
    simp [hanswer, Event.isMeeting]
  refine ⟨answer (n + i) ks[i], ?_, hanswer _ _⟩
  rw [List.takeWhile_append_of_pos hall]
  exact List.mem_append_left _ (List.mem_mapIdx.mpr ⟨i, hi, rfl⟩)

/-- Answers raise nothing, so a closed list stays closed behind them. -/
theorem closed_answers_append (hanswer : ∀ n k, classify (answer n k) = .meets (key k)) (n : Nat) (ks : List κ)
    {post : List α} (h : Closed classify key post) : Closed classify key (answers answer n ks ++ post) := by
  induction ks generalizing n with
  | nil => exact h
  | cons k ks ih =>
    rw [answers_cons, List.cons_append, closed_cons]
    exact ⟨by simp [hanswer, Event.raised], ih (n + 1)⟩

end

section

variable {α κ ι : Type} [DecidableEq ι]
variable (classify : α → Event κ ι) (key : κ → ι) (answer : Nat → κ → α)

/-! ## The pass -/

/-- The open obligations: pending ones whose key has not been met. -/
def unmet (pending : List κ) (met : List ι) : List κ := pending.filter fun k => key k ∉ met

/-- Insert an answer for every open obligation before the next element that
ends the run of meeting elements, and at the end of the list. -/
def discharge : Nat → List κ → List ι → List α → List α
  | n, pending, met, [] => answers answer n (unmet key pending met)
  | n, pending, met, x :: xs =>
    let opened := unmet key pending met
    let flushed := answers answer n opened
    match classify x with
    | .raises ks => flushed ++ x :: discharge (n + opened.length) ks [] xs
    | .meets i => x :: discharge n pending (i :: met) xs
    | .interrupts => flushed ++ x :: discharge (n + opened.length) [] [] xs
    | .discards => flushed ++ discharge (n + opened.length) [] [] xs

variable {classify key answer}

/-! ## What holds after the pass -/

theorem mem_unmet {pending : List κ} {met : List ι} {k : κ} :
    k ∈ unmet key pending met ↔ k ∈ pending ∧ key k ∉ met := by
  simp [unmet]

/-- After the pass every obligation is met: those raised in the list, and the
pending ones that had not been met before it. -/
theorem closed_and_met_discharge (hanswer : ∀ n k, classify (answer n k) = .meets (key k)) (xs : List α)
    (n : Nat) (pending : List κ) (met : List ι) :
    Closed classify key (discharge classify key answer n pending met xs) ∧
      ∀ k ∈ unmet key pending met, Met classify key k (discharge classify key answer n pending met xs) := by
  induction xs generalizing n pending met with
  | nil =>
    simp only [discharge]
    rw [← List.append_nil (answers answer n _)]
    exact ⟨closed_answers_append hanswer n _ (closed_nil classify key),
      fun k hk => met_answers_append hanswer hk n []⟩
  | cons x xs ih =>
    simp only [discharge]
    cases hx : classify x with
    | raises ks =>
      refine ⟨closed_answers_append hanswer n _ ((closed_cons classify key).mpr ⟨?_, (ih _ ks []).1⟩),
        fun k hk => met_answers_append hanswer hk n _⟩
      intro k hk
      rw [hx] at hk
      exact (ih _ ks []).2 k (mem_unmet.mpr ⟨hk, by simp⟩)
    | meets i =>
      refine ⟨(closed_cons classify key).mpr ⟨by simp [hx, Event.raised], (ih n pending (i :: met)).1⟩, ?_⟩
      intro k hk
      rw [met_cons_of_meets classify key hx]
      by_cases hik : i = key k
      · exact .inl hik
      · have hopen : k ∈ unmet key pending (i :: met) := by
          obtain ⟨hpending, hmet⟩ := mem_unmet.mp hk
          exact mem_unmet.mpr ⟨hpending, by simp [hmet, Ne.symm hik]⟩
        exact .inr ((ih n pending (i :: met)).2 k hopen)
    | interrupts =>
      refine ⟨closed_answers_append hanswer n _ ((closed_cons classify key).mpr ⟨?_, (ih _ [] []).1⟩),
        fun k hk => met_answers_append hanswer hk n _⟩
      simp [hx, Event.raised]
    | discards =>
      exact ⟨closed_answers_append hanswer n _ (ih _ [] []).1, fun k hk => met_answers_append hanswer hk n _⟩

/-- After the pass every obligation is met directly after it was raised. -/
theorem closed_discharge (hanswer : ∀ n k, classify (answer n k) = .meets (key k)) (xs : List α) :
    Closed classify key (discharge classify key answer 0 [] [] xs) :=
  (closed_and_met_discharge hanswer xs 0 [] []).1

/-- The pass keeps the input without its discarded elements and only inserts
answers. -/
theorem padded_discharge (xs : List α) (n : Nat) (pending : List κ) (met : List ι) :
    Padded (fun y => ∃ m k, y = answer m k) (xs.filter fun x => !(classify x).isDiscarded)
      (discharge classify key answer n pending met xs) := by
  have hanswers : ∀ n (ks : List κ), ∀ y ∈ answers answer n ks, ∃ m k, y = answer m k := by
    intro n ks y hy
    obtain ⟨i, hi, rfl⟩ := List.mem_mapIdx.mp hy
    exact ⟨n + i, ks[i], rfl⟩
  induction xs generalizing n pending met with
  | nil =>
    simp only [discharge, List.filter_nil]
    rw [← List.append_nil (answers answer n _)]
    exact Padded.insert_all (hanswers n _) .nil
  | cons x xs ih =>
    simp only [discharge]
    cases hx : classify x with
    | raises ks =>
      rw [List.filter_cons_of_pos (by simp [hx, Event.isDiscarded])]
      exact Padded.insert_all (hanswers n _) (.keep (ih _ _ _))
    | meets i =>
      rw [List.filter_cons_of_pos (by simp [hx, Event.isDiscarded])]
      exact .keep (ih _ _ _)
    | interrupts =>
      rw [List.filter_cons_of_pos (by simp [hx, Event.isDiscarded])]
      exact Padded.insert_all (hanswers n _) (.keep (ih _ _ _))
    | discards =>
      rw [List.filter_cons_of_neg (by simp [hx, Event.isDiscarded])]
      exact Padded.insert_all (hanswers n _) (ih _ _ _)

/-- Where every obligation is met already, the pass only drops what it
discards. -/
theorem discharge_of_closed (xs : List α) (n : Nat) (pending : List κ) (met : List ι)
    (hclosed : Closed classify key xs) (hmet : ∀ k ∈ unmet key pending met, Met classify key k xs) :
    discharge classify key answer n pending met xs = xs.filter fun x => !(classify x).isDiscarded := by
  have hnone : ∀ x, (classify x).isMeeting = false → ∀ (post : List α) (pending : List κ) (met : List ι),
      (∀ k ∈ unmet key pending met, Met classify key k (x :: post)) → unmet key pending met = [] := by
    intro x hx post pending met hall
    rw [List.eq_nil_iff_forall_not_mem]
    exact fun k hk => not_met_of_not_isMeeting classify key hx (hall k hk)
  induction xs generalizing n pending met with
  | nil =>
    have hnil : unmet key pending met = [] := by
      rw [List.eq_nil_iff_forall_not_mem]
      intro k hk
      simpa [Met] using hmet k hk
    simp [discharge, hnil]
  | cons x xs ih =>
    obtain ⟨hraised, hrest⟩ := (closed_cons classify key).mp hclosed
    simp only [discharge]
    cases hx : classify x with
    | raises ks =>
      have hopen : ∀ k ∈ unmet key ks [], Met classify key k xs := fun k hk =>
        hraised k (by rw [hx]; exact (mem_unmet.mp hk).1)
      simp only [hnone x (by simp [hx, Event.isMeeting]) xs pending met hmet]
      rw [List.filter_cons_of_pos (by simp [hx, Event.isDiscarded])]
      simp [ih _ ks [] hrest hopen]
    | meets i =>
      have hopen : ∀ k ∈ unmet key pending (i :: met), Met classify key k xs := by
        intro k hk
        obtain ⟨hpending, hnot⟩ := mem_unmet.mp hk
        simp only [List.mem_cons, not_or] at hnot
        rcases (met_cons_of_meets classify key hx).mp (hmet k (mem_unmet.mpr ⟨hpending, hnot.2⟩)) with h | h
        · exact absurd h.symm hnot.1
        · exact h
      rw [List.filter_cons_of_pos (by simp [hx, Event.isDiscarded])]
      simp only [ih n pending (i :: met) hrest hopen]
    | interrupts =>
      simp only [hnone x (by simp [hx, Event.isMeeting]) xs pending met hmet]
      rw [List.filter_cons_of_pos (by simp [hx, Event.isDiscarded])]
      simp [ih _ [] [] hrest (by simp [unmet])]
    | discards =>
      simp only [hnone x (by simp [hx, Event.isMeeting]) xs pending met hmet]
      rw [List.filter_cons_of_neg (by simp [hx, Event.isDiscarded])]
      simp [ih _ [] [] hrest (by simp [unmet])]

/-- The pass reads discarded elements only as such, and its output varies only
in the answers. -/
theorem forall₂_discharge {answer' : Nat → κ → α} {R : α → α → Prop} (hself : ∀ x, R x x)
    (hanswer : ∀ n k, R (answer n k) (answer' n k)) {xs ys : List α}
    (h : List.Forall₂ (fun x y => x = y ∨ classify x = .discards ∧ classify y = .discards) xs ys)
    (n : Nat) (pending : List κ) (met : List ι) :
    List.Forall₂ R (discharge classify key answer n pending met xs)
      (discharge classify key answer' n pending met ys) := by
  have hanswers : ∀ (ks : List κ) (n : Nat), List.Forall₂ R (answers answer n ks) (answers answer' n ks) := by
    intro ks
    induction ks with
    | nil => exact fun _ => .nil
    | cons k ks ih =>
      intro n
      rw [answers_cons, answers_cons]
      exact .cons (hanswer n k) (ih (n + 1))
  have happend : ∀ {as bs cs ds : List α}, List.Forall₂ R as bs → List.Forall₂ R cs ds →
      List.Forall₂ R (as ++ cs) (bs ++ ds) := fun h₁ h₂ => List.rel_append h₁ h₂
  induction h generalizing n pending met with
  | nil => exact hanswers _ n
  | @cons x y xs ys hxy _ ih =>
    rcases hxy with rfl | ⟨hx, hy⟩
    · simp only [discharge]
      cases classify x with
      | raises ks => exact happend (hanswers _ n) (.cons (hself x) (ih _ ks []))
      | meets i => exact .cons (hself x) (ih n pending (i :: met))
      | interrupts => exact happend (hanswers _ n) (.cons (hself x) (ih _ [] []))
      | discards => exact happend (hanswers _ n) (ih _ [] [])
    · simp only [discharge, hx, hy]
      exact happend (hanswers _ n) (ih _ [] [])

end

end Obligation
