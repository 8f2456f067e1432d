import MinionAgent.Library.Turns

/-!
# MinionAgent.Library.Cells

Members that take turns at the cell of their scope: each one reads it when its
turn starts, and may write it until it is released.

* `Turns.LastWrite` — what the last write before a member left in a cell;
* `Turns.Written` — every member reads what the last write before it left,
  with a rule for each operation.
-/

/-- What the members have read and written, and what the cells hold. -/
@[ext] structure Cells (κ ν : Type) where
  received : ℕ → Option ν
  effect : ℕ → Option ν
  stored : κ → ν

namespace Turns

variable {κ ν : Type}

/-- The last member of a scope before number `n` that wrote its cell wrote
`v`, or none wrote it and `v` was there before. -/
def LastWrite (q : Turns κ) (effect : ℕ → Option ν) (initial : κ → ν) (n : ℕ) (k : κ) (v : ν) : Prop :=
  (∃ j, j < n ∧ q.scope j = some k ∧ effect j = some v ∧
    ∀ l, j < l → l < n → q.scope l = some k → effect l = none) ∨
  v = initial k ∧ ∀ l, l < n → q.scope l = some k → effect l = none

/-- The cells hold the last writes, and members have read what the last write
before them left. -/
structure Written (q : Turns κ) (starts : List ℕ) (initial : κ → ν) (c : Cells κ ν) : Prop where
  received : ∀ i v, c.received i = some v → i ∈ starts ∧ ∀ k, q.scope i = some k → q.LastWrite c.effect initial i k v
  effect : ∀ i v, c.effect i = some v → i ∈ starts
  stored : ∀ k n, (∀ i, q.scope i = some k → i < n) → q.LastWrite c.effect initial n k (c.stored k)

variable {q q' : Turns κ} {starts starts' : List ℕ} {initial : κ → ν} {c c' : Cells κ ν} {i n : ℕ} {k : κ} {v : ν}

/-! ## The last write -/

/-- Only the writes in a scope before a number matter. -/
theorem LastWrite.congr {effect effect' : ℕ → Option ν} (h : q.LastWrite effect initial n k v)
    (hscope : ∀ j, j < n → (q'.scope j = some k ↔ q.scope j = some k))
    (heffect : ∀ j, j < n → q.scope j = some k → effect' j = effect j) : q'.LastWrite effect' initial n k v := by
  rcases h with ⟨j, hlt, hj, hv, hlater⟩ | ⟨hv, hnone⟩
  · refine .inl ⟨j, hlt, (hscope j hlt).mpr hj, by rw [heffect j hlt hj, hv], fun l hjl hln hl => ?_⟩
    have hl' := (hscope l hln).mp hl
    rw [heffect l hln hl']
    exact hlater l hjl hln hl'
  · refine .inr ⟨hv, fun l hln hl => ?_⟩
    have hl' := (hscope l hln).mp hl
    rw [heffect l hln hl']
    exact hnone l hln hl'

/-- Members that wrote nothing do not matter. -/
theorem LastWrite.cut {effect : ℕ → Option ν} (h : q.LastWrite effect initial n k v) {m : ℕ} (hle : m ≤ n)
    (hnone : ∀ l, m ≤ l → q.scope l = some k → effect l = none) : q.LastWrite effect initial m k v := by
  rcases h with ⟨j, hlt, hj, hv, hlater⟩ | ⟨hv, hall⟩
  · have hjm : j < m := by
      by_contra hge
      have := hnone j (Nat.not_lt.mp hge) hj
      simp [hv] at this
    exact .inl ⟨j, hjm, hj, hv, fun l hjl hlm => hlater l hjl (by omega)⟩
  · exact .inr ⟨hv, fun l hlm => hall l (by omega)⟩

/-! ## Operations -/

theorem written_of_empty (hreceived : ∀ i, c.received i = none) (heffect : ∀ i, c.effect i = none)
    (hstored : ∀ k, c.stored k = initial k) : Written q [] initial c where
  received := by simp [hreceived]
  effect := by simp [heffect]
  stored k n _ := .inr ⟨hstored k, fun l _ _ => heffect l⟩

/-- What is kept where scopes stay. -/
theorem Written.congr (h : Written q starts initial c) (hscope : ∀ j, q'.scope j = q.scope j) :
    Written q' starts initial c where
  received j w hw := by
    obtain ⟨hmem, hlast⟩ := h.received j w hw
    refine ⟨hmem, fun k' hk' => ?_⟩
    rw [hscope] at hk'
    exact (hlast k' hk').congr (by simp [hscope]) fun _ _ _ => rfl
  effect := h.effect
  stored k' m hm := by
    refine (h.stored k' m fun j hj => hm j ?_).congr (by simp [hscope]) fun _ _ _ => rfl
    rw [hscope]
    exact hj

/-- A member that has not started enters a scope behind all of its members. -/
theorem Written.enqueue (h : Written q starts initial c) (hnone : q.scope i = none)
    (hnew : ∀ j, q.scope j = some k → j < i) (hi : q'.scope i = some k)
    (hscope : ∀ j, j ≠ i → q'.scope j = q.scope j) (hstarts : i ∉ starts) : Written q' starts initial c := by
  have heffect : c.effect i = none := by
    cases hw : c.effect i with
    | none => rfl
    | some w => exact absurd (h.effect i w hw) hstarts
  have hother : ∀ {j k'}, j ≠ i → (q'.scope j = some k' ↔ q.scope j = some k') := fun hne => by rw [hscope _ hne]
  constructor
  · intro j w hw
    obtain ⟨hmem, hlast⟩ := h.received j w hw
    have hne : j ≠ i := by
      rintro rfl
      exact hstarts hmem
    refine ⟨hmem, fun k' hk' => ?_⟩
    have hj := (hother hne).mp hk'
    refine (hlast k' hj).congr (fun l hl => ?_) fun _ _ _ => rfl
    by_cases heq : l = i
    · -- the new member is in another scope, or behind
      subst heq
      refine iff_of_false (fun hk => ?_) (by simp [hnone])
      obtain rfl : k = k' := Option.some.inj (hi.symm.trans hk)
      have := hnew j hj
      omega
    · exact hother heq
  · exact h.effect
  · intro k' m hm
    have hold : ∀ j, q.scope j = some k' → j < m := fun j hj => by
      refine hm j ((hother ?_).mpr hj)
      rintro rfl
      simp [hnone] at hj
    rcases h.stored k' m hold with ⟨j, hlt, hj, hv, hlater⟩ | ⟨hv, hnever⟩
    · have hne : j ≠ i := by
        rintro rfl
        simp [heffect] at hv
      refine .inl ⟨j, hlt, (hother hne).mpr hj, hv, fun l hjl hln hl => ?_⟩
      by_cases heq : l = i
      · rw [heq, heffect]
      · exact hlater l hjl hln ((hother heq).mp hl)
    · refine .inr ⟨hv, fun l hln hl => ?_⟩
      by_cases heq : l = i
      · rw [heq, heffect]
      · exact hnever l hln ((hother heq).mp hl)

/-- A member that is not released has no other one behind it that has
started. -/
theorem Logged.not_mem_of_lt (h : q.Logged starts) (hfifo : q.Fifo) (hi : q.scope i = some k)
    (hopen : ¬ q.released i) {j : ℕ} (hj : q.scope j = some k) (hlt : i < j) : j ∉ starts :=
  fun hmem => hopen (hfifo.earlier_released hj hi hlt (h.turn j hmem).2)

/-- A member starts, and reads its cell. -/
theorem Written.start (h : Written q starts initial c) (hlogged : q.Logged starts) (hfifo : q.Fifo)
    (hi : q.scope i = some k) (hopen : ¬ q.released i) (hnew : i ∉ starts) {m : ℕ}
    (hbound : ∀ j, q.scope j = some k → j < m) (hstarts : starts' = starts ++ [i]) (hstored : c'.stored = c.stored)
    (heffect : c'.effect = c.effect) (hreceivedI : c'.received i = none ∨ c'.received i = some (c.stored k))
    (hreceived : ∀ j, j ≠ i → c'.received j = c.received j) : Written q starts' initial c' := by
  have hbehind : ∀ l, i ≤ l → q.scope l = some k → c.effect l = none := by
    intro l hle hl
    cases hw : c.effect l with
    | none => rfl
    | some w =>
      have hmem := h.effect l w hw
      rcases Nat.lt_or_eq_of_le hle with hlt | rfl
      · exact absurd hmem (hlogged.not_mem_of_lt hfifo hi hopen hl hlt)
      · exact absurd hmem hnew
  subst hstarts
  constructor
  · intro j w hw
    rw [heffect]
    by_cases heq : j = i
    · subst heq
      refine ⟨by simp, fun k' hk' => ?_⟩
      obtain rfl : k = k' := Option.some.inj (hi.symm.trans hk')
      obtain rfl : c.stored k = w := by
        rcases hreceivedI with hr | hr <;> rw [hr] at hw
        · contradiction
        · exact Option.some.inj hw
      exact (h.stored k m hbound).cut (Nat.le_of_lt (hbound j hi)) hbehind
    · rw [hreceived j heq] at hw
      obtain ⟨hmem, hlast⟩ := h.received j w hw
      exact ⟨List.mem_append_left _ hmem, hlast⟩
  · intro j w hw
    rw [heffect] at hw
    exact List.mem_append_left _ (h.effect j w hw)
  · rw [hstored, heffect]
    exact h.stored

/-- A member that has started and is not released writes its cell. -/
theorem Written.write (h : Written q starts initial c) (hlogged : q.Logged starts) (hfifo : q.Fifo)
    (hi : q.scope i = some k) (hopen : ¬ q.released i) (hmem : i ∈ starts) (hreceived : c'.received = c.received)
    (heffectI : c'.effect i = some v) (heffect : ∀ j, j ≠ i → c'.effect j = c.effect j) (hstoredK : c'.stored k = v)
    (hstored : ∀ k', k' ≠ k → c'.stored k' = c.stored k') : Written q starts initial c' := by
  constructor
  · intro j w hw
    rw [hreceived] at hw
    obtain ⟨hmemJ, hlast⟩ := h.received j w hw
    refine ⟨hmemJ, fun k' hk' => (hlast k' hk').congr (fun _ _ => Iff.rfl) fun l hlt hl => heffect l ?_⟩
    -- a member behind this one has not started, so it has read nothing
    rintro rfl
    obtain rfl : k = k' := Option.some.inj (hi.symm.trans hl)
    exact hlogged.not_mem_of_lt hfifo hi hopen hk' hlt hmemJ
  · intro j w hw
    by_cases heq : j = i
    · rw [heq]
      exact hmem
    · rw [heffect j heq] at hw
      exact h.effect j w hw
  · intro k' m hm
    by_cases heq : k' = k
    · subst heq
      refine .inl ⟨i, hm i hi, hi, by rw [heffectI, hstoredK], fun l hlt _ hl => ?_⟩
      rw [heffect l (Nat.ne_of_gt hlt)]
      cases hw : c.effect l with
      | none => rfl
      | some w => exact absurd (h.effect l w hw) (hlogged.not_mem_of_lt hfifo hi hopen hl hlt)
    · rw [hstored k' heq]
      refine (h.stored k' m hm).congr (fun _ _ => Iff.rfl) fun l _ hl => heffect l ?_
      rintro rfl
      exact heq (Option.some.inj (hl.symm.trans hi))

end Turns
