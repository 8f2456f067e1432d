import MinionAgent.Library.Turns
import MinionAgent.Library.Table

/-!
# MinionAgent.Library.TwoStage

Queues that members enter in two stages: they register one at a time, in the
order in which they came, and then take turns within the scope they registered
under.

* `Serial` — the invariant, over the phases a model gives its members;
* `Serial.step`, `Serial.begin`, `Serial.release`, `Serial.clear`,
  `Serial.enqueue`, `Serial.enter`, `Serial.unlink` — the rules of operations;
* `Serial.serialized` — what the invariant guarantees.
-/

/-- One member: the registration it awaits, whether its own has begun and has
settled, its scope once it is queued, the member whose release it awaits, and
whether it is released and has taken its turn. -/
structure Member (π φ κ : Type) where
  data : π
  previous : Option ℕ
  phase : φ
  begun : Bool
  registered : Bool := false
  scope : Option κ := none
  current : Option ℕ := none
  released : Bool := false
  started : Bool := false

/-- The members in the order in which they came, the last registration, the
last member of each scope, and the members that have taken their turn. -/
structure TwoStage (π φ κ : Type) where
  members : List (Member π φ κ) := []
  registration : Option ℕ := none
  tails : κ → Option ℕ := fun _ => none
  starts : List ℕ := []

namespace TwoStage

variable {π φ κ : Type}

/-- A member that is awaited is done; where none is, there is nothing to
await. -/
def isDone (q : TwoStage π φ κ) (done : Member π φ κ → Bool) : Option ℕ → Bool
  | none => true
  | some p => (q.members[p]?).elim true done

/-- A change to one member. -/
def modify (q : TwoStage π φ κ) (i : ℕ) (f : Member π φ κ → Member π φ κ) : TwoStage π φ κ :=
  { q with members := q.members.modify i f }

/-! ## The guarantees -/

/-- Members of one scope are never inside at once, no registration begins
before every earlier one has settled, and the turns of a scope are taken in
order. -/
structure Serialized (inside : φ → Prop) (q : TwoStage π φ κ) : Prop where
  exclusive : ∀ (i j : ℕ) (m m' : Member π φ κ), q.members[i]? = some m → q.members[j]? = some m' →
    inside m.phase → inside m'.phase → m.scope = m'.scope → i = j
  registeredInOrder : ∀ (i j : ℕ) (m m' : Member π φ κ), q.members[i]? = some m → q.members[j]? = some m' → i < j →
    m'.begun = true → m.registered = true
  startedInOrder : q.starts.Pairwise fun i j =>
    ((q.members[i]?).bind Member.scope = (q.members[j]?).bind Member.scope → i < j)

/-! ## Reading a state -/

variable {q : TwoStage π φ κ} {i : ℕ} {m : Member π φ κ}

theorem isDone_some {done : Member π φ κ → Bool} {p : ℕ} (h : q.members[p]? = some m) :
    q.isDone done (some p) = done m := by
  rw [isDone, h]
  rfl

/-- The second stage. -/
def turns (q : TwoStage π φ κ) : Turns κ where
  scope i := (q.members[i]?).bind Member.scope
  current i := (q.members[i]?).bind Member.current
  released i := ∃ m : Member π φ κ, q.members[i]? = some m ∧ m.released = true
  tail := q.tails

theorem turns_scope (h : q.members[i]? = some m) : q.turns.scope i = m.scope := by
  simp [turns, h]

theorem turns_current (h : q.members[i]? = some m) : q.turns.current i = m.current := by
  simp [turns, h]

theorem turns_released (h : q.members[i]? = some m) : q.turns.released i ↔ m.released = true := by
  simp [turns, h]

/-- One member is changed, and the rest of the table stays. -/
structure Changed (q q' : TwoStage π φ κ) (i : ℕ) (m m' : Member π φ κ) : Prop where
  before : q.members[i]? = some m
  after : q'.members[i]? = some m'
  others : ∀ j, j ≠ i → q'.members[j]? = q.members[j]?
  length : q'.members.length = q.members.length
  previous : m'.previous = m.previous

theorem changed_modify (h : q.members[i]? = some m) {f : Member π φ κ → Member π φ κ}
    (hprevious : (f m).previous = m.previous) : Changed q (q.modify i f) i m (f m) where
  before := h
  after := by simp [modify, h]
  others j hne := by simp [modify, Ne.symm hne]
  length := by simp [modify]
  previous := hprevious

section Changed

variable {q q' : TwoStage π φ κ} {i : ℕ} {m m' : Member π φ κ}

/-- The same change, in a state that differs in more than the table. -/
theorem Changed.congr {q'' : TwoStage π φ κ} (h : Changed q q' i m m') (hmembers : q''.members = q'.members) :
    Changed q q'' i m m' where
  before := h.before
  after := by rw [hmembers]; exact h.after
  others j hne := by rw [hmembers]; exact h.others j hne
  length := by rw [hmembers]; exact h.length
  previous := h.previous

/-- What is true of the changed member and was true of each one is true of
each one. -/
theorem Changed.forall (h : Changed q q' i m m') {P : ℕ → Member π φ κ → Prop}
    (hall : ∀ (j : ℕ) (n : Member π φ κ), q.members[j]? = some n → P j n) (hP : P i m') :
    ∀ (j : ℕ) (n : Member π φ κ), q'.members[j]? = some n → P j n := by
  intro j n hj
  by_cases heq : j = i
  · subst heq
    rw [h.after] at hj
    cases hj
    exact hP
  · rw [h.others j heq] at hj
    exact hall j n hj

/-- A member of the changed table, as it was. -/
theorem Changed.exists_before (h : Changed q q' i m m') {j : ℕ} {n : Member π φ κ} (hj : q'.members[j]? = some n) :
    ∃ n₀, q.members[j]? = some n₀ ∧ (j = i ∧ n₀ = m ∧ n = m' ∨ j ≠ i ∧ n = n₀) := by
  by_cases heq : j = i
  · subst heq
    rw [h.after] at hj
    exact ⟨m, h.before, .inl ⟨rfl, rfl, (Option.some.inj hj).symm⟩⟩
  · rw [h.others j heq] at hj
    exact ⟨n, hj, .inr ⟨heq, rfl⟩⟩

theorem Changed.scope (h : Changed q q' i m m') (hscope : m'.scope = m.scope) (j : ℕ) :
    q'.turns.scope j = q.turns.scope j := by
  by_cases heq : j = i
  · subst heq
    rw [turns_scope h.after, turns_scope h.before, hscope]
  · simp only [turns, h.others j heq]

theorem Changed.current (h : Changed q q' i m m') (hcurrent : m'.current = m.current) (j : ℕ) :
    q'.turns.current j = q.turns.current j := by
  by_cases heq : j = i
  · subst heq
    rw [turns_current h.after, turns_current h.before, hcurrent]
  · simp only [turns, h.others j heq]

theorem Changed.released_other (h : Changed q q' i m m') {j : ℕ} (hne : j ≠ i) :
    q'.turns.released j ↔ q.turns.released j := by
  simp only [turns, h.others j hne]

theorem Changed.released (h : Changed q q' i m m') (hreleased : m'.released = m.released) (j : ℕ) :
    q'.turns.released j ↔ q.turns.released j := by
  by_cases heq : j = i
  · subst heq
    rw [turns_released h.after, turns_released h.before, hreleased]
  · exact h.released_other heq

end Changed

/-- The queues are the same where the members keep their entries. -/
theorem turns_eq {q q' : TwoStage π φ κ} (hscope : ∀ j, q'.turns.scope j = q.turns.scope j)
    (hcurrent : ∀ j, q'.turns.current j = q.turns.current j)
    (hreleased : ∀ j, q'.turns.released j ↔ q.turns.released j) (htails : q'.tails = q.tails) : q'.turns = q.turns :=
  Turns.ext (funext hscope) (funext hcurrent) (funext fun j => propext (hreleased j)) htails

/-! ## The invariant -/

/-- Registrations settle in order, and turns are taken in order within a
scope. -/
structure Serial (fits : Member π φ κ → Prop) (q : TwoStage π φ κ) : Prop where
  latest : ∀ p, q.registration = some p → p + 1 = q.members.length
  idle : q.registration = none → ∀ (i : ℕ) (m : Member π φ κ), q.members[i]? = some m → m.registered = true
  previous : ∀ (i : ℕ) (m : Member π φ κ), q.members[i]? = some m → ∀ p, m.previous = some p → p + 1 = i
  first : ∀ (i j : ℕ) (m m' : Member π φ κ), q.members[i]? = some m → q.members[j]? = some m' → j < i →
    m.previous = none → m'.registered = true
  settled : ∀ (i j : ℕ) (m m' : Member π φ κ), q.members[i]? = some m → q.members[j]? = some m' → i < j →
    m'.begun = true ∨ m'.registered = true → m.registered = true
  fits : ∀ (i : ℕ) (m : Member π φ κ), q.members[i]? = some m → fits m
  queued : ∀ (i : ℕ) (m : Member π φ κ), q.members[i]? = some m → m.scope.isSome → m.begun = true
  fifo : q.turns.Fifo
  logged : q.turns.Logged q.starts
  started : ∀ (i : ℕ) (m : Member π φ κ), q.members[i]? = some m → (m.started = true ↔ i ∈ q.starts)

variable {fits : Member π φ κ → Prop}

theorem serial_empty : Serial fits ({} : TwoStage π φ κ) where
  latest := by simp
  idle := by simp
  previous := by simp
  first := by simp
  settled := by simp
  fits := by simp
  queued := by simp
  fifo := Turns.fifo_of_empty (by simp [turns]) (by simp [turns])
  logged := Turns.logged_nil _
  started := by simp

/-- Every member before one is settled once the one it awaits is. -/
theorem Serial.earlier_settled (h : Serial fits q) (hi : q.members[i]? = some m)
    (hdone : q.isDone Member.registered m.previous = true) {j : ℕ} {m' : Member π φ κ}
    (hj : q.members[j]? = some m') (hlt : j < i) : m'.registered = true := by
  cases hprevious : m.previous with
  | none => exact h.first i j m m' hi hj hlt hprevious
  | some p =>
    have hp := h.previous i m hi p hprevious
    obtain ⟨before, hbefore⟩ : ∃ before, q.members[p]? = some before :=
      ⟨_, List.getElem?_eq_getElem (by have := (List.getElem?_eq_some_iff.mp hi).1; omega)⟩
    rw [hprevious, isDone_some hbefore] at hdone
    by_cases heq : j = p
    · subst heq
      rw [hbefore] at hj
      cases hj
      exact hdone
    · exact h.settled j p m' before hj hbefore (by omega) (.inr hdone)

/-- It is a member's turn once the one it awaits is released. -/
theorem Serial.turn (h : Serial fits q) (hi : q.members[i]? = some m) (hscope : m.scope.isSome)
    (hdone : q.isDone Member.released m.current = true) : q.turns.Turn i := by
  intro p hp
  obtain ⟨k, hk⟩ := Option.isSome_iff_exists.mp hscope
  have hlt := (h.fifo.current_lt i k p (by rw [turns_scope hi, hk]) hp).1
  obtain ⟨before, hbefore⟩ : ∃ before, q.members[p]? = some before :=
    ⟨_, List.getElem?_eq_getElem (Nat.lt_trans hlt (List.getElem?_eq_some_iff.mp hi).1)⟩
  rw [turns_current hi] at hp
  rw [hp, isDone_some hbefore] at hdone
  exact (turns_released hbefore).mpr hdone

/-- A member that has not started is not in the log. -/
theorem Serial.not_mem_starts (h : Serial fits q) (hi : q.members[i]? = some m) (hstarted : m.started = false) :
    i ∉ q.starts := by
  rw [← h.started i m hi, hstarted]
  simp

/-- The guarantees. -/
theorem Serial.serialized (h : Serial fits q) {inside : φ → Prop}
    (hinside : ∀ m, fits m → inside m.phase → m.started = true ∧ m.released = false) : Serialized inside q where
  exclusive := by
    have hnotlt : ∀ (i j : ℕ) (m m' : Member π φ κ), q.members[i]? = some m → q.members[j]? = some m' →
        inside m.phase → inside m'.phase → m.scope = m'.scope → ¬ i < j := by
      intro i j m m' hi hj hm hm' hscope hlt
      obtain ⟨-, hreleased⟩ := hinside m (h.fits i m hi) hm
      obtain ⟨hstarted, -⟩ := hinside m' (h.fits j m' hj) hm'
      obtain ⟨hsome, hturn⟩ := h.logged.turn j ((h.started j m' hj).mp hstarted)
      obtain ⟨k, hk⟩ := Option.isSome_iff_exists.mp hsome
      have hearlier := h.fifo.earlier_released hk (by rw [turns_scope hi, hscope, ← turns_scope hj, hk]) hlt hturn
      rw [turns_released hi, hreleased] at hearlier
      contradiction
    intro i j m m' hi hj hm hm' hscope
    have h₁ := hnotlt i j m m' hi hj hm hm' hscope
    have h₂ := hnotlt j i m' m hj hi hm' hm hscope.symm
    omega
  registeredInOrder i j m m' hi hj hlt hbegun := h.settled i j m m' hi hj hlt (.inl hbegun)
  startedInOrder := h.logged.ordered

/-! ## Operations -/

section Operations

variable {q q' : TwoStage π φ κ} {i : ℕ} {m m' : Member π φ κ}

/-- What a change of one member keeps of the first stage, if it settles nothing
out of order. -/
theorem Serial.settled_changed (h : Serial fits q) (hchanged : Changed q q' i m m')
    (hregistered : m.registered = true → m'.registered = true)
    (hearlier : m'.begun = true ∨ m'.registered = true → (m.begun = true ∨ m.registered = true) ∨
      ∀ (j : ℕ) (n : Member π φ κ), q.members[j]? = some n → j < i → n.registered = true) :
    (∀ (j : ℕ) (n : Member π φ κ), q'.members[j]? = some n → ∀ p, n.previous = some p → p + 1 = j) ∧
    (∀ (j k : ℕ) (n n' : Member π φ κ), q'.members[j]? = some n → q'.members[k]? = some n' → k < j →
      n.previous = none → n'.registered = true) ∧
    ∀ (j k : ℕ) (n n' : Member π φ κ), q'.members[j]? = some n → q'.members[k]? = some n' → j < k →
      n'.begun = true ∨ n'.registered = true → n.registered = true := by
  have hkept : ∀ {j : ℕ} {n n₀ : Member π φ κ}, (j = i ∧ n₀ = m ∧ n = m' ∨ j ≠ i ∧ n = n₀) →
      n₀.registered = true → n.registered = true := by
    rintro j n n₀ (⟨-, rfl, rfl⟩ | ⟨-, rfl⟩) hreg
    · exact hregistered hreg
    · exact hreg
  refine ⟨fun j n hj p hp => ?_, fun j k n n' hj hk hlt hnone => ?_, fun j k n n' hj hk hlt hgrown => ?_⟩
  · obtain ⟨n₀, hj₀, ⟨-, rfl, rfl⟩ | ⟨-, rfl⟩⟩ := hchanged.exists_before hj
    · rw [hchanged.previous] at hp
      exact h.previous j n₀ hj₀ p hp
    · exact h.previous j n hj₀ p hp
  · obtain ⟨n₀, hj₀, hcase⟩ := hchanged.exists_before hj
    obtain ⟨n₀', hk₀, hcase'⟩ := hchanged.exists_before hk
    refine hkept hcase' (h.first j k n₀ n₀' hj₀ hk₀ hlt ?_)
    obtain ⟨-, rfl, rfl⟩ | ⟨-, rfl⟩ := hcase
    · rwa [hchanged.previous] at hnone
    · exact hnone
  · obtain ⟨n₀, hj₀, hcase⟩ := hchanged.exists_before hj
    obtain ⟨n₀', hk₀, ⟨rfl, rfl, rfl⟩ | ⟨-, rfl⟩⟩ := hchanged.exists_before hk
    · rcases hearlier hgrown with hwas | hall
      · exact hkept hcase (h.settled j k n₀ n₀' hj₀ hk₀ hlt hwas)
      · exact hkept hcase (hall j n₀ hj₀ hlt)
    · exact hkept hcase (h.settled j k n₀ n' hj₀ hk₀ hlt hgrown)

/-- The registrations of a state in which a member may have settled. -/
theorem Serial.idle_changed (h : Serial fits q) (hchanged : Changed q q' i m m')
    (hregistered : m.registered = true → m'.registered = true) (hregistration : q'.registration = q.registration) :
    (∀ p, q'.registration = some p → p + 1 = q'.members.length) ∧
    (q'.registration = none → ∀ (j : ℕ) (n : Member π φ κ), q'.members[j]? = some n → n.registered = true) := by
  rw [hregistration, hchanged.length]
  refine ⟨h.latest, fun hnone => ?_⟩
  exact hchanged.forall (h.idle hnone) (hregistered (h.idle hnone i m hchanged.before))

/-- A change of a member that leaves the second stage alone. -/
theorem Serial.step (h : Serial fits q) (hchanged : Changed q q' i m m') (hfits : fits m')
    (hbegun : m.begun = true → m'.begun = true) (hregistered : m.registered = true → m'.registered = true)
    (hearlier : m'.begun = true ∨ m'.registered = true → (m.begun = true ∨ m.registered = true) ∨
      ∀ (j : ℕ) (n : Member π φ κ), q.members[j]? = some n → j < i → n.registered = true)
    (hregistration : q'.registration = q.registration) (hscope : m'.scope = m.scope) (hcurrent : m'.current = m.current)
    (hreleased : m'.released = m.released) (hstarted : m'.started = m.started) (htails : q'.tails = q.tails)
    (hstarts : q'.starts = q.starts) : Serial fits q' := by
  obtain ⟨hlatest, hidle⟩ := h.idle_changed hchanged hregistered hregistration
  obtain ⟨hprevious, hfirst, hsettled⟩ := h.settled_changed hchanged hregistered hearlier
  have hturns : q'.turns = q.turns :=
    turns_eq (hchanged.scope hscope) (hchanged.current hcurrent) (hchanged.released hreleased) htails
  refine ⟨hlatest, hidle, hprevious, hfirst, hsettled, hchanged.forall h.fits hfits,
    hchanged.forall h.queued fun hsome => ?_, by rw [hturns]; exact h.fifo, by rw [hturns, hstarts]; exact h.logged, ?_⟩
  · rw [hscope] at hsome
    exact hbegun (h.queued i m hchanged.before hsome)
  · rw [hstarts]
    refine hchanged.forall h.started ?_
    rw [hstarted]
    exact h.started i m hchanged.before

/-- A queued member takes its turn. -/
theorem Serial.begin (h : Serial fits q) (hchanged : Changed q q' i m m') (hfits : fits m')
    (hregistered : m'.registered = m.registered) (hbegun : m'.begun = m.begun)
    (hregistration : q'.registration = q.registration) (hscope : m'.scope = m.scope) (hcurrent : m'.current = m.current)
    (hreleased : m'.released = m.released) (hold : m.started = false) (hnew : m'.started = true)
    (htails : q'.tails = q.tails) (hstarts : q'.starts = q.starts ++ [i]) (hsome : m.scope.isSome)
    (hopen : m.released = false) (hturn : q.turns.Turn i) : Serial fits q' := by
  obtain ⟨hlatest, hidle⟩ := h.idle_changed hchanged (by rw [hregistered]; exact id) hregistration
  obtain ⟨hprevious, hfirst, hsettled⟩ := h.settled_changed hchanged (by rw [hregistered]; exact id)
    (by rw [hregistered, hbegun]; exact .inl)
  have hturns : q'.turns = q.turns :=
    turns_eq (hchanged.scope hscope) (hchanged.current hcurrent) (hchanged.released hreleased) htails
  have hnotin := h.not_mem_starts hchanged.before hold
  obtain ⟨k, hk⟩ := Option.isSome_iff_exists.mp hsome
  refine ⟨hlatest, hidle, hprevious, hfirst, hsettled, hchanged.forall h.fits hfits,
    hchanged.forall h.queued fun _ => ?_, by rw [hturns]; exact h.fifo, ?_, fun j n hj => ?_⟩
  · rw [hbegun]
    exact h.queued i m hchanged.before hsome
  · rw [hturns, hstarts]
    refine h.logged.start h.fifo (by rw [turns_scope hchanged.before, hk]) hturn ?_ hnotin
    rw [turns_released hchanged.before, hopen]
    simp
  · rw [hstarts, List.mem_append, List.mem_singleton]
    obtain ⟨n₀, hj₀, ⟨rfl, rfl, rfl⟩ | ⟨hne, rfl⟩⟩ := hchanged.exists_before hj
    · simp [hnew]
    · rw [h.started j n hj₀]
      simp [hne]

/-- A member is released at its turn. -/
theorem Serial.release (h : Serial fits q) (hchanged : Changed q q' i m m') (hfits : fits m')
    (hregistered : m'.registered = m.registered) (hbegun : m'.begun = m.begun)
    (hregistration : q'.registration = q.registration) (hscope : m'.scope = m.scope) (hcurrent : m'.current = m.current)
    (hreleased : m'.released = true) (hstarted : m'.started = m.started) (htails : q'.tails = q.tails)
    (hstarts : q'.starts = q.starts) (hturn : q.turns.Turn i) : Serial fits q' := by
  obtain ⟨hlatest, hidle⟩ := h.idle_changed hchanged (by rw [hregistered]; exact id) hregistration
  obtain ⟨hprevious, hfirst, hsettled⟩ := h.settled_changed hchanged (by rw [hregistered]; exact id)
    (by rw [hregistered, hbegun]; exact .inl)
  have hrel : ∀ j, q'.turns.released j ↔ j = i ∨ q.turns.released j := by
    intro j
    by_cases heq : j = i
    · subst heq
      simp [turns_released hchanged.after, hreleased]
    · rw [hchanged.released_other heq]
      simp [heq]
  refine ⟨hlatest, hidle, hprevious, hfirst, hsettled, hchanged.forall h.fits hfits,
    hchanged.forall h.queued fun hsome => ?_, ?_, ?_, ?_⟩
  · rw [hbegun]
    exact h.queued i m hchanged.before (by rwa [hscope] at hsome)
  · exact h.fifo.release hturn (hchanged.scope hscope) (hchanged.current hcurrent) hrel fun k => congrFun htails k
  · rw [hstarts]
    exact h.logged.mono (fun j _ => hchanged.scope hscope j) (fun j _ => hchanged.current hcurrent j)
      fun j hj => (hrel j).mpr (.inr hj)
  · rw [hstarts]
    refine hchanged.forall h.started ?_
    rw [hstarted]
    exact h.started i m hchanged.before

/-- The entry of a scope is removed whose last member is released. -/
theorem Serial.clear (h : Serial fits q) (hi : q.members[i]? = some m) (hreleased : m.released = true) {k : κ}
    (hlast : q.tails k = some i) (hmembers : q'.members = q.members) (hregistration : q'.registration = q.registration)
    (hstarts : q'.starts = q.starts) (hnone : q'.tails k = none) (htails : ∀ k', k' ≠ k → q'.tails k' = q.tails k') :
    Serial fits q' := by
  have hscope : ∀ j, q'.turns.scope j = q.turns.scope j := fun j => by simp only [turns, hmembers]
  have hcurrent : ∀ j, q'.turns.current j = q.turns.current j := fun j => by simp only [turns, hmembers]
  have hrel : ∀ j, q'.turns.released j ↔ q.turns.released j := fun j => by simp only [turns, hmembers]
  refine ⟨?_, ?_, ?_, ?_, ?_, ?_, ?_, ?_, ?_, ?_⟩
  · rw [hregistration, hmembers]; exact h.latest
  · rw [hregistration, hmembers]; exact h.idle
  · rw [hmembers]; exact h.previous
  · rw [hmembers]; exact h.first
  · rw [hmembers]; exact h.settled
  · rw [hmembers]; exact h.fits
  · rw [hmembers]; exact h.queued
  · exact h.fifo.clear hlast ((turns_released hi).mpr hreleased) hscope hcurrent hrel hnone htails
  · rw [hstarts]
    exact h.logged.mono (fun j _ => hscope j) (fun j _ => hcurrent j) fun j => (hrel j).mpr
  · rw [hmembers, hstarts]; exact h.started

/-- A member whose registration has begun and is not settled is queued at the
end of a scope. -/
theorem Serial.enqueue (h : Serial fits q) (hchanged : Changed q q' i m m') (hfits : fits m') {k : κ}
    (hbegun : m.begun = true) (hopen : m.registered = false) (hnone : m.scope = none) (hreleased : m.released = false)
    (hold : m.started = false) (hbegun' : m'.begun = true) (hregistration : q'.registration = q.registration)
    (hscope : m'.scope = some k) (hcurrent : m'.current = q.tails k) (hreleased' : m'.released = false)
    (hstarted : m'.started = false) (htailK : q'.tails k = some i) (htails : ∀ k', k' ≠ k → q'.tails k' = q.tails k')
    (hstarts : q'.starts = q.starts) : Serial fits q' := by
  have hregistered : m.registered = true → m'.registered = true := fun hreg => by simp [hopen] at hreg
  obtain ⟨hlatest, hidle⟩ := h.idle_changed hchanged hregistered hregistration
  obtain ⟨hprevious, hfirst, hsettled⟩ := h.settled_changed hchanged hregistered fun _ => .inl (.inl hbegun)
  -- what is queued has begun, so it is not behind a member that is not settled
  have hnew : ∀ j k', q.turns.scope j = some k' → j < i := by
    intro j k' hj
    have hbind : (q.members[j]?).bind Member.scope = some k' := hj
    obtain ⟨n, hn, hscopeN⟩ := Option.bind_eq_some_iff.mp hbind
    have hbegunN := h.queued j n hn (by simp [hscopeN])
    by_contra hle
    rcases Nat.lt_or_eq_of_le (Nat.not_lt.mp hle) with hlt | rfl
    · have := h.settled i j m n hchanged.before hn hlt (.inl hbegunN)
      simp [hopen] at this
    · rw [hchanged.before] at hn
      cases hn
      simp [hnone] at hscopeN
  have hnotin := h.not_mem_starts hchanged.before hold
  have hother : ∀ j, j ≠ i → q'.turns.scope j = q.turns.scope j ∧ q'.turns.current j = q.turns.current j :=
    fun j hne => by
    simp only [turns, hchanged.others j hne, and_self]
  have hne : ∀ j ∈ q.starts, j ≠ i := by
    rintro j hj rfl
    exact hnotin hj
  refine ⟨hlatest, hidle, hprevious, hfirst, hsettled, hchanged.forall h.fits hfits,
    hchanged.forall h.queued fun _ => hbegun', ?_, ?_, ?_⟩
  · refine h.fifo.enqueue (by rw [turns_scope hchanged.before, hnone]) (fun j hj => hnew j k hj)
      (by rw [turns_scope hchanged.after, hscope]) (fun j hj => (hother j hj).1)
      (by rw [turns_current hchanged.after, hcurrent]; rfl) (fun j hj => (hother j hj).2) ?_
      (fun j hj => hchanged.released_other hj) htailK htails
    rw [turns_released hchanged.after, hreleased']
    simp
  · rw [hstarts]
    refine h.logged.mono (fun j hj => (hother j (hne j hj)).1) (fun j hj => (hother j (hne j hj)).2) fun j hj => ?_
    by_cases heq : j = i
    · subst heq
      rw [turns_released hchanged.before, hreleased] at hj
      contradiction
    · exact (hchanged.released_other heq).mpr hj
  · rw [hstarts]
    refine hchanged.forall h.started ?_
    rw [hstarted]
    simp [hnotin]

/-- The last registration is forgotten once it is settled. -/
theorem Serial.unlink (h : Serial fits q) (hi : q.members[i]? = some m) (hregistered : m.registered = true)
    (hlast : q.registration = some i) (hmembers : q'.members = q.members) (hnone : q'.registration = none)
    (hstarts : q'.starts = q.starts) (htails : q'.tails = q.tails) : Serial fits q' := by
  have hlength := h.latest i hlast
  have hturns : q'.turns = q.turns := by simp only [turns, hmembers, htails]
  refine ⟨by simp [hnone], fun _ j n hj => ?_, ?_, ?_, ?_, ?_, ?_, by rw [hturns]; exact h.fifo,
    by rw [hturns, hstarts]; exact h.logged, ?_⟩
  · rw [hmembers] at hj
    have hlt := (List.getElem?_eq_some_iff.mp hj).1
    by_cases heq : j = i
    · subst heq
      rw [hi] at hj
      cases hj
      exact hregistered
    · exact h.settled j i n m hj hi (by omega) (.inr hregistered)
  · rw [hmembers]; exact h.previous
  · rw [hmembers]; exact h.first
  · rw [hmembers]; exact h.settled
  · rw [hmembers]; exact h.fits
  · rw [hmembers]; exact h.queued
  · rw [hmembers, hstarts]; exact h.started

theorem turns_concat {new : Member π φ κ} (hscope : new.scope = none) (hcurrent : new.current = none)
    (hreleased : new.released = false) (hmembers : q'.members = q.members ++ [new]) (htails : q'.tails = q.tails) :
    q'.turns = q.turns := by
  have hread : ∀ {α : Type} (f : Member π φ κ → Option α) (j : ℕ), f new = none →
      (q'.members[j]?).bind f = (q.members[j]?).bind f := by
    intro α f j hf
    rw [hmembers]
    rcases Nat.lt_trichotomy j q.members.length with hlt | rfl | hgt
    · rw [List.getElem?_append_left hlt]
    · simp [hf]
    · rw [List.getElem?_eq_none (by simp; omega), List.getElem?_eq_none (by omega)]
  refine turns_eq (fun j => hread _ j hscope) (fun j => hread _ j hcurrent) (fun j => ?_) htails
  simp only [turns, hmembers]
  constructor
  · rintro ⟨n, hn, hrel⟩
    rcases Table.getElem?_concat_cases hn with hold | ⟨-, rfl⟩
    · exact ⟨n, hold, hrel⟩
    · simp [hreleased] at hrel
  · rintro ⟨n, hn, hrel⟩
    exact ⟨n, by rw [List.getElem?_append_left (List.getElem?_eq_some_iff.mp hn).1]; exact hn, hrel⟩

/-- A new member registers behind all others. -/
theorem Serial.enter (h : Serial fits q) {new : Member π φ κ} (hfits : fits new)
    (hprevious : new.previous = q.registration)
    (hregistered : new.registered = false) (hscope : new.scope = none) (hcurrent : new.current = none)
    (hreleased : new.released = false) (hstarted : new.started = false)
    (hbegun : new.begun = true → q.isDone Member.registered q.registration = true)
    (hmembers : q'.members = q.members ++ [new]) (hregistration : q'.registration = some q.members.length)
    (htails : q'.tails = q.tails) (hstarts : q'.starts = q.starts) : Serial fits q' := by
  have hturns := turns_concat hscope hcurrent hreleased hmembers htails
  have hold : ∀ {j k : ℕ} {n : Member π φ κ}, k < j → j ≤ q.members.length → q'.members[k]? = some n →
      q.members[k]? = some n := by
    intro j k n hlt hle hk
    rwa [hmembers, List.getElem?_append_left (by omega)] at hk
  -- where the last registration is settled or forgotten, all are
  have hall : q.isDone Member.registered q.registration = true → ∀ (j : ℕ) (n : Member π φ κ),
      q.members[j]? = some n → n.registered = true := by
    intro hdone j n hj
    cases hlast : q.registration with
    | none => exact h.idle hlast j n hj
    | some p =>
      have hp := h.latest p hlast
      have hlt := (List.getElem?_eq_some_iff.mp hj).1
      obtain ⟨last, hlastP⟩ : ∃ last, q.members[p]? = some last := ⟨_, List.getElem?_eq_getElem (by omega)⟩
      rw [hlast, isDone_some hlastP] at hdone
      by_cases heq : j = p
      · subst heq
        rw [hlastP] at hj
        cases hj
        exact hdone
      · exact h.settled j p n last hj hlastP (by omega) (.inr hdone)
  refine ⟨fun p hp => ?_, by simp [hregistration], fun j n hj p hp => ?_, fun j k n n' hj hk hlt hnone => ?_,
    fun j k n n' hj hk hlt hgrown => ?_, fun j n hj => ?_, fun j n hj hsome => ?_, by rw [hturns]; exact h.fifo,
    by rw [hturns, hstarts]; exact h.logged, fun j n hj => ?_⟩
  · rw [hregistration] at hp
    rw [hmembers, List.length_append, ← Option.some.inj hp]
    rfl
  · rw [hmembers] at hj
    rcases Table.getElem?_concat_cases hj with hj | ⟨rfl, rfl⟩
    · exact h.previous j n hj p hp
    · exact h.latest p (by rw [← hprevious, hp])
  · rw [hmembers] at hj
    rcases Table.getElem?_concat_cases hj with hj | ⟨rfl, rfl⟩
    · have hle := Nat.le_of_lt (List.getElem?_eq_some_iff.mp hj).1
      exact h.first j k n n' hj (hold hlt hle hk) hlt hnone
    · exact h.idle (by rw [← hprevious, hnone]) k n' (hold hlt (Nat.le_refl _) hk)
  · rw [hmembers] at hk
    rcases Table.getElem?_concat_cases hk with hk | ⟨rfl, rfl⟩
    · have hle := Nat.le_of_lt (List.getElem?_eq_some_iff.mp hk).1
      exact h.settled j k n n' (hold hlt hle hj) hk hlt hgrown
    · rw [hregistered] at hgrown
      exact hall (hbegun (hgrown.resolve_right (by simp))) j n (hold hlt (Nat.le_refl _) hj)
  · rw [hmembers] at hj
    rcases Table.getElem?_concat_cases hj with hj | ⟨rfl, rfl⟩
    · exact h.fits j n hj
    · exact hfits
  · rw [hmembers] at hj
    rcases Table.getElem?_concat_cases hj with hj | ⟨rfl, rfl⟩
    · exact h.queued j n hj hsome
    · simp [hscope] at hsome
  · rw [hmembers] at hj
    rw [hstarts]
    rcases Table.getElem?_concat_cases hj with hj | ⟨rfl, rfl⟩
    · exact h.started j n hj
    · -- what has started is queued, and so in the table
      rw [hstarted]
      refine iff_of_false (by simp) fun hmem => ?_
      obtain ⟨hsome, -⟩ := h.logged.turn _ hmem
      simp [turns] at hsome

end Operations

end TwoStage
