import MinionAgent.Auth.Refresh
import MinionAgent.Library.Table

/-!
# MinionAgent.Auth.SingleRefresh

No credential is refreshed twice: `refresh` runs alone and with what is stored,
callers get what a refresh committed or what they checked themselves, and one
refresh is enough for all callers unless its result is thrown away.
-/

namespace MinionAgent

namespace Authority

variable {τ : Type} [Double τ]

/-! ## The guarantees -/

/-- The latest check of a call found this credential outside its threshold. -/
def Checked (r : Refresher τ) (call : RefreshCall τ) (credential : OAuthCredential τ) : Prop :=
  ∃ now, call.checked = some (credential, now) ∧ expiresSoon credential (r.threshold call.minimum) now = false

/-- `refresh` runs alone, with the stored credential, which no completed refresh
has replaced; and what calls return. -/
structure Guarded (r : Refresher τ) (q : Authority τ) : Prop where
  current : ∀ (i : Nat) (call : RefreshCall τ) (credential : OAuthCredential τ) (version : Nat),
    q.calls[i]? = some call → call.stage = .refreshing credential version →
    q.stored = some (.oauth credential) ∧ q.version = version ∧ version ∉ q.replaced
  alone : ∀ (i j : Nat) (call call' : RefreshCall τ) (c c' : OAuthCredential τ) (v v' : Nat),
    q.calls[i]? = some call → q.calls[j]? = some call' → call.stage = .refreshing c v →
    call'.stage = .refreshing c' v' → i = j
  accounted : ∀ (i : Nat) (call : RefreshCall τ) (credential : OAuthCredential τ), q.calls[i]? = some call →
    call.result = some (.ok (some credential)) → credential ∈ q.committed ∨ Checked r call credential
  minimum : ∀ (i : Nat) (call : RefreshCall τ) (credential : OAuthCredential τ), q.calls[i]? = some call →
    call.result = some (.ok (some credential)) → call.minimum.isSome → Checked r call credential

/-! ## The invariant -/

/-- What a call that returned a credential has of it. -/
def Accounted (r : Refresher τ) (q : Authority τ) (call : RefreshCall τ) : Prop :=
  ∀ credential, call.result = some (.ok (some credential)) →
    (credential ∈ q.committed ∨ Checked r call credential) ∧ (call.minimum.isSome → Checked r call credential)

/-- What a call's stage says of it and of the store. -/
def Fits (r : Refresher τ) (q : Authority τ) (i : Nat) (call : RefreshCall τ) : Prop :=
  match call.stage with
  | .reading => Accounted r q call
  | .queued => ∀ answer, call.result ≠ some (.ok answer)
  | .holding current => q.holder = some i ∧ q.stored = current ∧ ∀ answer, call.result ≠ some (.ok answer)
  | .refreshing credential version => q.holder = some i ∧ q.stored = some (.oauth credential) ∧ q.version = version ∧
      ∀ answer, call.result ≠ some (.ok answer)
  | .settled outcome => Accounted r q call ∧ (call.result = none → ∀ credential,
      outcome = .ok (some (.oauth credential)) → credential ∈ q.committed ∨ Checked r call credential)

/-- Every call fits, and versions only grow. -/
structure Sound (r : Refresher τ) (q : Authority τ) : Prop where
  fits : ∀ (i : Nat) (call : RefreshCall τ), q.calls[i]? = some call → Fits r q i call
  replaced : ∀ v ∈ q.replaced, v < q.version

theorem sound_initial (r : Refresher τ) (stored : Option (Credential τ)) : Sound r (initial stored) :=
  ⟨by simp [initial], by simp [initial]⟩

variable {r : Refresher τ} {q q' : Authority τ} {i : Nat} {call : RefreshCall τ}

theorem Accounted.mono (h : Accounted r q call) (hcommitted : ∀ c ∈ q.committed, c ∈ q'.committed) :
    Accounted r q' call := by
  intro credential hresult
  obtain ⟨hwhere, hminimum⟩ := h credential hresult
  exact ⟨hwhere.imp_left (hcommitted credential), hminimum⟩

theorem accounted_of_not_ok (h : ∀ answer, call.result ≠ some (.ok answer)) : Accounted r q call :=
  fun _ hresult => absurd hresult (h _)

/-- A call fits as long as the id stays with it, if it has it. -/
theorem Fits.mono (h : Fits r q i call)
    (hkept : q.holder = some i → q'.holder = some i ∧ q'.stored = q.stored ∧ q'.version = q.version)
    (hcommitted : ∀ c ∈ q.committed, c ∈ q'.committed) : Fits r q' i call := by
  unfold Fits at h ⊢
  split at h
  case h_1 => exact h.mono hcommitted
  case h_2 => exact h
  case h_3 =>
    obtain ⟨hholder, hstored, hresult⟩ := h
    obtain ⟨hholder', hstored', -⟩ := hkept hholder
    exact ⟨hholder', hstored'.trans hstored, hresult⟩
  case h_4 =>
    obtain ⟨hholder, hstored, hversion, hresult⟩ := h
    obtain ⟨hholder', hstored', hversion'⟩ := hkept hholder
    exact ⟨hholder', hstored'.trans hstored, hversion'.trans hversion, hresult⟩
  case h_5 =>
    exact ⟨h.1.mono hcommitted, fun hnone c hc => (h.2 hnone c hc).imp_left (hcommitted c)⟩

/-- A step that changes one call and leaves the id to whoever else holds it. -/
theorem Sound.change (h : Sound r q) {f : RefreshCall τ → RefreshCall τ} (hi : q.calls[i]? = some call)
    (hcalls : q'.calls = q.calls.modify i f)
    (hkept : ∀ j, j ≠ i → q.holder = some j →
      q'.holder = some j ∧ q'.stored = q.stored ∧ q'.version = q.version)
    (hcommitted : ∀ c ∈ q.committed, c ∈ q'.committed) (hreplaced : ∀ v ∈ q'.replaced, v < q'.version)
    (hfits : Fits r q' i (f call)) : Sound r q' := by
  refine ⟨fun j call' hj => ?_, hreplaced⟩
  rw [hcalls] at hj
  rcases Table.getElem?_modify_cases hj with ⟨rfl, old, hold, rfl⟩ | ⟨hne, hold⟩
  · rw [hi] at hold
    cases hold
    exact hfits
  · exact (h.fits j call' hold).mono (hkept j (Ne.symm hne)) hcommitted

/-- The holder of the id is the one whose stage says so. -/
theorem Sound.holder (h : Sound r q) (hi : q.calls[i]? = some call)
    (hstage : (∃ current, call.stage = .holding current) ∨ ∃ c v, call.stage = .refreshing c v) :
    q.holder = some i ∧ ∀ answer, call.result ≠ some (.ok answer) := by
  have hfits := h.fits i call hi
  rcases hstage with ⟨current, hstage⟩ | ⟨c, v, hstage⟩
  · rw [Fits, hstage] at hfits
    exact ⟨hfits.1, hfits.2.2⟩
  · rw [Fits, hstage] at hfits
    exact ⟨hfits.1, hfits.2.2.2⟩

/-- The guarantees follow. -/
theorem Sound.guarded (h : Sound r q) : Guarded r q := by
  have haccounted : ∀ (i : Nat) (call : RefreshCall τ), q.calls[i]? = some call → Accounted r q call := by
    intro i call hi
    have hfits := h.fits i call hi
    unfold Fits at hfits
    split at hfits
    case h_1 => exact hfits
    case h_2 => exact accounted_of_not_ok hfits
    case h_3 => exact accounted_of_not_ok hfits.2.2
    case h_4 => exact accounted_of_not_ok hfits.2.2.2
    case h_5 => exact hfits.1
  constructor
  · intro i call credential version hi hstage
    have hfits := h.fits i call hi
    rw [Fits, hstage] at hfits
    obtain ⟨-, hstored, hversion, -⟩ := hfits
    refine ⟨hstored, hversion, fun hmem => ?_⟩
    have := h.replaced version hmem
    omega
  · intro i j call call' c c' v v' hi hj hstage hstage'
    have hholder := (h.holder hi (.inr ⟨c, v, hstage⟩)).1
    have hholder' := (h.holder hj (.inr ⟨c', v', hstage'⟩)).1
    exact Option.some.inj (hholder.symm.trans hholder')
  · exact fun i call credential hi hresult => (haccounted i call hi credential hresult).1
  · exact fun i call credential hi hresult => (haccounted i call hi credential hresult).2

/-! ## Steps -/

/-- A change of a call alone. -/
theorem sound_modify (h : Sound r q) (hi : q.calls[i]? = some call) {f : RefreshCall τ → RefreshCall τ}
    (hfits : Fits r q i (f call)) : Sound r (q.modify i f) :=
  h.change hi rfl (fun _ _ hholder => ⟨hholder, rfl, rfl⟩) (fun _ hc => hc) h.replaced (hfits.mono (fun hholder =>
    ⟨hholder, rfl, rfl⟩) fun _ hc => hc)

/-- A call returns. -/
theorem sound_finish (h : Sound r q) (hi : q.calls[i]? = some call)
    {result : Except AuthorityError (Option (OAuthCredential τ))}
    (hstage : ∀ answer, result = .ok answer → call.stage = .reading ∨ ∃ outcome, call.stage = .settled outcome)
    (hresult : ∀ credential, result = .ok (some credential) →
      (credential ∈ q.committed ∨ Checked r call credential) ∧ (call.minimum.isSome → Checked r call credential)) :
    Sound r (finish q i result) := by
  have hfits := h.fits i call hi
  have hnot : (∃ answer, result = .ok answer) → call.stage = .reading ∨ ∃ outcome, call.stage = .settled outcome :=
    fun ⟨answer, heq⟩ => hstage answer heq
  have haccounted : Accounted r q { call with result := some result } := fun credential heq =>
    hresult credential (Option.some.inj heq)
  refine sound_modify h hi ?_
  cases hcall : call.stage with
  | reading => simpa only [Fits, hcall] using haccounted
  | queued =>
    rw [Fits, hcall] at hfits
    simp only [Fits]
    intro answer heq
    simpa [hcall] using hnot ⟨answer, Option.some.inj heq⟩
  | holding current =>
    rw [Fits, hcall] at hfits
    simp only [Fits]
    refine ⟨hfits.1, hfits.2.1, fun answer heq => ?_⟩
    simpa [hcall] using hnot ⟨answer, Option.some.inj heq⟩
  | refreshing credential version =>
    rw [Fits, hcall] at hfits
    simp only [Fits]
    refine ⟨hfits.1, hfits.2.1, hfits.2.2.1, fun answer heq => ?_⟩
    simpa [hcall] using hnot ⟨answer, Option.some.inj heq⟩
  | settled outcome =>
    simp only [Fits]
    exact ⟨haccounted, by simp⟩

/-- An operation ends without a write. -/
theorem sound_settle (h : Sound r q) (hi : q.calls[i]? = some call) (hopen : ∀ answer, call.result ≠ some (.ok answer))
    {outcome : Except ModifyFailure (Option (Credential τ))}
    (houtcome : ∀ credential, outcome = .ok (some (.oauth credential)) →
      credential ∈ q.committed ∨ Checked r call credential) : Sound r (settle q i outcome) := by
  refine h.change hi rfl (fun j hne hholder => ⟨?_, rfl, rfl⟩) (fun _ hc => hc) h.replaced ?_
  · rw [settle]
    simp only [hholder, Option.some.injEq, hne, if_false]
  · exact ⟨accounted_of_not_ok hopen, fun _ => houtcome⟩

/-- A refreshed credential is stored. -/
theorem sound_commit (h : Sound r q) (hi : q.calls[i]? = some call) {old : OAuthCredential τ} {version : Nat}
    (hstage : call.stage = .refreshing old version) (credential : OAuthCredential τ) :
    Sound r (commit q i credential) := by
  obtain ⟨hholder, hopen⟩ := h.holder hi (.inr ⟨old, version, hstage⟩)
  refine h.change hi rfl (fun j hne hj => ?_) (fun c hc => List.mem_cons_of_mem _ hc) (fun v hv => ?_) ?_
  · exact absurd (Option.some.inj (hj.symm.trans hholder)) hne
  · rcases List.mem_cons.mp hv with rfl | hv
    · exact Nat.lt_succ_self _
    · exact Nat.lt_succ_of_lt (h.replaced v hv)
  · refine ⟨accounted_of_not_ok hopen, fun _ c hc => .inl ?_⟩
    simp only [Except.ok.injEq, Option.some.injEq, Credential.oauth.injEq] at hc
    simp [commit, hc]

/-! ## Checks -/

variable {minimum : Option τ} {now : τ} {stored : Option (Credential τ)} {event : RefreshEvent τ}

theorem examine_inl {credential : OAuthCredential τ}
    (h : r.examine minimum now stored = .inl credential) :
    stored = some (.oauth credential) ∧ expiresSoon credential (r.threshold minimum) now = true := by
  unfold Refresher.examine at h
  split at h
  case h_1 c =>
    split at h
    case isTrue hsoon =>
      cases h
      exact ⟨rfl, hsoon⟩
    case isFalse => contradiction
  case h_2 => contradiction

theorem examine_inr {credential : OAuthCredential τ}
    (h : r.examine minimum now stored = .inr (some credential)) :
    stored = some (.oauth credential) ∧ expiresSoon credential (r.threshold minimum) now = false := by
  unfold Refresher.examine at h
  split at h
  case h_1 c =>
    split at h
    case isTrue => contradiction
    case isFalse hsoon =>
      obtain rfl := Option.some.inj (Sum.inr.inj h)
      exact ⟨rfl, by simpa using hsoon⟩
  case h_2 => simp at h

theorem examine_none (h : r.examine minimum now stored = .inr none) (credential : OAuthCredential τ) :
    stored ≠ some (.oauth credential) := by
  rintro rfl
  unfold Refresher.examine at h
  simp only at h
  split at h <;> simp at h

theorem conclude_ok {outcome : Except ModifyFailure (Option (Credential τ))}
    {credential : OAuthCredential τ} (h : r.conclude minimum now outcome = .ok (some credential)) :
    outcome = .ok (some (.oauth credential)) ∧
      (minimum.isSome → expiresSoon credential (r.threshold minimum) now = false) := by
  unfold Refresher.conclude at h
  split at h
  case h_1 => contradiction
  case h_2 => contradiction
  case h_3 c =>
    split at h
    case isTrue => contradiction
    case isFalse hsoon =>
      simp only [Except.ok.injEq, Option.some.injEq] at h
      subst h
      refine ⟨rfl, fun hsome => ?_⟩
      simpa [hsome] using hsoon
  case h_4 => simp at h

/-! ## Runs -/

/-- A call reads what is stored, outside the lock. -/
theorem sound_read (h : Sound r q) (hi : q.calls[i]? = some call)
    (hact : act r q call (.read i now) = some q') : Sound r q' := by
  simp only [act] at hact
  split at hact
  case h_2 => contradiction
  case h_1 hstage hresult =>
    split at hact
    case isTrue =>
      cases hact
      exact sound_finish h hi (by simp) (by simp)
    case isFalse =>
      split at hact
      case h_1 credential _ =>
        cases hact
        refine sound_modify h hi ?_
        simp [Fits, hresult]
      case h_2 credential hexamine =>
        cases hact
        have houtside := (examine_inr hexamine).2
        refine sound_modify h hi ?_
        simp only [Fits, hstage]
        intro c hc
        simp only [Option.some.injEq, Except.ok.injEq] at hc
        subst hc
        have hchecked : Checked r { call with
            checked := some (credential, now), result := some (.ok (some credential)) } credential :=
          ⟨now, rfl, houtside⟩
        exact ⟨.inr hchecked, fun _ => hchecked⟩
      case h_3 =>
        cases hact
        exact sound_finish h hi (fun _ _ => .inl hstage) (by simp)

/-- A call gets the id. -/
theorem sound_turn (h : Sound r q) (hi : q.calls[i]? = some call)
    (hact : act r q call (.turn i) = some q') : Sound r q' := by
  have hfits := h.fits i call hi
  simp only [act] at hact
  split at hact
  case h_2 => contradiction
  case h_1 hstage hholder =>
    rw [Fits, hstage] at hfits
    split at hact
    case isTrue =>
      cases hact
      exact sound_settle h hi hfits (by simp)
    case isFalse =>
      cases hact
      refine h.change hi rfl (fun k _ hk => ?_) (fun _ hc => hc) h.replaced ⟨rfl, rfl, hfits⟩
      simp [hholder] at hk

/-- A call checks what is stored, under the lock. -/
theorem sound_check (h : Sound r q) (hi : q.calls[i]? = some call)
    (hact : act r q call (.check i now) = some q') : Sound r q' := by
  have hfits := h.fits i call hi
  simp only [act] at hact
  split at hact
  case h_2 => contradiction
  case h_1 current hstage =>
    rw [Fits, hstage] at hfits
    obtain ⟨hholder, hstored, hopen⟩ := hfits
    split at hact
    case h_1 credential hexamine =>
      cases hact
      refine h.change hi rfl (fun k _ hk => ⟨hk, rfl, rfl⟩) (fun _ hc => hc) h.replaced ⟨hholder, ?_, rfl, hopen⟩
      exact hstored.trans (examine_inl hexamine).1
    case h_2 credential hexamine =>
      cases hact
      obtain ⟨hcurrent, houtside⟩ := examine_inr hexamine
      have hmodified : Sound r (q.modify i fun call => { call with checked := some (credential, now) }) := by
        refine sound_modify h hi ?_
        simpa only [Fits, hstage] using ⟨hholder, hstored, hopen⟩
      have hj : (q.modify i fun call => { call with checked := some (credential, now) }).calls[i]? =
          some { call with checked := some (credential, now) } := by
        simp [modify, hi]
      refine sound_settle hmodified hj hopen fun c hc => .inr ?_
      split at hc
      case isTrue => contradiction
      case isFalse =>
        rw [hcurrent] at hc
        simp only [Except.ok.injEq, Option.some.injEq, Credential.oauth.injEq] at hc
        subst hc
        exact ⟨now, rfl, houtside⟩
    case h_3 hexamine =>
      cases hact
      refine sound_settle h hi hopen fun c hc => ?_
      split at hc
      case isTrue => contradiction
      case isFalse => exact absurd (Except.ok.inj hc) (examine_none hexamine c)

/-- A refresh ends. -/
theorem sound_refreshed {outcome : Except String (OAuthCredential τ)} (h : Sound r q) (hi : q.calls[i]? = some call)
    (hact : act r q call (.refreshed i outcome) = some q') : Sound r q' := by
  simp only [act] at hact
  split at hact
  case h_3 => contradiction
  case h_1 old version message hstage =>
    cases hact
    exact sound_settle h hi (h.holder hi (.inr ⟨old, version, hstage⟩)).2 (by simp)
  case h_2 old version credential hstage =>
    split at hact
    case isTrue =>
      cases hact
      exact sound_settle h hi (h.holder hi (.inr ⟨old, version, hstage⟩)).2 (by simp)
    case isFalse =>
      cases hact
      exact sound_commit h hi hstage credential

/-- An operation of the store fails. -/
theorem sound_fail {message : String} (h : Sound r q) (hi : q.calls[i]? = some call)
    (hact : act r q call (.fail i message) = some q') : Sound r q' := by
  have hfits := h.fits i call hi
  simp only [act] at hact
  split at hact
  case h_1 hstage hresult =>
    cases hact
    exact sound_finish h hi (by simp) (by simp)
  case h_2 => contradiction
  case h_3 => contradiction
  case h_4 hsettled hreading hreading' =>
    cases hact
    refine sound_settle h hi ?_ (by simp)
    cases hstage : call.stage with
    | reading =>
      cases hresult : call.result with
      | none => exact absurd hresult (hreading hstage)
      | some result => exact absurd hresult (hreading' result hstage)
    | queued =>
      rw [Fits, hstage] at hfits
      exact hfits
    | holding current => exact (h.holder hi (.inl ⟨current, hstage⟩)).2
    | refreshing credential version => exact (h.holder hi (.inr ⟨credential, version, hstage⟩)).2
    | settled outcome => exact absurd hstage (hsettled outcome)

/-- A call receives what its operation ended with. -/
theorem sound_receive (h : Sound r q) (hi : q.calls[i]? = some call)
    (hact : act r q call (.receive i now) = some q') : Sound r q' := by
  have hfits := h.fits i call hi
  simp only [act] at hact
  split at hact
  case h_2 => contradiction
  case h_1 outcome hstage hresult =>
    rw [Fits, hstage] at hfits
    have hsettled := hfits.2 hresult
    split at hact
    case h_1 _ credential minimum hminimum =>
      -- the final check of an explicit minimum is recorded, and decides
      cases hact
      refine sound_modify h hi ?_
      simp only [Fits, hstage]
      refine ⟨fun c hc => ?_, by simp⟩
      obtain ⟨heq, houtside⟩ := conclude_ok (Option.some.inj hc)
      simp only [Except.ok.injEq, Option.some.injEq, Credential.oauth.injEq] at heq
      subst heq
      have hchecked : Checked r { call with
          checked := some (credential, now)
          result := some (r.conclude call.minimum now (.ok (some (.oauth credential)))) } credential :=
        ⟨now, rfl, houtside (by simp [hminimum])⟩
      exact ⟨.inr hchecked, fun _ => hchecked⟩
    case h_2 hnot =>
      cases hact
      refine sound_finish h hi (fun _ _ => .inr ⟨_, hstage⟩) fun c hc => ?_
      obtain ⟨rfl, houtside⟩ := conclude_ok hc
      refine ⟨hsettled c rfl, fun hsome => ?_⟩
      obtain ⟨minimum, hminimum⟩ := Option.isSome_iff_exists.mp hsome
      exact (hnot c minimum rfl hminimum).elim

/-- A call or its operation goes on. -/
theorem sound_act (h : Sound r q) (htarget : event.target = some i)
    (hi : q.calls[i]? = some call) (hact : act r q call event = some q') : Sound r q' := by
  have hfits := h.fits i call hi
  cases event with
  | call minimum => simp [act] at hact
  | write value => simp [act] at hact
  | abort j =>
    cases htarget
    cases hact
    exact sound_modify h hi hfits
  | read j now =>
    cases htarget
    exact sound_read h hi hact
  | turn j =>
    cases htarget
    exact sound_turn h hi hact
  | check j now =>
    cases htarget
    exact sound_check h hi hact
  | refreshed j outcome =>
    cases htarget
    exact sound_refreshed h hi hact
  | fail j message =>
    cases htarget
    exact sound_fail h hi hact
  | giveUp j =>
    cases htarget
    simp only [act] at hact
    split at hact
    case h_1 => contradiction
    case h_3 => contradiction
    case h_2 =>
      split at hact
      case isFalse => contradiction
      case isTrue =>
        cases hact
        exact sound_finish h hi (by simp) (by simp)
  | receive j now =>
    cases htarget
    exact sound_receive h hi hact

theorem step_of_target (h : event.target = some i) :
    step r q event = (q.calls[i]?).bind (act r q · event) := by
  cases event with
  | call minimum | write value => simp [RefreshEvent.target] at h
  | abort j | read j _ | turn j | check j _ | refreshed j _ | fail j _ | giveUp j | receive j _ =>
    cases h
    rfl

/-- Every step keeps the invariant. -/
theorem sound_step (h : Sound r q) (hstep : step r q event = some q') : Sound r q' := by
  cases htarget : event.target with
  | some i =>
    rw [step_of_target htarget] at hstep
    obtain ⟨call, hi, hact⟩ := Option.bind_eq_some_iff.mp hstep
    exact sound_act h htarget hi hact
  | none =>
    cases event with
    | call minimum =>
      cases hstep
      refine ⟨fun j call hj => ?_, h.replaced⟩
      rcases Table.getElem?_concat_cases hj with hj | ⟨-, rfl⟩
      · exact (h.fits j call hj).mono (fun hholder => ⟨hholder, rfl, rfl⟩) fun _ hc => hc
      · simp [Fits, Accounted]
    | write value =>
      simp only [step] at hstep
      split at hstep
      case isFalse => contradiction
      case isTrue hfree =>
        cases hstep
        refine ⟨fun j call hj => ?_, fun v hv => Nat.lt_succ_of_lt (h.replaced v hv)⟩
        exact (h.fits j call hj).mono (fun hholder => by simp [hfree] at hholder) fun _ hc => hc
    | abort j | read j _ | turn j | check j _ | refreshed j _ | fail j _ | giveUp j | receive j _ =>
      simp [RefreshEvent.target] at htarget

/-- And so does every run. -/
theorem sound_run {es : List (RefreshEvent τ)} (h : run r stored es = some q) : Sound r q :=
  Transition.run_preserves (fun _ _ _ hsound hstep => sound_step hsound hstep) h (sound_initial r stored)

/-! ## One refresh -/

/-- Every refresh returns a fresh credential that is kept, nobody else stores an
OAuth credential that is not fresh, and fresh ones are outside the threshold of
whoever checks under the lock. -/
def Lasting (r : Refresher τ) (fresh : OAuthCredential τ → Prop) (q : Authority τ) : RefreshEvent τ → Prop
  | .refreshed i outcome => (∃ credential, outcome = .ok credential ∧ fresh credential) ∧
      ∀ call, q.calls[i]? = some call → call.aborted = false
  | .fail i _ => ∀ call, q.calls[i]? = some call → ∀ credential version, call.stage ≠ .refreshing credential version
  | .check i now => ∀ call, q.calls[i]? = some call → ∀ credential, fresh credential →
      expiresSoon credential (r.threshold call.minimum) now = false
  | .write value => ∀ credential, value = some (.oauth credential) → fresh credential
  | _ => True

/-- At most one refresh was invoked; it is running, or what is stored needs no
other. -/
structure Once (fresh : OAuthCredential τ → Prop) (q : Authority τ) : Prop where
  length : q.invoked.length ≤ 1
  settled : q.invoked ≠ [] → (∃ (i : Nat) (call : RefreshCall τ) (credential : OAuthCredential τ) (version : Nat),
      q.calls[i]? = some call ∧ call.stage = .refreshing credential version) ∨
    ∀ credential, q.stored = some (.oauth credential) → fresh credential

variable {fresh : OAuthCredential τ → Prop}

omit [Double τ] in
theorem once_initial (stored : Option (Credential τ)) : Once fresh (initial stored) :=
  ⟨by simp [initial], by simp [initial]⟩

omit [Double τ] in
/-- A step of a call that ends no refresh and writes nothing. -/
theorem Once.change (h : Once fresh q) {f : RefreshCall τ → RefreshCall τ} (hi : q.calls[i]? = some call)
    (hcalls : q'.calls = q.calls.modify i f) (hinvoked : q'.invoked = q.invoked) (hstored : q'.stored = q.stored)
    (hstage : ∀ credential version, call.stage = .refreshing credential version →
      (f call).stage = .refreshing credential version) : Once fresh q' := by
  refine ⟨by rw [hinvoked]; exact h.length, fun hne => ?_⟩
  rw [hinvoked] at hne
  rw [hstored]
  refine (h.settled hne).imp_left ?_
  rintro ⟨j, call', credential, version, hj, hrefreshing⟩
  have hkept : ∃ call'', (q.calls.modify i f)[j]? = some call'' ∧ call''.stage = .refreshing credential version := by
    refine Table.exists_getElem?_modify hj hrefreshing ?_
    rintro rfl
    rw [hi] at hj
    cases hj
    exact hstage credential version hrefreshing
  obtain ⟨call'', hj', hrefreshing'⟩ := hkept
  exact ⟨j, call'', credential, version, by rw [hcalls]; exact hj', hrefreshing'⟩

omit [Double τ] in
/-- A step of a call that awaits no refresh. -/
theorem Once.idle (h : Once fresh q) {f : RefreshCall τ → RefreshCall τ} (hi : q.calls[i]? = some call)
    (hcalls : q'.calls = q.calls.modify i f) (hinvoked : q'.invoked = q.invoked) (hstored : q'.stored = q.stored)
    (hidle : ∀ credential version, call.stage ≠ .refreshing credential version) : Once fresh q' :=
  h.change hi hcalls hinvoked hstored fun credential version hstage => absurd hstage (hidle credential version)

/-- The stored credential that expires soon is refreshed only once. -/
theorem Once.invoke (h : Once fresh q) (hsound : Sound r q) (hi : q.calls[i]? = some call)
    {credential : OAuthCredential τ} (hstage : call.stage = .holding q.stored)
    (hstored : q.stored = some (.oauth credential)) (hstale : ¬ fresh credential) : q.invoked = [] := by
  by_contra hne
  rcases h.settled hne with ⟨j, call', c, v, hj, hrefreshing⟩ | hfresh
  · -- the id is held by one of the two
    have hholder := (hsound.holder hi (.inl ⟨_, hstage⟩)).1
    have hholder' := (hsound.holder hj (.inr ⟨c, v, hrefreshing⟩)).1
    obtain rfl : i = j := Option.some.inj (hholder.symm.trans hholder')
    rw [hi] at hj
    cases hj
    simp [hstage] at hrefreshing
  · exact hstale (hfresh credential hstored)

theorem once_read (h : Once fresh q) (hi : q.calls[i]? = some call)
    (hact : act r q call (.read i now) = some q') : Once fresh q' := by
  simp only [act] at hact
  split at hact
  case h_2 => contradiction
  case h_1 hstage hresult =>
    have hidle : ∀ c v, call.stage ≠ .refreshing c v := by simp [hstage]
    split at hact
    case isTrue =>
      cases hact
      exact h.idle hi rfl rfl rfl hidle
    case isFalse =>
      split at hact <;> cases hact <;> exact h.idle hi rfl rfl rfl hidle

theorem once_turn (h : Once fresh q) (hi : q.calls[i]? = some call)
    (hact : act r q call (.turn i) = some q') : Once fresh q' := by
  simp only [act] at hact
  split at hact
  case h_2 => contradiction
  case h_1 hstage hholder =>
    have hidle : ∀ c v, call.stage ≠ .refreshing c v := by simp [hstage]
    split at hact <;> cases hact <;> exact h.idle hi rfl rfl rfl hidle

/-- A check invokes a refresh only of a credential that is not fresh. -/
theorem once_check (h : Once fresh q) (hsound : Sound r q)
    (hlasting : Lasting r fresh q (.check i now)) (hi : q.calls[i]? = some call)
    (hact : act r q call (.check i now) = some q') : Once fresh q' := by
  have hfits := hsound.fits i call hi
  simp only [act] at hact
  split at hact
  case h_2 => contradiction
  case h_1 current hstage =>
    have hidle : ∀ c v, call.stage ≠ .refreshing c v := by simp [hstage]
    rw [Fits, hstage] at hfits
    obtain ⟨-, hstored, -⟩ := hfits
    split at hact
    case h_1 credential hexamine =>
      cases hact
      obtain ⟨hcurrent, hsoon⟩ := examine_inl hexamine
      have hstale : ¬ fresh credential := fun hfresh => by
        have := hlasting call hi credential hfresh
        simp [this] at hsoon
      have hempty := h.invoke hsound hi (by rw [hstage, hstored]) (hstored.trans hcurrent) hstale
      let started : RefreshCall τ :=
        { call with stage := .refreshing credential q.version, checked := some (credential, now) }
      refine ⟨by simp [hempty], fun _ => .inl ⟨i, started, credential, q.version, ?_, rfl⟩⟩
      simp [modify, hi, started]
    case h_2 credential hexamine =>
      cases hact
      have hmodified : Once fresh (q.modify i fun call => { call with checked := some (credential, now) }) :=
        h.idle hi rfl rfl rfl hidle
      have hj : (q.modify i fun call => { call with checked := some (credential, now) }).calls[i]? =
          some { call with checked := some (credential, now) } := by
        simp [modify, hi]
      exact hmodified.idle hj rfl rfl rfl hidle
    case h_3 =>
      cases hact
      exact h.idle hi rfl rfl rfl hidle

/-- A refresh stores a fresh credential. -/
theorem once_refreshed {outcome : Except String (OAuthCredential τ)} (h : Once fresh q)
    (hlasting : Lasting r fresh q (.refreshed i outcome)) (hi : q.calls[i]? = some call)
    (hact : act r q call (.refreshed i outcome) = some q') : Once fresh q' := by
  obtain ⟨⟨credential, rfl, hfresh⟩, haborted⟩ := hlasting
  simp only [act] at hact
  split at hact
  case h_3 => contradiction
  case h_1 hnone => contradiction
  case h_2 hstage heq =>
    cases heq
    rw [if_neg (by simp [haborted call hi])] at hact
    cases hact
    refine ⟨h.length, fun _ => .inr fun c hc => ?_⟩
    simp only [commit, Option.some.injEq, Credential.oauth.injEq] at hc
    exact hc ▸ hfresh

theorem once_fail {message : String} (h : Once fresh q)
    (hlasting : Lasting r fresh q (.fail i message)) (hi : q.calls[i]? = some call)
    (hact : act r q call (.fail i message) = some q') : Once fresh q' := by
  have hidle := hlasting call hi
  simp only [act] at hact
  split at hact
  case h_1 =>
    cases hact
    exact h.idle hi rfl rfl rfl hidle
  case h_2 => contradiction
  case h_3 => contradiction
  case h_4 =>
    cases hact
    exact h.idle hi rfl rfl rfl hidle

theorem once_receive (h : Once fresh q) (hi : q.calls[i]? = some call)
    (hact : act r q call (.receive i now) = some q') : Once fresh q' := by
  simp only [act] at hact
  split at hact
  case h_2 => contradiction
  case h_1 outcome hstage hresult =>
    split at hact <;> cases hact <;> exact h.change hi rfl rfl rfl fun _ _ hc => hc

/-- A call or its operation goes on, and every refresh lasts. -/
theorem once_act (h : Once fresh q) (hsound : Sound r q) (hlasting : Lasting r fresh q event)
    (htarget : event.target = some i) (hi : q.calls[i]? = some call) (hact : act r q call event = some q') :
    Once fresh q' := by
  cases event with
  | call minimum => simp [act] at hact
  | write value => simp [act] at hact
  | abort j =>
    cases htarget
    cases hact
    exact h.change hi rfl rfl rfl fun _ _ hc => hc
  | read j now =>
    cases htarget
    exact once_read h hi hact
  | turn j =>
    cases htarget
    exact once_turn h hi hact
  | check j now =>
    cases htarget
    exact once_check h hsound hlasting hi hact
  | refreshed j outcome =>
    cases htarget
    exact once_refreshed h hlasting hi hact
  | fail j message =>
    cases htarget
    exact once_fail h hlasting hi hact
  | giveUp j =>
    cases htarget
    simp only [act] at hact
    split at hact
    case h_1 => contradiction
    case h_3 => contradiction
    case h_2 =>
      split at hact
      case isFalse => contradiction
      case isTrue =>
        cases hact
        exact h.change hi rfl rfl rfl fun _ _ hc => hc
  | receive j now =>
    cases htarget
    exact once_receive h hi hact

/-- A step whose refreshes last keeps the invariant. -/
theorem once_step (h : Once fresh q) (hsound : Sound r q) (hlasting : Lasting r fresh q event)
    (hstep : step r q event = some q') : Once fresh q' := by
  cases htarget : event.target with
  | some i =>
    rw [step_of_target htarget] at hstep
    obtain ⟨call, hi, hact⟩ := Option.bind_eq_some_iff.mp hstep
    exact once_act h hsound hlasting htarget hi hact
  | none =>
    cases event with
    | call minimum =>
      cases hstep
      refine ⟨h.length, fun hne => (h.settled hne).imp_left ?_⟩
      rintro ⟨j, call, credential, version, hj, hrefreshing⟩
      have hlt := (List.getElem?_eq_some_iff.mp hj).1
      exact ⟨j, call, credential, version, (List.getElem?_append_left hlt).trans hj, hrefreshing⟩
    | write value =>
      simp only [step] at hstep
      split at hstep
      case isFalse => contradiction
      case isTrue =>
        cases hstep
        exact ⟨h.length, fun _ => .inr hlasting⟩
    | abort j | read j _ | turn j | check j _ | refreshed j _ | fail j _ | giveUp j | receive j _ =>
      simp [RefreshEvent.target] at htarget

/-- And so does a run of such steps. -/
theorem once_run {es : List (RefreshEvent τ)}
    (hlasting : Transition.Along (step r) (Lasting r fresh) (initial stored) es) (h : run r stored es = some q) :
    Once fresh q := by
  have hkept := @Transition.run_preserves_along _ _ (step r) (fun s => Sound r s ∧ Once fresh s) (Lasting r fresh)
    (fun _ _ _ hs hlast hstep => ⟨sound_step hs.1 hstep, once_step hs.2 hs.1 hlast hstep⟩) _ _ _ h hlasting
  exact (hkept ⟨sound_initial r stored, once_initial stored⟩).2

end Authority

/-! ## Both functions -/

/-- What holds of a run: the guarantees, and that one refresh is all where every
refresh lasts. -/
structure Authority.NoDoubleRefresh {τ : Type} [Double τ] (r : Refresher τ) (stored : Option (Credential τ))
    (es : List (RefreshEvent τ)) (q : Authority τ) : Prop where
  guarded : Authority.Guarded r q
  once : ∀ fresh : OAuthCredential τ → Prop,
    Transition.Along (Authority.step r) (Authority.Lasting r fresh) (Authority.initial stored) es → q.invoked.length ≤ 1

theorem Authority.noDoubleRefresh_of_run {τ : Type} [Double τ] {r : Refresher τ} {stored : Option (Credential τ)}
    {es : List (RefreshEvent τ)} {q : Authority τ} (h : Authority.run r stored es = some q) :
    Authority.NoDoubleRefresh r stored es q where
  guarded := (Authority.sound_run h).guarded
  once _ hlasting := (Authority.once_run hlasting h).length

/-- Neither function refreshes twice, in any run. -/
theorem single_refresh {τ : Type} [Double τ] (providerId : String) (stored : Option (Credential τ))
    (es : List (RefreshEvent τ)) (q : Authority τ) :
    (Authority.run (refreshIfExpiring τ providerId) stored es = some q →
      Authority.NoDoubleRefresh (refreshIfExpiring τ providerId) stored es q) ∧
    (Authority.run (refreshIfExpiringAt τ providerId) stored es = some q →
      Authority.NoDoubleRefresh (refreshIfExpiringAt τ providerId) stored es q) :=
  ⟨Authority.noDoubleRefresh_of_run, Authority.noDoubleRefresh_of_run⟩

/-! ## Two callers -/

/-- Doubles that are whole numbers of milliseconds, or NaN. -/
inductive WholeMs
  | nan
  | ms (n : Int)
deriving DecidableEq

instance : Double WholeMs where
  add
    | .ms a, .ms b => .ms (a + b)
    | _, _ => .nan
  ge
    | .ms a, .ms b => decide (b ≤ a)
    | _, _ => false
  max
    | .ms a, .ms b => .ms (if a < b then b else a)
    | .nan, _ => .nan
    | .ms a, .nan => .ms a
  nan := .nan
  isNan a := a == .nan
  zero := .ms 0
  isZero a := a == .ms 0
  fiveMinutes := .ms 300000

/-- A credential that has expired, and one that lasts. -/
def expiredCredential : OAuthCredential WholeMs := { access := "a", refresh := "r", expires := .ms 0 }
def lastingCredential : OAuthCredential WholeMs := { access := "b", refresh := "s", expires := .ms 3600000 }

/-- Two callers find the credential expired; the second one's turn comes after
the first one's refresh. -/
def twoCallers : List (RefreshEvent WholeMs) :=
  [.call none, .call (some (.ms 60000)), .read 0 (.ms 0), .read 1 (.ms 1), .turn 0, .check 0 (.ms 2),
    .refreshed 0 (.ok lastingCredential), .turn 1, .check 1 (.ms 3), .receive 1 (.ms 4), .receive 0 (.ms 5)]

/-- One refresh serves both. -/
theorem single_refresh_of_two :
    ∃ q, Authority.run (refreshIfExpiring WholeMs "'p'") (some (.oauth expiredCredential)) twoCallers = some q ∧
      q.calls.map RefreshCall.result = [some (.ok (some lastingCredential)), some (.ok (some lastingCredential))] ∧
      q.invoked.length ≤ 1 := by
  have hlasting : Transition.Along (Authority.step (refreshIfExpiring WholeMs "'p'"))
      (Authority.Lasting (refreshIfExpiring WholeMs "'p'") fun c => c = lastingCredential)
      (Authority.initial (some (.oauth expiredCredential))) twoCallers := by
    refine And.intro trivial (And.intro trivial (And.intro trivial (And.intro trivial (And.intro trivial ?_))))
    refine And.intro ?_ (And.intro ⟨⟨_, rfl, rfl⟩, ?_⟩ (And.intro trivial (And.intro ?_ ?_)))
    · intro call hcall c hc
      cases hcall
      subst hc
      decide
    · intro call hcall
      cases hcall
      rfl
    · intro call hcall c hc
      cases hcall
      subst hc
      decide
    · exact And.intro trivial (And.intro trivial trivial)
  have hboth := single_refresh "'p'" (some (.oauth expiredCredential)) twoCallers
  exact ⟨_, rfl, by decide, ((hboth _).1 rfl).once _ hlasting⟩

/-- The first caller's signal aborts during its refresh, whose result is thrown
away, and the second caller refreshes the same credential again. -/
theorem refreshed_twice_after_abort :
    ∃ q, Authority.run (refreshIfExpiring WholeMs "'p'") (some (.oauth expiredCredential))
        [.call none, .call none, .read 0 (.ms 0), .read 1 (.ms 0), .turn 0, .check 0 (.ms 0), .abort 0,
          .refreshed 0 (.ok lastingCredential), .turn 1, .check 1 (.ms 0), .refreshed 1 (.ok lastingCredential)] =
            some q ∧
      q.invoked = [0, 1] ∧
      expiresSoon lastingCredential ((refreshIfExpiring WholeMs "'p'").threshold none) (.ms 0) = false := by
  exact ⟨_, rfl, rfl, by decide⟩

end MinionAgent
