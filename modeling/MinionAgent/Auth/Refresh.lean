import MinionAgent.Library.Transition

/-!
# MinionAgent.Auth.Refresh

`refresh_if_expiring` (`auth/refresh.py`) and `refresh_if_expiring_at`
(`refresh.rs`): a credential that expires soon is refreshed inside `modify`,
whose callback checks it once more.

The calls on one provider id are a transition system over a store whose
`modify` holds the id from its read to its write; the calls, their operations
and everybody else's writes interleave freely.
-/

namespace MinionAgent

/-! ## Credentials -/

/-- The operations on doubles that the checks use.  No law about them is
relied on. -/
class Double (τ : Type) where
  add : τ → τ → τ
  ge : τ → τ → Bool
  max : τ → τ → τ
  nan : τ
  isNan : τ → Bool
  zero : τ
  isZero : τ → Bool
  /-- 300000.0 -/
  fiveMinutes : τ

structure ApiKeyCredential where
  key : Option String
deriving DecidableEq

structure OAuthCredential (τ : Type) where
  access : String
  refresh : String
  expires : τ
deriving DecidableEq

/-- `Credential`. -/
inductive Credential (τ : Type)
  | apiKey (credential : ApiKeyCredential)
  | oauth (credential : OAuthCredential τ)
deriving DecidableEq

/-! ## Checks -/

section Checks

variable {τ : Type} [Double τ]

/-- `_expires_soon`, `expires_soon`. -/
def expiresSoon (credential : OAuthCredential τ) (minimumValidityMs nowMs : τ) : Bool :=
  Double.ge (Double.add nowMs minimumValidityMs) credential.expires

/-- `_js_style_max`, `js_max`. -/
def jsStyleMax (a b : τ) : τ := if Double.isNan a || Double.isNan b then Double.nan else Double.max a b

/-- `AuthorityError`: which of its kinds, and its text. -/
inductive AuthorityError
  | oauthRefresh (text : String)
  | credentialStore (text : String)
deriving DecidableEq

/-- What a failed `modify` raises: what its callback raised, or a failure of its
own. -/
inductive ModifyFailure
  | callback (error : AuthorityError)
  | store (message : String)
deriving DecidableEq

/-- What the two functions differ in. -/
structure Refresher (τ : Type) where
  /-- The trigger threshold of an explicit minimum. -/
  threshold : Option τ → τ
  readFailed : String → AuthorityError
  modifyFailed : String → AuthorityError
  refreshFailed : String → AuthorityError
  expiresTooSoon : AuthorityError

/-- `refresh_if_expiring`, for a provider id whose `repr` is given.  Its errors
name their causes apart from their texts. -/
def refreshIfExpiring (τ : Type) [Double τ] (providerId : String) : Refresher τ where
  threshold minimum :=
    let given := minimum.getD Double.zero
    jsStyleMax Double.fiveMinutes (if Double.isZero given then Double.zero else given)
  readFailed _ := .credentialStore s!"credential store read failed for {providerId}"
  modifyFailed _ := .credentialStore s!"credential store modify failed for {providerId}"
  refreshFailed _ := .oauthRefresh s!"OAuth refresh failed for {providerId}"
  expiresTooSoon := .oauthRefresh s!"OAuth refresh returned a token that expires too soon for {providerId}"

/-- `refresh_if_expiring_at`, for a provider id whose `Debug` text is given. -/
def refreshIfExpiringAt (τ : Type) [Double τ] (providerId : String) : Refresher τ where
  threshold minimum := jsStyleMax Double.fiveMinutes (minimum.getD Double.zero)
  readFailed message := .credentialStore s!"credential store read failed for {providerId}: {message}"
  modifyFailed message := .credentialStore s!"credential store modify failed for {providerId}: {message}"
  refreshFailed message := .oauthRefresh s!"OAuth refresh failed for {providerId}: {message}"
  expiresTooSoon := .oauthRefresh s!"OAuth refresh failed for {providerId}: refreshed token expires too soon"

namespace Refresher

variable (r : Refresher τ)

/-- The check of a stored credential: the one that expires soon, or the answer
where there is none. -/
def examine (minimum : Option τ) (now : τ) : Option (Credential τ) → OAuthCredential τ ⊕ Option (OAuthCredential τ)
  | some (.oauth credential) =>
    if expiresSoon credential (r.threshold minimum) now then .inl credential else .inr (some credential)
  | _ => .inr none

/-- What a call returns for the outcome of its `modify`. -/
def conclude (minimum : Option τ) (now : τ) :
    Except ModifyFailure (Option (Credential τ)) → Except AuthorityError (Option (OAuthCredential τ))
  | .error (.callback error) => .error error
  | .error (.store message) => .error (r.modifyFailed message)
  | .ok (some (.oauth credential)) =>
    if minimum.isSome && expiresSoon credential (r.threshold minimum) now then .error r.expiresTooSoon
    else .ok (some credential)
  | .ok _ => .ok none

end Refresher

end Checks

/-! ## Calls -/

/-- Where the operation of a call is. -/
inductive RefreshStage (τ : Type)
  /-- The call has yet to read the store. -/
  | reading
  /-- `modify` awaits its turn. -/
  | queued
  /-- `modify` holds the id and has read this value. -/
  | holding (current : Option (Credential τ))
  /-- The callback awaits `refresh` of this credential. -/
  | refreshing (credential : OAuthCredential τ) (version : Nat)
  | settled (outcome : Except ModifyFailure (Option (Credential τ)))

/-- A call: its explicit minimum, whether its signal has aborted, its latest
check, and its result once it has returned. -/
structure RefreshCall (τ : Type) where
  minimum : Option τ
  aborted : Bool := false
  stage : RefreshStage τ := .reading
  checked : Option (OAuthCredential τ × τ) := none
  result : Option (Except AuthorityError (Option (OAuthCredential τ))) := none

/-- The store at one id and the calls on it, with the callers of `refresh` in
order, the credentials that refreshes committed, and the versions they
replaced. -/
structure Authority (τ : Type) where
  stored : Option (Credential τ) := none
  version : Nat := 0
  holder : Option Nat := none
  calls : List (RefreshCall τ) := []
  invoked : List Nat := []
  committed : List (OAuthCredential τ) := []
  replaced : List Nat := []

/-- What can happen.  A clock reading is part of the event that makes it. -/
inductive RefreshEvent (τ : Type)
  | call (minimum : Option τ)
  | abort (i : Nat)
  | read (i : Nat) (now : τ)
  | turn (i : Nat)
  | check (i : Nat) (now : τ)
  | refreshed (i : Nat) (outcome : Except String (OAuthCredential τ))
  | fail (i : Nat) (message : String)
  | giveUp (i : Nat)
  | receive (i : Nat) (now : τ)
  /-- A `modify` or `delete` of anybody else. -/
  | write (value : Option (Credential τ))

/-- The text of an aborted operation. -/
def cancelledText : String := "credential operation cancelled"

namespace Authority

variable {τ : Type}

/-- A change to one call. -/
def modify (q : Authority τ) (i : Nat) (f : RefreshCall τ → RefreshCall τ) : Authority τ :=
  { q with calls := q.calls.modify i f }

/-- A call returns. -/
def finish (q : Authority τ) (i : Nat) (result : Except AuthorityError (Option (OAuthCredential τ))) : Authority τ :=
  q.modify i fun call => { call with result := some result }

/-- An operation ends without a write and lets go of the id. -/
def settle (q : Authority τ) (i : Nat) (outcome : Except ModifyFailure (Option (Credential τ))) : Authority τ :=
  { q.modify i fun call => { call with stage := .settled outcome } with
    holder := if q.holder = some i then none else q.holder }

/-- A refreshed credential is stored. -/
def commit (q : Authority τ) (i : Nat) (credential : OAuthCredential τ) : Authority τ :=
  { settle q i (.ok (some (.oauth credential))) with
    stored := some (.oauth credential)
    version := q.version + 1
    committed := credential :: q.committed
    replaced := q.version :: q.replaced }

variable [Double τ]

/-- What a call or its operation does next. -/
def act (r : Refresher τ) (q : Authority τ) (call : RefreshCall τ) : RefreshEvent τ → Option (Authority τ)
  | .call _ | .write _ => none
  | .abort i => some (q.modify i fun call => { call with aborted := true })
  | .read i now =>
    match call.stage, call.result with
    | .reading, none =>
      if call.aborted then some (finish q i (.error (r.readFailed cancelledText)))
      else
        match r.examine call.minimum now q.stored with
        | .inl credential =>
          some (q.modify i fun call => { call with stage := .queued, checked := some (credential, now) })
        | .inr (some credential) =>
          some (q.modify i fun call =>
            { call with checked := some (credential, now), result := some (.ok (some credential)) })
        | .inr none => some (finish q i (.ok none))
    | _, _ => none
  | .turn i =>
    match call.stage, q.holder with
    | .queued, none =>
      if call.aborted then some (settle q i (.error (.store cancelledText)))
      else some { q.modify i fun call => { call with stage := .holding q.stored } with holder := some i }
    | _, _ => none
  | .check i now =>
    match call.stage with
    | .holding current =>
      match r.examine call.minimum now current with
      | .inl credential =>
        some { q.modify i fun call =>
            { call with stage := .refreshing credential q.version, checked := some (credential, now) } with
          invoked := q.invoked ++ [i] }
      | .inr (some credential) =>
        -- the callback declines; `modify` checks the signal and returns what is stored
        some (settle (q.modify i fun call => { call with checked := some (credential, now) }) i
          (if call.aborted then .error (.store cancelledText) else .ok current))
      | .inr none => some (settle q i (if call.aborted then .error (.store cancelledText) else .ok current))
    | _ => none
  | .refreshed i outcome =>
    match call.stage, outcome with
    | .refreshing _ _, .error message => some (settle q i (.error (.callback (r.refreshFailed message))))
    | .refreshing _ _, .ok credential =>
      if call.aborted then some (settle q i (.error (.store cancelledText))) else some (commit q i credential)
    | _, _ => none
  | .fail i message =>
    match call.stage, call.result with
    | .reading, none => some (finish q i (.error (r.readFailed message)))
    | .reading, some _ => none
    | .settled _, _ => none
    | _, _ => some (settle q i (.error (.store message)))
  | .giveUp i =>
    match call.stage, call.result with
    | .reading, _ => none
    | _, none => if call.aborted then some (finish q i (.error (r.modifyFailed cancelledText))) else none
    | _, some _ => none
  | .receive i now =>
    match call.stage, call.result with
    | .settled outcome, none =>
      match outcome, call.minimum with
      | .ok (some (.oauth credential)), some _ =>
        some (q.modify i fun call =>
          { call with checked := some (credential, now), result := some (r.conclude call.minimum now outcome) })
      | _, _ => some (finish q i (r.conclude call.minimum now outcome))
    | _, _ => none

end Authority

/-- The call an event is about, if it is one call's. -/
def RefreshEvent.target {τ : Type} : RefreshEvent τ → Option Nat
  | .call _ | .write _ => none
  | .abort i | .read i _ | .turn i | .check i _ | .refreshed i _ | .fail i _ | .giveUp i | .receive i _ => some i

namespace Authority

variable {τ : Type}

/-- A store before any call. -/
def initial (stored : Option (Credential τ)) : Authority τ := { stored }

variable [Double τ]

/-- One event. -/
def step (r : Refresher τ) (q : Authority τ) : RefreshEvent τ → Option (Authority τ)
  | .call minimum => some { q with calls := q.calls ++ [{ minimum }] }
  | .write value => if q.holder = none then some { q with stored := value, version := q.version + 1 } else none
  | event => do
    let i ← event.target
    let call ← q.calls[i]?
    act r q call event

/-- The state after a list of events. -/
def run (r : Refresher τ) (stored : Option (Credential τ)) (es : List (RefreshEvent τ)) : Option (Authority τ) :=
  Transition.run (step r) (initial stored) es

end Authority

end MinionAgent
