import MinionAgent.Library.Settling
import MinionAgent.Llm.Service

/-!
# MinionAgent.Llm.Streams

The wrappers that settle the stream an adapter returned, pull by pull, in both
bindings (`llm/service.py`, `llm/assistant_stream.rs`).

* `settlesOnce_reading` — the generator `_settled`;
* `Rust.settlesOnce_reading` — `AssistantStream`, whose polls may be pending;
* `streams_settle_once` — both yield the chunks up to one terminal, last.
-/

namespace MinionAgent

open Settling

/-! ## Python -/

/-- `isinstance(chunk, StreamDone | StreamError)`. -/
def StreamChunk.isTerminal (chunk : StreamChunk) : Bool := chunk.terminal?.isSome

/-- `_settled` where it asks the source for a chunk, and where it is about to
return or has returned. -/
inductive SettledGenerator
  | reading (soFar : Option AssistantMessage) (source : List StreamChunk)
  | closed

/-- `_settled`, resumed.  Only an `Exception` of the source is caught. -/
def SettledGenerator.resume (request : Request) (ending : SourceEnding) :
    SettledGenerator → Answer StreamChunk × SettledGenerator
  | reading _ (chunk :: source) =>
    (.yielded chunk, if chunk.isTerminal then closed else reading (some chunk.soFar) source)
  | reading soFar [] =>
    match ending with
    | .ended =>
      (.yielded
        (errorTerminal request soFar "provider stream ended without a terminal chunk; the response is incomplete"),
        closed)
    | .raised typeName message =>
      (.yielded (errorTerminal request soFar ("provider stream raised " ++ typeName ++ ": " ++ message)), closed)
    | .cancelled => (.escaped, closed)
  | closed => (.stopped, closed)

/-- The text of the terminal that the ending of a source is settled with. -/
def SourceEnding.failure : SourceEnding → String
  | ended => "provider stream ended without a terminal chunk; the response is incomplete"
  | raised typeName message => "provider stream raised " ++ typeName ++ ": " ++ message
  | cancelled => ""

theorem settlesOnce_reading (request : Request) {ending : SourceEnding} (h : ending ≠ .cancelled)
    (soFar : Option AssistantMessage) (source : List StreamChunk) :
    SettlesOnce StreamChunk.isTerminal
      (settle StreamChunk.isTerminal id StreamChunk.soFar (errorTerminal request · ending.failure) soFar source)
      (answer (SettledGenerator.resume request ending) (.reading soFar source)) := by
  induction source generalizing soFar with
  | nil =>
    have hresume : SettledGenerator.resume request ending (.reading soFar []) =
        (.yielded (errorTerminal request soFar ending.failure), .closed) := by
      cases ending with
      | ended => rfl
      | raised typeName message => rfl
      | cancelled => exact absurd rfl h
    exact .last hresume rfl rfl
  | cons chunk source ih =>
    rw [settle]
    cases hterminal : chunk.isTerminal with
    | true => exact .last (by rw [SettledGenerator.resume, hterminal]; rfl) rfl hterminal
    | false => exact .yielded (by rw [SettledGenerator.resume, hterminal]; rfl) hterminal (ih (some chunk.soFar))

/-- The generator yields what `settled` lists. -/
theorem settledFrom_eq_settle {request : Request} {ending : SourceEnding} (h : ending ≠ .cancelled)
    (soFar : Option AssistantMessage) (source : List StreamChunk) :
    (settledFrom request ending () soFar (source.map fun chunk => ((), chunk))).map Prod.snd =
      settle StreamChunk.isTerminal id StreamChunk.soFar (errorTerminal request · ending.failure) soFar source := by
  induction source generalizing soFar with
  | nil =>
    cases ending with
    | ended => rfl
    | raised typeName message => rfl
    | cancelled => exact absurd rfl h
  | cons chunk source ih =>
    rw [settle, List.map_cons, settledFrom, ← ih, StreamChunk.isTerminal]
    split
    · rfl
    · rfl

/-- `_run_step`'s drain: the message of the first terminal, if there is one. -/
def drainReply (chunks : List StreamChunk) : Option AssistantMessage := chunks.findSome? StreamChunk.terminal?

/-- The drain finds a reply. -/
theorem drainReply_isSome {out : List StreamChunk} {answers : Nat → Answer StreamChunk}
    (h : SettlesOnce StreamChunk.isTerminal out answers) : (drainReply out).isSome := by
  obtain ⟨before, t, _, rfl, ht, _⟩ := h
  rw [drainReply, List.findSome?_isSome_iff]
  exact ⟨t, by simp, ht⟩

/-! ## Rust -/

namespace Rust

inductive DoneReason
  | stop | length | toolUse | deferred
deriving DecidableEq

inductive ErrorReason
  | error | aborted
deriving DecidableEq

/-- A chunk; a terminal's message is the message so far. -/
inductive StreamChunk
  | start (message : AssistantMessage)
  | update (event : AssistantMessageEvent)
  | done (reason : DoneReason) (message : AssistantMessage)
  | error (reason : ErrorReason) (error : AssistantMessage)
deriving DecidableEq

namespace StreamChunk

/-- `partial`. -/
def soFar : StreamChunk → AssistantMessage
  | start message => message
  | update event => event.message
  | done _ message => message
  | error _ message => message

/-- `is_terminal`. -/
def isTerminal : StreamChunk → Bool
  | done _ _ | error _ _ => true
  | _ => false

/-- What `poll_next` does to a chunk before it passes it on. -/
def filled : StreamChunk → StreamChunk
  | done reason message =>
    done reason { message with stopReason :=
      match reason with
      | .stop => .stop
      | .length => .length
      | .toolUse => .toolUse
      | .deferred => .deferred }
  | error reason message =>
    let message := { message with stopReason :=
      match reason with
      | .error => .error
      | .aborted => .aborted }
    error reason (if message.errorMessage.all String.isEmpty then
      { message with errorMessage := some "adapter returned a terminal error without a diagnostic" } else message)
  | chunk => chunk

@[simp] theorem isTerminal_filled (chunk : StreamChunk) : chunk.filled.isTerminal = chunk.isTerminal := by
  cases chunk <;> rfl

theorem filled_of_not_terminal {chunk : StreamChunk} (h : chunk.isTerminal = false) : chunk.filled = chunk := by
  cases chunk with
  | start message => rfl
  | update event => rfl
  | done reason message => cases h
  | error reason message => cases h

end StreamChunk

inductive AdapterStreamErrorKind
  | provider | network | model | cancelled | protocol | runtime
deriving DecidableEq

structure AdapterStreamError where
  kind : AdapterStreamErrorKind
  message : String
deriving DecidableEq

/-- What a poll of the adapter's stream gives, but for its end. -/
inductive RawPoll
  | pending
  | ok (chunk : StreamChunk)
  | err (error : AdapterStreamError)
deriving DecidableEq

/-- `AssistantStream`: an unfused stream retains its raw source, of which these
are the polls before its end. -/
inductive AssistantStream
  | unfused (raw : List RawPoll) (soFar : AssistantMessage)
  | fused (soFar : AssistantMessage)

/-- `settle_error`'s chunk. -/
def settleError (soFar : AssistantMessage) (error : AdapterStreamError) : StreamChunk :=
  let aborted := error.kind == .cancelled
  .error (if aborted then .aborted else .error)
    { soFar with stopReason := if aborted then .aborted else .error, errorMessage := some error.message }

/-- The error that the end of the source is settled with. -/
def endedEarly : AdapterStreamError := ⟨.protocol, "adapter stream ended before a terminal response"⟩

/-- `poll_next`. -/
def AssistantStream.pollNext : AssistantStream → Answer StreamChunk × AssistantStream
  | fused soFar => (.stopped, fused soFar)
  | unfused (.pending :: raw) soFar => (.pending, unfused raw soFar)
  | unfused (.ok chunk :: raw) _ =>
    let chunk := chunk.filled
    (.yielded chunk, if chunk.isTerminal then fused chunk.soFar else unfused raw chunk.soFar)
  | unfused (.err error :: _) soFar => (.yielded (settleError soFar error), fused soFar)
  | unfused [] soFar => (.yielded (settleError soFar endedEarly), fused soFar)

/-- `AssistantMessage::pending`. -/
def pendingMessage (model : ModelId) : AssistantMessage where
  content := []
  stopReason := .pending
  usage := {}
  model := model.model
  provider := model.provider
  timestamp := 0
  api := model.api

/-- The chunks before the first error, and it. -/
def chunksOf : List RawPoll → List StreamChunk × AdapterStreamError
  | [] => ([], endedEarly)
  | .pending :: raw => chunksOf raw
  | .ok chunk :: raw => (chunk :: (chunksOf raw).1, (chunksOf raw).2)
  | .err error :: _ => ([], error)

theorem settlesOnce_unfused (model : ModelId) (raw : List RawPoll) (soFar : Option AssistantMessage) :
    SettlesOnce StreamChunk.isTerminal
      (settle StreamChunk.isTerminal StreamChunk.filled StreamChunk.soFar
        (fun last => settleError (last.getD (pendingMessage model)) (chunksOf raw).2) soFar (chunksOf raw).1)
      (answer AssistantStream.pollNext (.unfused raw (soFar.getD (pendingMessage model)))) := by
  induction raw generalizing soFar with
  | nil => exact .last rfl rfl rfl
  | cons poll raw ih =>
    cases poll with
    | pending => exact .pending rfl (ih soFar)
    | err error => exact .last rfl rfl rfl
    | ok chunk =>
      rw [chunksOf, settle]
      cases hterminal : chunk.isTerminal with
      | true =>
        have hfilled : chunk.filled.isTerminal = true := chunk.isTerminal_filled.trans hterminal
        have hpoll : (AssistantStream.unfused (.ok chunk :: raw) (soFar.getD (pendingMessage model))).pollNext =
            (.yielded chunk.filled, .fused chunk.filled.soFar) := by
          rw [AssistantStream.pollNext, if_pos hfilled]
        exact .last hpoll rfl hfilled
      | false =>
        have hpoll : (AssistantStream.unfused (.ok chunk :: raw) (soFar.getD (pendingMessage model))).pollNext =
            (.yielded chunk, .unfused raw chunk.soFar) := by
          rw [AssistantStream.pollNext, StreamChunk.filled_of_not_terminal hterminal, hterminal]
          rfl
        exact .yielded hpoll hterminal (ih (some chunk.soFar))

end Rust

/-! ## Both -/

/-- Every stream settles once: the chunks up to the first terminal, or all and
the terminal of the failure, from the last message so far or an empty one.
Rust fills a terminal in, and an item of the kind `Cancelled` aborts. -/
theorem streams_settle_once :
    (∀ request ending source, ending ≠ .cancelled →
      ∃ out, Settled StreamChunk.isTerminal id StreamChunk.soFar (errorTerminal request · ending.failure) source out ∧
        SettlesOnce StreamChunk.isTerminal out
          (answer (SettledGenerator.resume request ending) (.reading none source)) ∧
        (drainReply out).isSome) ∧
    ∀ model raw, ∃ out,
      Settled Rust.StreamChunk.isTerminal Rust.StreamChunk.filled Rust.StreamChunk.soFar
        (fun last => Rust.settleError (last.getD (Rust.pendingMessage model)) (Rust.chunksOf raw).2)
        (Rust.chunksOf raw).1 out ∧
      SettlesOnce Rust.StreamChunk.isTerminal out
        (answer Rust.AssistantStream.pollNext (.unfused raw (Rust.pendingMessage model))) := by
  constructor
  · intro request ending source hending
    have honce := settlesOnce_reading request hending none source
    exact ⟨_, settled_settle source, honce, drainReply_isSome honce⟩
  · intro model raw
    exact ⟨_, settled_settle (Rust.chunksOf raw).1, Rust.settlesOnce_unfused model raw none⟩

/-- A reply in the making. -/
def draft : AssistantMessage where
  content := []
  stopReason := .pending
  usage := {}
  model := "m"
  provider := "p"
  timestamp := 0

/-- A source whose terminal is not its last chunk. -/
def finishedEarly : List StreamChunk :=
  [.start draft, .update (.textDelta 0 "hi" draft), .done { draft with stopReason := .stop } draft, .start draft]

/-- What is behind an early terminal is not yielded, nor is the source read to
where it raises. -/
theorem streams_settle_once_early :
    ∃ out answers,
      Settled StreamChunk.isTerminal id StreamChunk.soFar
        (errorTerminal { model := ⟨"p", "m", "mock"⟩, system := "", messages := [] } ·
          (SourceEnding.raised "ValueError" "late").failure)
        finishedEarly out ∧
      SettlesOnce StreamChunk.isTerminal out answers ∧ (drainReply out).isSome ∧
      (List.range 5).map answers = (finishedEarly.take 3).map Answer.yielded ++ [.stopped, .stopped] := by
  obtain ⟨out, hsettled, honce, hreply⟩ :=
    streams_settle_once.1 { model := ⟨"p", "m", "mock"⟩, system := "", messages := [] } (.raised "ValueError" "late")
      finishedEarly (by decide)
  exact ⟨out, _, hsettled, honce, hreply, rfl⟩

/-- A cancelled item is settled with another stop reason than an error. -/
theorem settleError_cancelled :
    ∃ chunk, answer Rust.AssistantStream.pollNext
        (.unfused [.err ⟨.cancelled, "stopped"⟩] (Rust.pendingMessage { provider := "p", model := "m" })) 0 =
      .yielded chunk ∧ chunk.isTerminal = true ∧ chunk.soFar.stopReason = .aborted := by
  exact ⟨_, rfl, rfl, rfl⟩

end MinionAgent
