import MinionAgent.Execution.ReadStream
import MinionAgent.Library.Transition
import Mathlib.Data.Int.Notation

/-!
# MinionAgent.Execution.Settlement

A spawned process (`Process` in `execution/subprocess.py`, `LocalProcess` and
`monitor_child` in `execution/subprocess.rs`): its exit, the watch on the spawn
signal, and the calls of `wait` and `terminate` on it, in any order.

* `Python.Process.step` — one turn of the event loop, between two awaits;
* `Rust.Process.step` — one atomic operation of the monitor or of a call.

What a kill does to the process is an exit that may follow it.
-/

namespace MinionAgent.Subprocess

/-- `_KillCause`, `CAUSE_NONE`, `CAUSE_SIGNAL`, `CAUSE_EXPLICIT`. -/
inductive KillCause
  | none
  | signal
  | explicit
deriving DecidableEq

structure ExitStatus where
  exitCode : Option ℤ
deriving DecidableEq

/-- `SubprocessErrorCode.ABORTED` with its message. -/
structure Aborted where
  message : String
deriving DecidableEq

/-- What `wait` returns. -/
abbrev Outcome := Except Aborted ExitStatus

instance : DecidableEq Outcome
  | .ok a, .ok b => decidable_of_iff (a = b) (by simp)
  | .error a, .error b => decidable_of_iff (a = b) (by simp)
  | .ok _, .error _ => isFalse (by simp)
  | .error _, .ok _ => isFalse (by simp)

/-- The piped streams of a process that are read. -/
inductive Pipe
  | stdout
  | stderr
deriving DecidableEq

/-- The handles of a process; one that is not piped is not there.  Of `stdin` only whether it is open. -/
structure Handles where
  stdin : Option Bool
  stdout : Option ReadStream
  stderr : Option ReadStream
deriving DecidableEq

namespace Handles

def get (h : Handles) : Pipe → Option ReadStream
  | .stdout => h.stdout
  | .stderr => h.stderr

/-- Something happens to a piped stream. -/
def onPipe (h : Handles) (pipe : Pipe) (f : ReadStream → ReadStream) : Handles :=
  match pipe with
  | .stdout => { h with stdout := h.stdout.map f }
  | .stderr => { h with stderr := h.stderr.map f }

/-- The pipe to the process is closed. -/
def closeStdin (h : Handles) : Handles := { h with stdin := h.stdin.map fun _ => false }

end Handles

namespace Python

/-- A call of `wait`: before the lock, with it, and behind it. -/
inductive WaitPhase
  | locking
  | holding
  | returned (outcome : Outcome)
  | cancelled
deriving DecidableEq

/-- A call of `terminate`: while it kills, knowing whether the process had exited. -/
inductive TerminatePhase
  | killing (alreadyExited : Bool)
  | returned
deriving DecidableEq

/-- The process with the calls on it: `aborted` is the signal, `watching` that its
listener is there, and `lock` the call of `wait` that has the lock. -/
structure Process where
  aborted : Bool
  returncode : Option ℤ
  killCause : KillCause
  watching : Bool
  terminateCalled : Bool
  waitResult : Option Outcome
  lock : Option Nat
  waits : List WaitPhase
  terminates : List TerminatePhase
  handles : Handles

/-- A process that was spawned, with a signal to watch or without. -/
def spawned (watching : Bool) (handles : Handles) : Process where
  aborted := false
  returncode := none
  killCause := .none
  watching := watching
  terminateCalled := false
  waitResult := none
  lock := none
  waits := []
  terminates := []
  handles := handles

inductive Event
  | abort
  | exit (returncode : ℤ)
  | poll
  | callWait
  | stepWait (i : Nat)
  | cancelWait (i : Nat)
  | callTerminate
  | stepTerminate (i : Nat)
  | onPipe (pipe : Pipe) (e : StreamEvent)
deriving DecidableEq

namespace Process

/-- The claim of the kill's cause: the first one counts. -/
def claim (p : Process) (cause : KillCause) : Process :=
  { p with killCause := if p.killCause = .none then cause else p.killCause }

/-- One turn of the loop of `_watch_signal`. -/
def poll (p : Process) : Process :=
  if p.returncode = none then
    if p.aborted then { p.claim .signal with watching := false } else p
  else { p with watching := false }

/-- The result of `wait`, from the exit and the cause. -/
def result (p : Process) (returncode : ℤ) : Outcome :=
  if p.killCause = .signal then .error ⟨"aborted"⟩
  else .ok ⟨if 0 ≤ returncode then some returncode else none⟩

/-- `wait` is called. -/
def callWait (p : Process) : Process :=
  match p.waitResult with
  | some outcome => { p with waits := p.waits ++ [.returned outcome] }
  | none => { p with waits := p.waits ++ [.locking] }

/-- A call of `wait` goes on: it takes the lock, or it finds the process exited. -/
def stepWait (p : Process) (i : Nat) : Option Process :=
  match p.waits[i]? with
  | some .locking =>
    if p.lock = none then
      match p.waitResult with
      | some outcome => some { p with waits := p.waits.set i (.returned outcome) }
      | none => some { p with waits := p.waits.set i .holding, lock := some i }
    else none
  | some .holding =>
    p.returncode.map fun returncode =>
      { p with waits := p.waits.set i (.returned (p.result returncode)), waitResult := some (p.result returncode)
               lock := none }
  | _ => none

/-- A waiter is cancelled; the notification of the exit is shielded. -/
def cancelWait (p : Process) (i : Nat) : Option Process :=
  match p.waits[i]? with
  | some .locking => some { p with waits := p.waits.set i .cancelled }
  | some .holding => some { p with waits := p.waits.set i .cancelled, lock := none }
  | _ => none

/-- `_dispose_transports`. -/
def disposeTransports (p : Process) : Process :=
  { p with handles :=
      ((p.handles.onPipe .stdout ReadStream.release).onPipe .stderr ReadStream.release).closeStdin }

/-- `terminate` is called: only the first call does anything. -/
def callTerminate (p : Process) : Process :=
  if p.terminateCalled then { p with terminates := p.terminates ++ [.returned] }
  else
    { p.claim .explicit with terminateCalled := true
                             terminates := p.terminates ++ [.killing p.returncode.isSome] }

/-- The kill was issued and confirmed; behind the exit the transports are closed. -/
def stepTerminate (p : Process) (i : Nat) : Option Process :=
  match p.terminates[i]? with
  | some (.killing alreadyExited) =>
    let p := if alreadyExited then p.disposeTransports else p
    some { p with terminates := p.terminates.set i .returned }
  | _ => none

def step (p : Process) : Event → Option Process
  | .abort => some { p with aborted := true }
  | .exit returncode => if p.returncode = none then some { p with returncode := some returncode } else none
  | .poll => if p.watching then some p.poll else none
  | .callWait => some p.callWait
  | .stepWait i => p.stepWait i
  | .cancelWait i => p.cancelWait i
  | .callTerminate => some p.callTerminate
  | .stepTerminate i => p.stepTerminate i
  | .onPipe pipe e => some { p with handles := p.handles.onPipe pipe (·.step e) }

end Process

end Python

namespace Rust

/-- A call of `wait`. -/
inductive WaitPhase
  | waiting
  | returned (outcome : Outcome)
  | cancelled
deriving DecidableEq

/-- A call of `terminate`, between its operations. -/
inductive TerminatePhase
  | called
  | claiming (settled : Bool)
  | closingStdout
  | closingStderr
  | closingStdin
  | returned
deriving DecidableEq

/-- `monitor_child`, between its operations. -/
inductive MonitorPhase
  | trying
  | looking
  | claiming
  | loading
  | selecting
  | killing
  | exited (code : Option ℤ)
  | sending (outcome : Outcome)
  | done
deriving DecidableEq

/-- The process: `exitCode` is the exit that the system knows of. -/
structure Process where
  hasSignal : Bool
  aborted : Bool
  exitCode : Option (Option ℤ)
  cause : KillCause
  monitor : MonitorPhase
  outcome : Option Outcome
  waits : List WaitPhase
  terminates : List TerminatePhase
  handles : Handles

def spawned (hasSignal : Bool) (handles : Handles) : Process where
  hasSignal := hasSignal
  aborted := false
  exitCode := none
  cause := .none
  monitor := .trying
  outcome := none
  waits := []
  terminates := []
  handles := handles

/-- The operations.  Of the monitor these are its looks at the process and at the
signal, its claim of the cause, and the others of its loop and behind it. -/
inductive Event
  | abort
  | exit (code : Option ℤ)
  | findRunning
  | lookAtSignal
  | observeSignal
  | loadCause
  | wake
  | observeExit
  | classify
  | send
  | callWait
  | stepWait (i : Nat)
  | cancelWait (i : Nat)
  | callTerminate
  | claimTerminate (i : Nat)
  | stepTerminate (i : Nat)
  | onPipe (pipe : Pipe) (e : StreamEvent)
deriving DecidableEq

namespace Process

/-- `compare_exchange` of the cause. -/
def claim (p : Process) (cause : KillCause) : Process :=
  { p with cause := if p.cause = .none then cause else p.cause }

/-- `classify_exit`. -/
def classifyExit (cause : KillCause) (exitCode : Option ℤ) : Outcome :=
  if cause = .signal then .error ⟨"operation aborted"⟩ else .ok ⟨exitCode⟩

/-- `child.try_wait()` of a process that runs. -/
def findRunning (p : Process) : Option Process :=
  if p.monitor = .trying ∧ p.exitCode = none then some { p with monitor := .looking } else none

/-- `signal.aborted()`. -/
def lookAtSignal (p : Process) : Option Process :=
  if p.monitor = .looking then
    some { p with monitor := if p.hasSignal && p.aborted then .claiming else .loading }
  else none

/-- The claim behind a look that saw the signal aborted. -/
def observeSignal (p : Process) : Option Process :=
  if p.monitor = .claiming then some { p.claim .signal with monitor := .loading } else none

/-- `cause.load()`: with a cause the process is killed, else the monitor sleeps. -/
def loadCause (p : Process) : Option Process :=
  if p.monitor = .loading then
    some { p with monitor := if p.cause = .none then .selecting else .killing }
  else none

/-- A notification or the time ends the sleep. -/
def wake (p : Process) : Option Process :=
  if p.monitor = .selecting then some { p with monitor := .trying } else none

/-- `child.try_wait()` of a process that has exited, or `child.wait()` in the sleep or behind the kill. -/
def observeExit (p : Process) : Option Process :=
  if p.monitor = .trying ∨ p.monitor = .selecting ∨ p.monitor = .killing then
    p.exitCode.map fun code => { p with monitor := .exited code }
  else none

def classify (p : Process) : Option Process :=
  match p.monitor with
  | .exited code => some { p with monitor := .sending (classifyExit p.cause code) }
  | _ => none

/-- `outcome.send_replace()`. -/
def send (p : Process) : Option Process :=
  match p.monitor with
  | .sending outcome => some { p with monitor := .done, outcome := some outcome }
  | _ => none

/-- A call of `wait` finds the outcome. -/
def stepWait (p : Process) (i : Nat) : Option Process :=
  match p.waits[i]? with
  | some .waiting => p.outcome.map fun outcome => { p with waits := p.waits.set i (.returned outcome) }
  | _ => none

def cancelWait (p : Process) (i : Nat) : Option Process :=
  match p.waits[i]? with
  | some .waiting => some { p with waits := p.waits.set i .cancelled }
  | _ => none

/-- The claim of a call of `terminate`; once the process has settled the call goes on. -/
def claimTerminate (p : Process) (i : Nat) : Option Process :=
  match p.terminates[i]? with
  | some (.claiming settled) =>
    some { p.claim .explicit with
            terminates := p.terminates.set i (if settled then .closingStdout else .returned) }
  | _ => none

/-- The other operations of `terminate`. -/
def stepTerminate (p : Process) (i : Nat) : Option Process :=
  match p.terminates[i]? with
  | some .called => some { p with terminates := p.terminates.set i (.claiming p.outcome.isSome) }
  | some .closingStdout =>
    some { p with
      handles := p.handles.onPipe .stdout ReadStream.close
      terminates := p.terminates.set i .closingStderr }
  | some .closingStderr =>
    some { p with handles := p.handles.onPipe .stderr ReadStream.close, terminates := p.terminates.set i .closingStdin }
  | some .closingStdin =>
    some { p with handles := p.handles.closeStdin, terminates := p.terminates.set i .returned }
  | _ => none

def step (p : Process) : Event → Option Process
  | .abort => some { p with aborted := true }
  | .exit code => if p.exitCode = none then some { p with exitCode := some code } else none
  | .findRunning => p.findRunning
  | .lookAtSignal => p.lookAtSignal
  | .observeSignal => p.observeSignal
  | .loadCause => p.loadCause
  | .wake => p.wake
  | .observeExit => p.observeExit
  | .classify => p.classify
  | .send => p.send
  | .callWait => some { p with waits := p.waits ++ [.waiting] }
  | .stepWait i => p.stepWait i
  | .cancelWait i => p.cancelWait i
  | .callTerminate => some { p with terminates := p.terminates ++ [.called] }
  | .claimTerminate i => p.claimTerminate i
  | .stepTerminate i => p.stepTerminate i
  | .onPipe pipe e => some { p with handles := p.handles.onPipe pipe (·.step e) }

end Process

end Rust

end MinionAgent.Subprocess
