import MinionAgent.Agent.Conservation
import MinionAgent.AgentLoop.RustEntry

/-!
# MinionAgent.AgentLoop.EntryKept

What run entry owes the input it claims, in both bindings.

Python's `continue_` checks that the agent is idle and then claims, and a
RUNNING observer that fails with an `Exception` has the batch put back; Rust's
`continue_run` claims once its run has begun.  `run_until_idle` claims first
in both: an agent that is not idle, and a transcript that does not derive,
cost the batch.
-/

namespace MinionAgent

/-- What the entry calls of one Python agent do with the input they claim. -/
structure Surroundings.EntryKept (env : Surroundings) (agent : AgentInstance) : Prop where
  continue_kept : ∀ attempt ∈ (env.continue_ agent).1, attempt.Kept ↔ env.Enters attempt.reserved
  runUntilIdle_kept : ∀ fuel, ∀ attempt ∈ (env.runUntilIdle fuel agent).1,
    attempt.Kept ↔ env.Enters attempt.reserved
  continue_refused : agent.status ≠ .idle → env.continue_ agent =
    ([], ⟨agent, .error (.active "Agent is already processing. Wait for completion before continuing.")⟩)
  runUntilIdle_refused : agent.status ≠ .idle → ∀ fuel, ∃ ended,
    (env.runUntilIdle (fuel + 1) agent).2 = some ended ∧
      ((∀ target, ended.agent.inbox.queue target = agent.inbox.queue target) ↔ agent.inbox.queue .nextTurn = [])

/-- What those of one Rust agent do. -/
structure Rust.Surroundings.EntryKept (env : Rust.Surroundings) (agent : Rust.AgentInstance) : Prop where
  continueRun_kept : ∀ attempt ∈ (env.continueRun agent).1, attempt.Kept
  runUntilIdle_kept : ∀ fuel, ∀ attempt ∈ (env.runUntilIdle fuel 0 agent).1,
    attempt.Kept ↔ env.Enters attempt.step attempt.reserved
  continueRun_refused : (env.before 0 agent).status ≠ .idle →
    env.continueRun agent = ([], ⟨env.before 0 agent, .error .continueActive⟩)

/-- A batch that a call claimed begins a run or is queued again exactly when
the agent is idle as the run is to begin, and either its transcript then
derives or, in Python, a RUNNING observer failed with an `Exception`. -/
theorem entry_kept_iff (env : Surroundings) (huuid : Function.Injective env.uuid) (rustEnv : Rust.Surroundings)
    (hrustUuid : Function.Injective rustEnv.uuid) :
    (∀ agent, env.Reached agent → env.EntryKept agent) ∧
      ∀ agent, rustEnv.Reached agent → rustEnv.EntryKept agent := by
  constructor
  · intro agent hreached
    have hfresh := hreached.fresh huuid
    exact {
      continue_kept := Surroundings.kept_iff_continue huuid hfresh
      runUntilIdle_kept := fun fuel => Surroundings.kept_iff_runUntilIdle huuid fuel hfresh
      continue_refused := Surroundings.continue_of_running
      runUntilIdle_refused := Surroundings.runUntilIdle_of_running }
  · intro agent hreached
    have hfresh := hreached.fresh hrustUuid
    exact {
      continueRun_kept := Rust.Surroundings.kept_continueRun agent
      runUntilIdle_kept := fun fuel => Rust.Surroundings.kept_iff_runUntilIdle hrustUuid fuel 0 hfresh
      continueRun_refused := Rust.Surroundings.continueRun_of_running }

/-- Quiet surroundings: nothing observes, and runs do nothing. -/
def quiet : Surroundings where
  uuid := drawXs
  onStatus _ := { outcome := .ok () }
  executeRun _ _ := { outcome := .ok () }

def quietRust : Rust.Surroundings where
  uuid := drawXs
  fromValue _ := .error "no message"
  meanwhile _ _ := []
  runWrapped _ _ := ([], none)

/-- A new agent. -/
def newAgent : AgentInstance where
  sessions := Sessions.empty.create "s" .core
  log := 0
  model := ⟨"p", "m", "mock"⟩

/-- It is sent a prompt while a run is active. -/
def busyAgent : AgentInstance :=
  newAgent.perform drawXs [.setStatus .running,
    .send (.user { content := .text "A", timestamp := 0 }) .nextTurn true .none]

def newRustAgent : Rust.AgentInstance where
  sessions := Rust.Sessions.empty.step (.create "s" [])
  session := 0

theorem reached_newAgent : quiet.Reached newAgent := .created _ fun target => by cases target <;> rfl

theorem reached_busyAgent : quiet.Reached busyAgent := by
  have hrunning : quiet.Reached (newAgent.act quiet.uuid (.setStatus .running)) := .acted _ reached_newAgent
  exact .acted (.send (.user { content := .text "A", timestamp := 0 }) .nextTurn true .none) hrunning

theorem entry_kept_quiet : quiet.EntryKept busyAgent ∧ quietRust.EntryKept newRustAgent := by
  obtain ⟨hpython, hrust⟩ := entry_kept_iff quiet drawXs_injective quietRust drawXs_injective
  exact ⟨hpython busyAgent reached_busyAgent, hrust newRustAgent (.created _ fun target => by cases target <;> rfl)⟩

/-- What `run_until_idle` tries on the busy agent. -/
def lostAttempt : Attempt :=
  quiet.attempt (busyAgent.inbox.reserve .nextTurn .oneAtATime).1 false
    { busyAgent with inbox := (busyAgent.inbox.reserve .nextTurn .oneAtATime).2 }

/-- `run_until_idle` on the busy agent is refused and has lost the prompt. -/
theorem prompt_lost :
    ¬ ∀ (env : Surroundings), Function.Injective env.uuid → ∀ agent, env.Reached agent →
      ∀ fuel, ∀ attempt ∈ (env.runUntilIdle fuel agent).1, attempt.Kept := by
  intro h
  have hkept := h quiet drawXs_injective busyAgent reached_busyAgent 1 lostAttempt (List.mem_singleton.mpr rfl)
  have hback : lostAttempt.claimed <+: lostAttempt.entered.ended.agent.inbox.queue lostAttempt.target := hkept.2
  revert hback
  decide

end MinionAgent
