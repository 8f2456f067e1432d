import MinionAgent.Library.PyValue
import MinionAgent.Library.Obligation
import MinionAgent.Llm.Answered
import MinionAgent.Llm.Agreement
import MinionAgent.Llm.Pairing
import MinionAgent.Llm.Idempotence
import MinionAgent.Session.Fork
import MinionAgent.Session.Supersede
import MinionAgent.Agent.Conservation
import MinionAgent.AgentLoop.EntryKept
import MinionAgent.Library.JsonRoundTrip
import MinionAgent.Runtime.Terminal
import MinionAgent.Runtime.Reversal
import MinionAgent.Runtime.ScopeDisposal
import MinionAgent.Library.Program
import MinionAgent.Llm.Service
import MinionAgent.Session.Artifacts
import MinionAgent.Runtime.Follow
import MinionAgent.Runtime.Isolation
import MinionAgent.Runtime.RustDisposal
import MinionAgent.Runtime.Reconcile
import MinionAgent.Session.Lossless
import MinionAgent.Tools.RustPostExecute
import MinionAgent.Tools.RollingTail
import MinionAgent.Tools.RustMutationQueue
import MinionAgent.Auth.SingleRefresh
import MinionAgent.Auth.RustStore
import MinionAgent.Execution.RemovalTree
import MinionAgent.AgentLoop.Decisions
import MinionAgent.Execution.Mkdirp
import MinionAgent.Telemetry.Redaction
import MinionAgent.Auth.DevicePolling
import MinionAgent.Tools.PagedReading
import MinionAgent.Auth.JsJsonExact
import MinionAgent.Execution.SettlementRuns
import MinionAgent.Execution.RustSettlement
import MinionAgent.Library.Utf8Pending
import MinionAgent.Tools.ImageScan
import MinionAgent.Skills.RustIgnore
import MinionAgent.Execution.ReadTextLines
import MinionAgent.Execution.NodeWin32
import MinionAgent.Execution.Listing
import MinionAgent.Tools.SpawnEnvironment
import MinionAgent.Tools.EditApply
import MinionAgent.Tools.EditErrors
import MinionAgent.Tools.PatchApplies
import MinionAgent.Tools.DisplayNumbers
import MinionAgent.Tools.HeadMaximal
import MinionAgent.Tools.EditFile
import MinionAgent.Session.EventNames
import MinionAgent.Library.Ownership
import MinionAgent.Llm.Registrations
import MinionAgent.Library.Settling
import MinionAgent.Llm.Streams
import MinionAgent.Library.PropertyOrder
import MinionAgent.Llm.ObjectHeap
import MinionAgent.Llm.JsObjectRuns
import MinionAgent.Llm.ArgumentObject
import MinionAgent.Llm.PreparedClone
import MinionAgent.Llm.Adopt
import MinionAgent.Llm.TreeOrder
import MinionAgent.Skills.FrontmatterSafe
import MinionAgent.Tools.CarrierSound
import MinionAgent.Tools.BatchRuns
import MinionAgent.AgentLoop.Grammatical
import MinionAgent.AgentLoop.ModelVisible
import MinionAgent.AgentLoop.Projected
