import JiuwenSpec.Callback.Delivery
import JiuwenSpec.Callback.Registration
import JiuwenSpec.Clients.ConnectorPools
import JiuwenSpec.Condition.DepthGuard
import JiuwenSpec.Condition.PythonMeaning
import JiuwenSpec.Context.LastMessages
import JiuwenSpec.Context.RoundWindow
import JiuwenSpec.Controller.SignalTruth
import JiuwenSpec.Controller.TaskManager
import JiuwenSpec.FileTools.EditFrame
import JiuwenSpec.FileTools.SeenContent
import JiuwenSpec.Goal.Clock
import JiuwenSpec.Graph.BarrierProgress
import JiuwenSpec.Graph.BarrierTermination
import JiuwenSpec.Graph.StreamProcessor
import JiuwenSpec.Interaction.GoalLimits
import JiuwenSpec.Interaction.OutputLease
import JiuwenSpec.Permission.AccessAllows
import JiuwenSpec.Permission.AllowAlways
import JiuwenSpec.Permission.NarrowOnly
import JiuwenSpec.Permission.NetUrls
import JiuwenSpec.Permission.RuleOrder
import JiuwenSpec.Permission.ShellScanner
import JiuwenSpec.Pregel.ManagerRuns
import JiuwenSpec.Pregel.RunIsolation
import JiuwenSpec.Pregel.TaskPool
import JiuwenSpec.Pregel.Termination
import JiuwenSpec.Resources.TagIndex
import JiuwenSpec.Rounds.Phases
import JiuwenSpec.Session.ActiveRuns
import JiuwenSpec.Session.DownstreamLinks
import JiuwenSpec.Session.OrphanCleanup
import JiuwenSpec.Session.PathLaw
import JiuwenSpec.Session.PersistenceFrame
import JiuwenSpec.Session.SessionCommit
import JiuwenSpec.Session.Survival
import JiuwenSpec.Store.ChromaFilter
import JiuwenSpec.Store.FilterEscapes
import JiuwenSpec.Store.KVAgreement
import JiuwenSpec.Subagent.EveryInput
import JiuwenSpec.Subagent.History
import JiuwenSpec.Subagent.Pagination
import JiuwenSpec.Subagent.SlotIdentity
import JiuwenSpec.Subagent.Waiting
import JiuwenSpec.Swarm.AdmissionGates
import JiuwenSpec.Swarm.BudgetGate
import JiuwenSpec.Swarm.CallSignature
import JiuwenSpec.Swarm.ResumeEquivalence
import JiuwenSpec.Symphony.EvidenceSubmission
import JiuwenSpec.Symphony.ExactlyOnce
import JiuwenSpec.Symphony.OverlaySchedule
import JiuwenSpec.Symphony.RecipeGroups
import JiuwenSpec.SysOperation.LockLeases
import JiuwenSpec.SysOperation.LockSections
import JiuwenSpec.Team.ActiveTasks
import JiuwenSpec.Team.CancelSweep
import JiuwenSpec.Team.CycleDetector
import JiuwenSpec.Team.DependencyOrder
import JiuwenSpec.Team.Evolution
import JiuwenSpec.Team.InteractRouting
import JiuwenSpec.Team.ModelAllocation
import JiuwenSpec.Team.OneLeader
import JiuwenSpec.Team.OtherWritePaths
import JiuwenSpec.Team.ReadsStay
import JiuwenSpec.Team.RejectedRequests
import JiuwenSpec.Team.ReviewRounds
import JiuwenSpec.Team.ReviewTally
import JiuwenSpec.Team.SafeRemoval
import JiuwenSpec.Team.SessionFiles
import JiuwenSpec.Vcs.RewindHistory
import JiuwenSpec.Vcs.SessionTrack
import JiuwenSpec.Vcs.StateExactness
import JiuwenSpec.Workflow.LoopRounds
