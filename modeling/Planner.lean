import Planner.Lib.OrdDict
import Planner.Lib.EdgeGraph
import Planner.Lib.Renaming
import Planner.Lib.Program
import Planner.Lib.Interleaving
import Planner.Lib.CheckThenAct
import Planner.Lib.Trace
import Planner.Lib.Json
import Planner.Lib.Fields
import Planner.Lib.Spacing
import Planner.Calendar
import Planner.Models
import Planner.CapacityIndex
import Planner.Allocate
import Planner.Greedy
import Planner.PlacementLoop
import Planner.DependencyLaw
import Planner.Accounting
import Planner.Text
import Planner.Store
import Planner.Repo
import Planner.CriticalPath
import Planner.AddProject
import Planner.Proposal
import Planner.ProposalTables
import Planner.ProposalText
import Planner.DaysOff
import Planner.PlacementErrors
import Planner.PlainPlan
import Planner.DaysOffMissed
import Planner.ConfirmPlan
import Planner.Lifecycle
import Planner.LifecycleThreads
import Planner.LifecycleIds
import Planner.LifecycleStatus
import Planner.PlanLifecycle
import Planner.Confirmation
import Planner.Bookings
import Planner.Edits
import Planner.Replan
import Planner.ReplanEdges
import Planner.EditTables
import Planner.CommittedVersion
import Planner.Acts
import Planner.ActTables
import Planner.PayloadDates
import Planner.TaskRows
import Planner.ActRuns
import Planner.AssignmentHours
import Planner.EditsSurvive
import Planner.ReplanRequest
import Planner.FinishedWork
import Planner.Lib.FirstFit
import Planner.ReplanLoad
import Planner.CleanReplan
import Planner.IsoDate
import Planner.PlanCodec
import Planner.Lib.ForwardPass
import Planner.Lib.LongestPath
import Planner.Workdays
import Planner.WorkdayLoops
import Planner.WorkdayCount
import Planner.Network
import Planner.PlacementDays
import Planner.TurnLoad
import Planner.NetworkBound
import Planner.EarliestEnd
import Planner.LoadSeed
import Planner.TemplateRows
import Planner.TemplatePipeline
import Planner.Lib.Faults
import Planner.ConfirmFaults
import Planner.AddProjectFaults
import Planner.LostUpdates
import Planner.Patterns
import Planner.Intent
import Planner.BasicParser
import Planner.Agent
import Planner.FrontEnd
import Planner.Capture
import Planner.Aside
import Planner.Standing
import Planner.EditLoop
import Planner.EditLoopRuns
import Planner.EditChain
import Planner.Tools
import Planner.AgentTurn
import Planner.Clarify
import Planner.ToolEffects
import Planner.TurnRuns
import Planner.TurnAnswers
import Planner.Updates
import Planner.Strangers
import Planner.ChatHistory
import Planner.ConfirmWays
import Planner.InterruptedTurns
import Planner.CaptureRuns
import Planner.OperationRuns
import Planner.DispatchTools
import Planner.ToolCaptures
import Planner.AuditTrail
import Planner.CaptureRace
import Planner.TurnCaptures
import Planner.TurnFiling
import Planner.ClarifyRuns
import Planner.ClarifySafety
import Planner.ClarifyButtons
import Planner.ClarifiedCapture
import Planner.ClarifyOverPlans
import Planner.TaskMetas
import Planner.DoneTicks
import Planner.ChatRequests
import Planner.RequestEffects
import Planner.LiveCaptures
import Planner.AdminBoard
import Planner.BoardLoad
import Planner.IsDayOff
import Planner.TaskFaults
import Planner.NeedlessOverload
import Planner.OverloadFlags
import Planner.WellPlaced
import Planner.CompletePlan
import Planner.PlanErrors
import Planner.ExecutorBinding
import Planner.EarliestSplit
import Planner.BackwardMode
import Planner.RowOrder
import Planner.DependencyOrder
import Planner.Capability
import Planner.TeamLoad
import Planner.DateReader
import Planner.EarliestFit
import Planner.VacationDays
import Planner.LoadCapability
import Planner.CapabilitySeed
import Planner.PersonNames
import Planner.TaskReferences
import Planner.MirrorCount
import Planner.MirrorNames
import Planner.NotionMapping
import Planner.NotionFields
import Planner.NotionSink
import Planner.LoginWidget
import Planner.WebSessions
import Planner.AdminWrites
import Planner.Throttle
import Planner.Naming
import Planner.NamedRuns
import Planner.Anonymity
import Planner.AgentProtocol
import Planner.GroupVoices
import Planner.ProjectCard
import Planner.CardSink
import Planner.PlanDiff
import Planner.WhatIf
import Planner.VacationPreview
import Planner.ReplanText
import Planner.Lib.Chains
import Planner.Delays
import Planner.LoadLedger
