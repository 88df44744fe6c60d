import PiMono.Ai.SseCuts
import PiMono.Ai.EventStream
import PiMono.Ai.Uuid
import PiMono.Harness.Paging
import PiMono.Ai.ToolPairing
import PiMono.Ai.OAuthRefresh
import PiMono.Ai.AnthropicAssembly
import PiMono.CodingAgent.BranchedContext
import PiMono.CodingAgent.CurrentRequest
import PiMono.CodingAgent.MemoryRun
import PiMono.CodingAgent.SessionDurability
import PiMono.CodingAgent.SettingsLock
import PiMono.CodingAgent.AuthFile
import PiMono.CodingAgent.SessionFork
import PiMono.Harness.JsonlFailures
import PiMono.Tui.OverlayFocus
import PiMono.Tui.KillRing
import PiMono.Tui.PasteMarkers
import PiMono.Tui.WordNavigation
import PiMono.Tui.WordWrap
import PiMono.Protocol.CborRoundTrip
import PiMono.Sqlite.WriterFencing
import PiMono.CodingAgent.ProjectMemoryRace
import PiMono.Protocol.Framing
import PiMono.CodingAgent.OutputSnapshot
import PiMono.Server.Convergence
import PiMono.Server.SessionUse
import PiMono.Client.Requests
import PiMono.Client.LeaseCounts
import PiMono.Protocol.CodecDelivery
import PiMono.CodingAgent.ExactEdits
import PiMono.CodingAgent.EditTool
import PiMono.CodingAgent.FileMutationOrder
import PiMono.CodingAgent.AuthReadsFresh
import PiMono.Harness.CompactionCoverage
import PiMono.Harness.CompactionProgress
import PiMono.Agent.ProxyTermination
import PiMono.CodingAgent.RecoveryBounds
import PiMono.CodingAgent.Idle
import PiMono.CodingAgent.Abort
import PiMono.Ai.ResponsesStream
import PiMono.Ai.ResponsesAssembly
import PiMono.CodingAgent.BranchSummary
import PiMono.CodingAgent.TruncateLimits
import PiMono.CodingAgent.ReadTool
import PiMono.Harness.ToolResults
import PiMono.Harness.Truncate
import PiMono.Harness.ShellOutput
import PiMono.CodingAgent.ObservationSources
import PiMono.CodingAgent.BranchWalk
import PiMono.CodingAgent.CutPoint
import PiMono.CodingAgent.DiffString
import PiMono.Lib.GreedyFit
import PiMono.CodingAgent.MemoryMessage
import PiMono.CodingAgent.MigratedChain
import PiMono.Lib.LineChunks
import PiMono.Lib.LineCursor
import PiMono.CodingAgent.HeaderScan
import PiMono.CodingAgent.ProjectMemorySearch
import PiMono.Agent.ToolBatch
import PiMono.Agent.AgentLoop
import PiMono.Agent.QueuedMessages
import PiMono.Agent.RunEvents
import PiMono.Tui.Input
import PiMono.Tui.InputYanks
import PiMono.Tui.Stack
import PiMono.Ai.JsonRepair
import PiMono.Ai.ValidArguments
import PiMono.Ai.Retry
import PiMono.Ai.RepairedTexts
import PiMono.CodingAgent.RpcClient
import PiMono.CodingAgent.PromptTemplates
import PiMono.CodingAgent.QueueMirror
import PiMono.Tui.MarkdownTable
import PiMono.CodingAgent.ModelResolver
import PiMono.Ai.DeferredTools
