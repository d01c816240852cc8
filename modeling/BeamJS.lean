import BeamJS.Lib.Transition
import BeamJS.Js.JsString
import BeamJS.Js.Proofs.JsStringProofs
import BeamJS.Js.Number
import BeamJS.Lib.Assoc
import BeamJS.Js.Value
import BeamJS.Js.PlainData
import BeamJS.Js.Proofs.ValueProofs
import BeamJS.Erl.Term
import BeamJS.Nif.TermConvert
import BeamJS.Nif.HostCall
import BeamJS.Nif.ReplySlot
import BeamJS.Nif.Eval
import BeamJS.Nif.Proofs.EvalProofs
import BeamJS.Nif.Proofs.ReplySlotProofs
import BeamJS.Nif.Transport
import BeamJS.Nif.Proofs.TransportProofs
import BeamJS.Core.PidHandle
import BeamJS.Core.Proofs.PidHandleProofs
import BeamJS.Lib.Program
import BeamJS.Core.Otp
import BeamJS.Core.Process
import BeamJS.Core.System
import BeamJS.Core.Proofs.SystemProofs
import BeamJS.Core.Mailbox
import BeamJS.Core.Proofs.MailboxProofs
import BeamJS.Core.GenServer
import BeamJS.Js.Proofs.NumberProofs
import BeamJS.Nif.Proofs.TermConvertProofs
import BeamJS.Core.Proofs.GenServerProofs
import BeamJS.Stdlib.Match
import BeamJS.Stdlib.Proofs.MatchProofs
import BeamJS.Stdlib.Pipe
import BeamJS.Stdlib.Proofs.PipeProofs
import BeamJS.Stdlib.Test
import BeamJS.Cli.Test
import BeamJS.Cli.Proofs.TestProofs
import BeamJS.Lib.LexPath
import BeamJS.Nif.ModuleLoader
import BeamJS.Nif.Proofs.ModuleLoaderProofs
import BeamJS.Core.ModuleResolver
import BeamJS.Core.Proofs.ModuleResolverProofs
import BeamJS.Core.Handler
import BeamJS.Core.Proofs.HandlerProofs
import BeamJS.Lib.Recursion
import BeamJS.Nif.HeapConvert
import BeamJS.Nif.Proofs.HeapConvertProofs
import BeamJS.Nif.Jobs
import BeamJS.Nif.Proofs.JobsProofs
import BeamJS.Js.Source
import BeamJS.Nif.EvalMode
import BeamJS.Nif.Proofs.EvalModeProofs
import BeamJS.Nif.Handle
import BeamJS.Nif.Proofs.HandleProofs
import BeamJS.Lib.Spread
import BeamJS.Core.Isolation
import BeamJS.Core.Proofs.IsolationProofs
import BeamJS.Lib.Regex
import BeamJS.Core.Transpiler
import BeamJS.Core.Proofs.TranspilerProofs
import BeamJS.Nif.NumberRange
import BeamJS.Nif.Proofs.NumberRangeProofs
import BeamJS.Core.ModuleFiles
import BeamJS.Core.Proofs.ModuleFilesProofs
import BeamJS.Erl.TermEq
import BeamJS.Core.Names
import BeamJS.Core.Proofs.NamesProofs
import BeamJS.Core.HostFailure
import BeamJS.Core.Proofs.HostFailureProofs
import BeamJS.Core.InitArgs
import BeamJS.Core.Proofs.InitArgsProofs
import BeamJS.Lib.Alike
import BeamJS.Core.SupervisorBridge
import BeamJS.Core.ServerProgram
import BeamJS.Core.Proofs.SupervisorBridgeProofs
import BeamJS.Core.Proofs.ServerProgramProofs
import BeamJS.Nif.MapTrip
import BeamJS.Nif.Proofs.MapTripProofs
import BeamJS.Npm.Install
import BeamJS.Npm.Proofs.InstallProofs
import BeamJS.Npm.Launcher
import BeamJS.Npm.Proofs.LauncherProofs
import BeamJS.Stdlib.TestRun
import BeamJS.Stdlib.Proofs.TestRunProofs
import BeamJS.Lib.JsonText
import BeamJS.Js.Json
import BeamJS.Js.Proofs.JsonProofs
import BeamJS.Stdlib.Expect
import BeamJS.Stdlib.Proofs.ExpectProofs
import BeamJS.Core.Sleep
import BeamJS.Core.Proofs.SleepProofs
import BeamJS.Core.InfoDispatch
import BeamJS.Core.Proofs.InfoDispatchProofs
import BeamJS.Core.Replies
import BeamJS.Core.Proofs.RepliesProofs
import BeamJS.Lib.Linearizable
import BeamJS.Core.Agent
import BeamJS.Core.Proofs.AgentProofs
import BeamJS.Core.Spawn
import BeamJS.Core.Proofs.SpawnProofs
import BeamJS.Lib.Supply
import BeamJS.Core.SupervisorTree
import BeamJS.Core.Proofs.SupervisorTreeProofs
import BeamJS.Core.Options
import BeamJS.Core.Proofs.OptionsProofs
import BeamJS.Lib.Stateful
import BeamJS.Nif.ModuleGraph
import BeamJS.Nif.Proofs.ModuleGraphProofs
import BeamJS.Core.Declarations
import BeamJS.Core.Proofs.DeclarationsProofs
import BeamJS.Lib.Settle
import BeamJS.Nif.JobQueue
import BeamJS.Nif.Proofs.JobQueueProofs
import BeamJS.Lib.Ownership
import BeamJS.Nif.Memory
import BeamJS.Nif.Proofs.MemoryProofs
import BeamJS.Nif.Settling
import BeamJS.Nif.Proofs.SettlingProofs
import BeamJS.Core.Conversation
import BeamJS.Core.Proofs.ConversationProofs
import BeamJS.Lib.Custody
import BeamJS.Core.Sessions
import BeamJS.Core.Proofs.SessionsProofs
import BeamJS.Cli.Repl
import BeamJS.Cli.Proofs.ReplProofs
import BeamJS.Stdlib.Proofs.RegistrationProofs
