import GrandCross.CText
import GrandCross.Codes
import GrandCross.Transfer
import GrandCross.LineIo
import GrandCross.WireFormat
import GrandCross.Exec
import GrandCross.SessionState
import GrandCross.SessionRun
import GrandCross.DaemonStep
import GrandCross.Service
import GrandCross.ServiceRefine
import GrandCross.Replies
import GrandCross.ReplyGrammar
import GrandCross.SingleSlot
import GrandCross.PreAuth
import GrandCross.SerialResync
import GrandCross.ClientStream
import GrandCross.ClientPoll
import GrandCross.PutSync
import GrandCross.ResultStable
import GrandCross.LiveStream
import GrandCross.RuniFrames
import GrandCross.RuniRace
import GrandCross.AsyncClients
import GrandCross.AsyncFetch
import GrandCross.AsyncOwn
import GrandCross.Fidelity
import GrandCross.Lockstep
import GrandCross.Xdr
import GrandCross.HostFs
import GrandCross.FileHandle
import GrandCross.HandleTable
import GrandCross.HandleRuns
import GrandCross.EarlyExit
import GrandCross.NfsProc
import GrandCross.SlotRing
import GrandCross.RpcServe
import GrandCross.NfsTriples
import GrandCross.DupCache
import GrandCross.ExportPaths
import GrandCross.HandleRestart
import GrandCross.HandleMoved
import GrandCross.ReadDir
import GrandCross.ReadDirScan
import GrandCross.ReadDirRemove
import GrandCross.HoldBack
import GrandCross.TextConv
import GrandCross.TextUnits
import GrandCross.TextChunks
import GrandCross.TextFidelity
import GrandCross.TextDbcs
import GrandCross.Conf
import GrandCross.Runs
import GrandCross.LinePieces
import GrandCross.AclMatch
import GrandCross.AllowList
import GrandCross.ClientMain
import GrandCross.PathMap
import GrandCross.ClientRequest
import GrandCross.ShellWord
import GrandCross.EnvScript
import GrandCross.XdrCursor
import GrandCross.CallHeader
import GrandCross.RouteScan
import GrandCross.Hangul
import GrandCross.HangulText
import GrandCross.PathBack
import GrandCross.MapBackLines
import GrandCross.Confinement
import GrandCross.Answered
import GrandCross.WriteLog
import GrandCross.FileBytes
import GrandCross.HandleObject
import GrandCross.NfsEffects
import GrandCross.DirEntries
import GrandCross.ShellTokens
import GrandCross.ScriptTokens
import GrandCross.ExecDos
import GrandCross.DosWords
import GrandCross.ConsoleLog
import GrandCross.CapturePaths
import GrandCross.OutputCap
import GrandCross.LastWrite
import GrandCross.EnvTable
import GrandCross.PathComponents
import GrandCross.CwdMap
import GrandCross.MapBackTokens
import GrandCross.ClientXfer
import GrandCross.FieldNumber
import GrandCross.FrameHeaders
import GrandCross.PutWhole
import GrandCross.TransferRun
import GrandCross.OutputGrows
import GrandCross.TransferHeard
import GrandCross.TransferWhole
import GrandCross.RuniStdin
import GrandCross.ConfTable
import GrandCross.Handshake
import GrandCross.CmdQuotes
import GrandCross.ExecW32
import GrandCross.LiveW32
import GrandCross.W32Relay
import GrandCross.NfsCalls
import GrandCross.NfsAnswers
import GrandCross.RemoteCall
import GrandCross.IxClient
import GrandCross.IxStdin
import GrandCross.GcdsRun
import GrandCross.GcdsInteractive
import GrandCross.GcdsJob
import GrandCross.JobIds
import GrandCross.NfsdMain
