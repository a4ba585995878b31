import Zatch.Lib.Machine
import Zatch.Lib.Cyclic
import Zatch.Lib.LineWriter
import Zatch.Lib.FileCells
import Zatch.Lib.FileSystem
import Zatch.Lib.Sweep
import Zatch.Lib.Fed
import Zatch.Lib.Lines
import Zatch.Sys
import Zatch.Protocol
import Zatch.Framing
import Zatch.Scrollback
import Zatch.WriteLoops
import Zatch.Daemon
import Zatch.DaemonRun
import Zatch.SendToClients
import Zatch.ClientSteps
import Zatch.Delivery
import Zatch.Push
import Zatch.Descriptors
import Zatch.Flags
import Zatch.Cursor
import Zatch.Replay
import Zatch.Evict
import Zatch.FdSetSize
import Zatch.AttachRace
import Zatch.Child
import Zatch.Life
import Zatch.Ledger
import Zatch.Conversation
import Zatch.Delivered
import Zatch.LogFile
import Zatch.LogSessions
import Zatch.Names
import Zatch.Info
import Zatch.Sizes
import Zatch.Tail
import Zatch.Follow
import Zatch.Chain
import Zatch.Files
import Zatch.AppLog
import Zatch.Records
import Zatch.Stdin
import Zatch.AttachClient
import Zatch.AttachTerminal
import Zatch.AttachTalk
import Zatch.AttachTyped
import Zatch.AttachResize
import Zatch.Startup
import Zatch.StartRace
import Zatch.Afterwards
import Zatch.Stopping
import Zatch.Commands
import Zatch.Listing
import Zatch.Marks
import Zatch.ListText
import Zatch.SessionDir
import Zatch.RmAll
import Zatch.Removing
