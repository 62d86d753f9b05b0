import OperatingSystems.Library.CString
import OperatingSystems.Library.GuardedRun
import OperatingSystems.Dsm.LocalRefinement
import OperatingSystems.Dsm.ExclusiveWriter
import OperatingSystems.Dsm.Matching
import OperatingSystems.Dsm.PageProtocol
import OperatingSystems.Dsm.PageView
import OperatingSystems.Dsm.StaleCopies
import OperatingSystems.Dsm.LostUpdates
import OperatingSystems.Library.EraseWalk
import OperatingSystems.Library.SearchTree
import OperatingSystems.Perftop.Tables
import OperatingSystems.Perftop.Representation
import OperatingSystems.Perftop.Accounts
import OperatingSystems.Perftop.NoWrap
import OperatingSystems.Perftop.Exactness
import OperatingSystems.Perftop.Schedule
import OperatingSystems.Dsm.Sequential
import OperatingSystems.Dsm.InTurn
import OperatingSystems.Perftop.Probes
import OperatingSystems.Library.ForLoop
import OperatingSystems.S2fs.ReadFile
import OperatingSystems.Dsm.PageLoop
import OperatingSystems.Dsm.WriteLaw
import OperatingSystems.Dsm.Indices
import OperatingSystems.Dsm.Independence
import OperatingSystems.Dsm.Handshake
import OperatingSystems.Library.MessageStream
import OperatingSystems.Dsm.Stream
import OperatingSystems.Dsm.Pairing
import OperatingSystems.Dsm.Requests
import OperatingSystems.Perftop.Report
import OperatingSystems.Perftop.HashMap
import OperatingSystems.Library.Ledger
import OperatingSystems.Perftop.Ownership
import OperatingSystems.Perftop.Lifecycle
import OperatingSystems.Kds.Parser
import OperatingSystems.Kds.IntegerList
import OperatingSystems.Syscall.Cipher
import OperatingSystems.Syscall.Bounds
import OperatingSystems.Syscall.Leaks
import OperatingSystems.Kds.Nodes
import OperatingSystems.Kds.TaggedNumbers
import OperatingSystems.Kds.RedBlackTree
import OperatingSystems.Kds.HashTable
import OperatingSystems.Library.DeletionLoop
import OperatingSystems.Kds.Freeing
import OperatingSystems.Perftop.Deletion
import OperatingSystems.Kds.Bitmap
import OperatingSystems.S2fs.Mount
import OperatingSystems.Perftop.Concurrent
import OperatingSystems.Library.DemandPaging
import OperatingSystems.Uffd.FaultHandler
import OperatingSystems.Uffd.Demo
import OperatingSystems.Dsm.Paging
import OperatingSystems.Dsm.Completion
import OperatingSystems.Kds.Module
import OperatingSystems.Perftop.Counters
import OperatingSystems.Dsm.Console
import OperatingSystems.Dsm.Terminals
import OperatingSystems.S2fs.References
import OperatingSystems.Library.Getopt
import OperatingSystems.Syscall.Runner
import OperatingSystems.Dsm.StartUp
import OperatingSystems.Sockets.Hello
import OperatingSystems.Perftop.Profile
