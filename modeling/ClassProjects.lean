import ClassProjects.Lib.Machine
import ClassProjects.Lib.KeyedList
import ClassProjects.Lib.DoWhile
import ClassProjects.Lib.Recency
import ClassProjects.Lib.Reuse
import ClassProjects.Lib.Potential
import ClassProjects.Lib.Lines
import ClassProjects.Lib.Chunks
import ClassProjects.Lib.NodeList
import ClassProjects.Lib.Tokens
import ClassProjects.Lib.Scan
import ClassProjects.Lib.TwoPhase
import ClassProjects.Lib.Replica
import ClassProjects.Lib.Qsort
import ClassProjects.Lib.ForLoop
import ClassProjects.Lib.Heap
import ClassProjects.CString
import ClassProjects.Ims.Protocol
import ClassProjects.Ims.Database
import ClassProjects.Ims.Handlers
import ClassProjects.Ims.Rep
import ClassProjects.Ims.HandlerSpec
import ClassProjects.Ims.PairAutomaton
import ClassProjects.Ims.Notification
import ClassProjects.Ims.Answers
import ClassProjects.Ims.Delivery
import ClassProjects.Ims.Frame
import ClassProjects.Ims.Sessions
import ClassProjects.Ims.Binding
import ClassProjects.Ims.ReceiveLoop
import ClassProjects.Ims.Segments
import ClassProjects.Ims.Batch
import ClassProjects.Ims.Accumulator
import ClassProjects.Ims.Storage
import ClassProjects.Ims.Persistence
import ClassProjects.Ims.Loader
import ClassProjects.Ims.Arrays
import ClassProjects.Ims.FileFormat
import ClassProjects.Ims.RegisterRace
import ClassProjects.Ims.LoginRace
import ClassProjects.Ims.FriendHeap
import ClassProjects.Ims.FriendRace
import ClassProjects.Ims.Cndb
import ClassProjects.Ims.Canonical
import ClassProjects.Ims.Restart
import ClassProjects.Ims.Lifecycle
import ClassProjects.Ims.Replica
import ClassProjects.Ims.Consent
import ClassProjects.Ims.TextClient
import ClassProjects.Ims.Command
import ClassProjects.Csim.Cache
import ClassProjects.Csim.Lru
import ClassProjects.Csim.Blocks
import ClassProjects.Csim.Trace
import ClassProjects.Csim.Account
import ClassProjects.Csim.Victim
import ClassProjects.Csim.Inclusion
import ClassProjects.Csim.Memory
import ClassProjects.Csim.Address
import ClassProjects.Mancala.Board
import ClassProjects.Mancala.Sowing
import ClassProjects.Mancala.Termination
import ClassProjects.Mancala.Play
import ClassProjects.Mancala.Distribution
import ClassProjects.Mancala.Symmetry
import ClassProjects.Mancala.Session
import ClassProjects.Shell.Parse
import ClassProjects.Shell.Buffer
import ClassProjects.Shell.Printer
import ClassProjects.Shell.Process
import ClassProjects.Shell.Grammar
import ClassProjects.Shell.Reader
import ClassProjects.Shell.Source
import ClassProjects.Shell.Memory
import ClassProjects.Shell.Host
