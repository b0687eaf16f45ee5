import SystemProgramming.Transition
import SystemProgramming.Lightswitch
import SystemProgramming.ReadersWriters
import SystemProgramming.WriterPriority
import SystemProgramming.ByteFile
import SystemProgramming.FileContents
import SystemProgramming.RegionWrites
import SystemProgramming.LockTable
import SystemProgramming.RingBuffer
import SystemProgramming.ParkingLot
import SystemProgramming.ParkingHandshake
import SystemProgramming.ParkingProgress
import SystemProgramming.Interleave
import SystemProgramming.TwoFifos
import SystemProgramming.ForkWait
import SystemProgramming.HandlerTeardown
import SystemProgramming.WaitQueue
import SystemProgramming.QueueTeardown
import SystemProgramming.QueueAccesses
import SystemProgramming.AdmissionLoop
import SystemProgramming.AdmissionSlots
import SystemProgramming.Monitor
import SystemProgramming.CopyBuffer
import SystemProgramming.CopyBufferInvariant
import SystemProgramming.CopyBufferProgress
import SystemProgramming.PideShop
import SystemProgramming.OrderTable
import SystemProgramming.PideShopInvariant
import SystemProgramming.PideShopBatches
import SystemProgramming.PideShopLifeCycle
import SystemProgramming.Oven
import SystemProgramming.Kitchen
import SystemProgramming.Strtok
import SystemProgramming.LineReader
import SystemProgramming.Lines
import SystemProgramming.FileServer
import SystemProgramming.FileServerReplies
import SystemProgramming.ArgumentArray
import SystemProgramming.NumericArguments
import SystemProgramming.ArrayStores
import SystemProgramming.ReplyBuffers
import SystemProgramming.RequestLog
import SystemProgramming.SeekLine
import SystemProgramming.Shell
import SystemProgramming.LineOverwrite
import SystemProgramming.LineReplies
import SystemProgramming.Registration
import SystemProgramming.RequestLocks
import SystemProgramming.RequestLocksReturned
import SystemProgramming.FailingRegions
import SystemProgramming.TreeWalk
import SystemProgramming.CopyBufferFlight
import SystemProgramming.TreeCopy
import SystemProgramming.TreeCopyFiles
import SystemProgramming.TreeCopyWorkers
import SystemProgramming.TreeCopyTraversal
import SystemProgramming.TreeCopyCalls
import SystemProgramming.TreeCopyWhole
import SystemProgramming.WholeFileReplies
import SystemProgramming.FileTransfer
import SystemProgramming.TreeCopyRoaming
import SystemProgramming.TreeCopyInterrupted
import SystemProgramming.RepeatedList
import SystemProgramming.GrowingTree
import SystemProgramming.TraversalEnds
import SystemProgramming.FifoOverflow
import SystemProgramming.BubbleSort
import SystemProgramming.Strcmp
import SystemProgramming.GradeSort
import SystemProgramming.ShellTokens
import SystemProgramming.StudentSearch
import SystemProgramming.ParkingBooks
import SystemProgramming.ShortRead
import SystemProgramming.OrderStream
import SystemProgramming.BufferTokens
import SystemProgramming.LineFile
import SystemProgramming.NameSort
import SystemProgramming.GradeReader
import SystemProgramming.Paging
import SystemProgramming.ForkWaitRuns
import SystemProgramming.GradeBook
import SystemProgramming.GradeBookSessions
import SystemProgramming.FileServerDialogue
import SystemProgramming.FileServerSessions
import SystemProgramming.SerialRegions
import SystemProgramming.ServerShutdown
import SystemProgramming.TableAppends
import SystemProgramming.TableRefinement
import SystemProgramming.PideShopAttention
import SystemProgramming.PideShopDelivery
