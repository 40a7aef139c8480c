import FitProjects.Lib.Orientation
import FitProjects.Lib.Admission
import FitProjects.Lib.Table
import FitProjects.Lib.System
import FitProjects.Lib.Census
import FitProjects.Lib.PartialAutomaton
import FitProjects.Lib.WordEquivalence
import FitProjects.Lib.MinimalAutomaton
import FitProjects.Lib.DataList
import FitProjects.Lib.MessagePassing
import FitProjects.Lib.Network
import FitProjects.Lib.Rank
import FitProjects.Lib.Heap
import FitProjects.Lib.CursorList
import FitProjects.Lib.ChainedTable
import FitProjects.Lib.CString
import FitProjects.Lib.ReadP
import FitProjects.Lib.Show
import FitProjects.Lib.Bytes
import FitProjects.Lib.Hex
import FitProjects.Lib.Decimal
import FitProjects.Lib.Splits
import FitProjects.Lib.Interleaver
import FitProjects.Lib.Search
import FitProjects.Lib.Ring
import FitProjects.Lib.HeapTree
import FitProjects.Lib.BrainFuck
import FitProjects.Lib.Torus
import FitProjects.Lib.Ownership
import FitProjects.Lib.CText
import FitProjects.Lib.Runs
import FitProjects.Lib.Page
import FitProjects.Lib.LongestRun
import FitProjects.Lib.StableSort
import FitProjects.Lib.LogTables
import FitProjects.Lib.KeyEquation
import FitProjects.Lib.BerlekampMassey
import FitProjects.Lib.OnesComplement
import FitProjects.Lib.Campaign
import FitProjects.POS.TicketLock
import FitProjects.POS.TicketOrder
import FitProjects.POS.TicketWakeup
import FitProjects.POS.Shell
import FitProjects.POS.ShellHandshake
import FitProjects.POS.ShellProgram
import FitProjects.POS.ShellArguments
import FitProjects.POS.ShellLine
import FitProjects.POS.ShellScanner
import FitProjects.IOS.RiverCrossing
import FitProjects.IOS.Voyage
import FitProjects.IOS.Ferry
import FitProjects.IOS.FerryCrew
import FitProjects.IOS.FerryCount
import FitProjects.IOS.FerryLog
import FitProjects.IOS.FerryProgress
import FitProjects.IOS.RiverRefinement
import FitProjects.IOS.RiverRuns
import FitProjects.FLP.FSM
import FitProjects.FLP.Minimize
import FitProjects.FLP.Completion
import FitProjects.FLP.Equivalence
import FitProjects.FLP.Rounds
import FitProjects.FLP.Classes
import FitProjects.FLP.Reduce
import FitProjects.FLP.Reachable
import FitProjects.FLP.Language
import FitProjects.FLP.SinkName
import FitProjects.FLP.ReducedForm
import FitProjects.FLP.Parser
import FitProjects.FLP.CanonicalForm
import FitProjects.FLP.Show
import FitProjects.PRL.EnumerationSort
import FitProjects.PRL.EnumerationCorrect
import FitProjects.PRL.MeshMultiplication
import FitProjects.PRL.MeshSchedule
import FitProjects.PRL.MeshCorrect
import FitProjects.IAL.ListCall
import FitProjects.IAL.DList
import FitProjects.IAL.DListCorrect
import FitProjects.IAL.SList
import FitProjects.IAL.SListCorrect
import FitProjects.IAL.ListEquivalence
import FitProjects.IAL.SearchTree
import FitProjects.IAL.HashTable
import FitProjects.IAL.HashRange
import FitProjects.IMP.LedDisplay
import FitProjects.IAL.CharQueue
import FitProjects.IAL.BTree
import FitProjects.IAL.BTreeCorrect
import FitProjects.IAL.BTreeInsert
import FitProjects.IJC.Io
import FitProjects.IJC.Htab
import FitProjects.IJC.HtabMemory
import FitProjects.IJC.HtabBlocks
import FitProjects.IJC.HtabCalls
import FitProjects.IJC.WordCount
import FitProjects.IJC.Eratosthenes
import FitProjects.IJC.SieveAccesses
import FitProjects.IJC.Steganography
import FitProjects.IJC.Ppm
import FitProjects.IJC.Fold
import FitProjects.IJC.FoldAgreement
import FitProjects.IJC.FoldLayout
import FitProjects.IPK.Packet
import FitProjects.IPK.Passwd
import FitProjects.IPK.ClientArgs
import FitProjects.IPK.RemotePasswd
import FitProjects.IPK.NotFound
import FitProjects.IPK.ChunkedTransfer
import FitProjects.IPK.ChunkAccesses
import FitProjects.IPK.ChunkEnd
import FitProjects.IPK.KeepAlive
import FitProjects.IPK.HttpReply
import FitProjects.IPK.HttpExchange
import FitProjects.IPP.CAnalyzer
import FitProjects.IPP.HeaderParser
import FitProjects.IPP.Tokenizer
import FitProjects.IPP.HeaderComments
import FitProjects.IPP.HeaderTransparent
import FitProjects.BMS.Ecc
import FitProjects.BMS.Encoder
import FitProjects.BMS.Decoder
import FitProjects.BMS.Codewords
import FitProjects.BMS.RoundTrip
import FitProjects.BMS.Galois
import FitProjects.BMS.GaloisPolynomial
import FitProjects.BMS.PolynomialArrays
import FitProjects.BMS.ReedSolomon
import FitProjects.BMS.Berlekamp
import FitProjects.BMS.BerlekampCorrect
import FitProjects.BMS.Rscode
import FitProjects.BMS.Demultiplexor
import FitProjects.BMS.TableLoops
import FitProjects.BMS.Bitrate
import FitProjects.BMS.PatExtraction
import FitProjects.BMS.PmtExtraction
import FitProjects.ISA.Server
import FitProjects.ISA.ConnectionLimit
import FitProjects.ISA.FtpEnd
import FitProjects.ISA.FtpSegmentation
import FitProjects.IZG.Triangle
import FitProjects.IZG.Fragments
import FitProjects.IZG.FragmentSort
import FitProjects.IIS.Stock
import FitProjects.IIS.Orders
import FitProjects.INP.Cpu
import FitProjects.INP.CpuRefinement
import FitProjects.IMS.CellularAutomaton
import FitProjects.IMS.Accounting
import FitProjects.PDS.Packet
import FitProjects.PDS.Arp
import FitProjects.PDS.Icmpv6
import FitProjects.PDS.Spoofer
import FitProjects.PDS.SpooferRestore
import FitProjects.PDS.Interceptor
import FitProjects.INC.Fsm
import FitProjects.INC.AccessTerminal
import FitProjects.IZP.Bitmap
import FitProjects.IZP.LongestLine
import FitProjects.IZP.Square
import FitProjects.IZP.SquareSearch
import FitProjects.IZP.SymbolCount
import FitProjects.FLP.Rounds
