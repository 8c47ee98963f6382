import CLite.Lib.BoundedSink
import CLite.Lib.ByteMemory
import CLite.Lib.CallRun
import CLite.Lib.Congruential
import CLite.Lib.Delimited
import CLite.Lib.Fallible
import CLite.Lib.FreeList
import CLite.Lib.History
import CLite.Lib.KeyedArray
import CLite.Lib.Leftmost
import CLite.Lib.Logged
import CLite.Lib.LongestPrefix
import CLite.Lib.LoopTrace
import CLite.Lib.Machine32
import CLite.Lib.Metered
import CLite.Lib.Ownership
import CLite.Lib.Query
import CLite.Lib.Rearrangement
import CLite.Lib.Regions
import CLite.Lib.Simulation
import CLite.Lib.StackedExtents
import CLite.Lib.Wildcard
import CLite.Model.CString
import CLite.Model.Crt0
import CLite.Model.Dirent
import CLite.Model.Dprintf
import CLite.Model.Duplicates
import CLite.Model.Environ
import CLite.Model.Exec
import CLite.Model.ExecLists
import CLite.Model.Fnmatch
import CLite.Model.FormatCursors
import CLite.Model.Getopt
import CLite.Model.Glob
import CLite.Model.GlobOwned
import CLite.Model.GlobWrites
import CLite.Model.HeapRun
import CLite.Model.Inet
import CLite.Model.Itoa
import CLite.Model.Lifetimes
import CLite.Model.Malloc
import CLite.Model.Nested
import CLite.Model.OutputStreams
import CLite.Model.Paths
import CLite.Model.Printf
import CLite.Model.Rand
import CLite.Model.Scanf
import CLite.Model.Setjmp
import CLite.Model.Signals
import CLite.Model.Sorting
import CLite.Model.StreamCalls
import CLite.Model.Streams
import CLite.Model.Strftime
import CLite.Model.StringOps
import CLite.Model.StringReads
import CLite.Model.Strtod
import CLite.Model.Substrings
import CLite.Model.Syscalls
import CLite.Model.Sysinfo
import CLite.Model.TempNames
import CLite.Model.Texts
import CLite.Model.Tokens
import CLite.Spec.AddressNotation
import CLite.Spec.Arena
import CLite.Spec.Decimals
import CLite.Spec.DirReads
import CLite.Spec.DirRecords
import CLite.Spec.EnvMap
import CLite.Spec.ExplicitDots
import CLite.Spec.GlobAllocations
import CLite.Spec.GlobPaths
import CLite.Spec.HeapView
import CLite.Spec.Indicators
import CLite.Spec.IntegerFields
import CLite.Spec.Lifetimes
import CLite.Spec.LogicalStream
import CLite.Spec.Numerals
import CLite.Spec.OrdinaryBackslash
import CLite.Spec.PathComponents
import CLite.Spec.PathPieces
import CLite.Spec.PatternTokens
import CLite.Spec.PrintDirectives
import CLite.Spec.PrintPieces
import CLite.Spec.PrintTraces
import CLite.Spec.ProcTexts
import CLite.Spec.ScanDirectives
import CLite.Spec.ScanFields
import CLite.Spec.ScanTraces
import CLite.Spec.SharedFile
import CLite.Spec.Signals
import CLite.Spec.StringFields
import CLite.Spec.Texts
import CLite.Spec.TimeText
import CLite.Spec.Transfers
import CLite.Proofs.AddressNotation
import CLite.Proofs.ArenaSteps
import CLite.Proofs.BracketParse
import CLite.Proofs.EnvEntries
import CLite.Proofs.FnmatchTokens
import CLite.Proofs.FreeRefines
import CLite.Proofs.GlobAllocations
import CLite.Proofs.GlobExpand
import CLite.Proofs.GlobMemory
import CLite.Proofs.GlobOwned
import CLite.Proofs.GlobSelect
import CLite.Proofs.GlobSplit
import CLite.Proofs.Handles
import CLite.Proofs.HeapAccounts
import CLite.Proofs.HeapRuns
import CLite.Proofs.HeapSteps
import CLite.Proofs.InetText
import CLite.Proofs.MallocRefines
import CLite.Proofs.Nested
import CLite.Proofs.Numerals
import CLite.Proofs.PathPieces
import CLite.Proofs.PatternLanguage
import CLite.Proofs.PrintDirectives
import CLite.Proofs.PrintFormats
import CLite.Proofs.PrintLayout
import CLite.Proofs.PrintRooms
import CLite.Proofs.ScanFields
import CLite.Proofs.ScanNumbers
import CLite.Proofs.ScanRounds
import CLite.Proofs.ScanTraces
import CLite.Proofs.Sorting
import CLite.Proofs.Texts
import CLite.Soundness.Bsearch
import CLite.Soundness.Crt0
import CLite.Soundness.DirReads
import CLite.Soundness.Dirent
import CLite.Soundness.Dirname
import CLite.Soundness.Dprintf
import CLite.Soundness.Duplicates
import CLite.Soundness.Environ
import CLite.Soundness.ExecLists
import CLite.Soundness.Execvp
import CLite.Soundness.Fgets
import CLite.Soundness.Fnmatch
import CLite.Soundness.FnmatchNoescape
import CLite.Soundness.FnmatchPathname
import CLite.Soundness.FnmatchPeriod
import CLite.Soundness.Getopt
import CLite.Soundness.GetoptProgress
import CLite.Soundness.GlobAppend
import CLite.Soundness.GlobBuffers
import CLite.Soundness.GlobDepth
import CLite.Soundness.GlobDirectories
import CLite.Soundness.GlobDirents
import CLite.Soundness.GlobExact
import CLite.Soundness.GlobLiteral
import CLite.Soundness.GlobMemory
import CLite.Soundness.GlobNospace
import CLite.Soundness.HeapContract
import CLite.Soundness.HeapFrees
import CLite.Soundness.HeapInvariant
import CLite.Soundness.Indicators
import CLite.Soundness.InetAton
import CLite.Soundness.InetPton
import CLite.Soundness.InetRoundTrip
import CLite.Soundness.Itoa
import CLite.Soundness.Lifetimes
import CLite.Soundness.LoadAverages
import CLite.Soundness.Meminfo
import CLite.Soundness.Memmove
import CLite.Soundness.Nested
import CLite.Soundness.PrintArguments
import CLite.Soundness.PrintBounds
import CLite.Soundness.PrintBuffer
import CLite.Soundness.PrintIntegers
import CLite.Soundness.PrintScan
import CLite.Soundness.PrintScanRecords
import CLite.Soundness.PrintTruncation
import CLite.Soundness.Qsort
import CLite.Soundness.Rand
import CLite.Soundness.Realpath
import CLite.Soundness.Resolvers
import CLite.Soundness.ScanBounds
import CLite.Soundness.ScanCounts
import CLite.Soundness.ScanWidths
import CLite.Soundness.Setjmp
import CLite.Soundness.SharedFile
import CLite.Soundness.Signals
import CLite.Soundness.SortingCalls
import CLite.Soundness.Streams
import CLite.Soundness.Strftime
import CLite.Soundness.StringPrecision
import CLite.Soundness.Strtod
import CLite.Soundness.Strtol
import CLite.Soundness.Substrings
import CLite.Soundness.Syscalls
import CLite.Soundness.TempNames
import CLite.Soundness.TextReadings
import CLite.Soundness.TextTables
import CLite.Soundness.Texts
import CLite.Soundness.Tokens
import CLite.Soundness.Transfers
import CLite.Soundness.Unsetenv
import CLite.Soundness.Vasprintf
import CLite.Soundness.WideNumbers
