import Chericat.Numeral
import Chericat.SqlText
import Chericat.SqlStatement
import Chericat.ProgramRun
import Chericat.Database
import Chericat.Target
import Chericat.CapCapture
import Chericat.ElfUtils
import Chericat.RtldLinkmapScan
import Chericat.MemScan
import Chericat.TagDecoding
import Chericat.PageScan
import Chericat.ScanStages
import Chericat.ScanTables
import Chericat.TableConsistency
import Chericat.CapsViews
import Chericat.AddressText
import Chericat.BlockTotals
import Chericat.CompartAttribution
import Chericat.StatementText
import Chericat.PlainStatements
import Chericat.AttachWindows
import Chericat.ScanFailure
import Chericat.Rescan
import Chericat.SnapshotScan
import Chericat.CompartTotals
import Chericat.SqlLike
import Chericat.Graphs
import Chericat.BlockNames
import Chericat.SameLibrary
import Chericat.NumeralOrder
import Chericat.AddressOrder
import Chericat.SymbolBatches
import Chericat.SectionRecords
import Chericat.SectionLabels
import Chericat.SectionColumns
import Chericat.CompartTable
import Chericat.FetchInfo
import Chericat.FetchRuns
import Chericat.CompartGraphs
import Chericat.CapText
import Chericat.RDebugReads
import Chericat.SeenEntries
import Chericat.SeenBuffer
import Chericat.SeenRuns
import Chericat.GetString
import Chericat.LikeLiteral
import Chericat.LibSelection
import Chericat.SymbolsShown
import Chericat.CompartRows
import Chericat.PermissionClasses
import Chericat.NumeralText
import Chericat.CommandLine
import Chericat.UnreadableNames
import Chericat.Tally
import Chericat.EdgeWeights
import Chericat.FullGraph
import Chericat.CapPaths
import Chericat.RegionLabels
import Chericat.CompartWeights
import Chericat.TwoLibs
import Chericat.SourceCompart
import Chericat.SplitLibraries
import Chericat.ScanCompletes
import Chericat.RemoteStrings
import Chericat.ScanTexts
import Chericat.HistoryGraphs
import Chericat.Sessions
import Chericat.HeldCaps
import Chericat.ProcessGraphs
import Chericat.TwoComparts
import Chericat.TwoLibsZoom
import Chericat.RepeatedScans
import Chericat.ProcessViews
import Chericat.TwoLibsCopies
import Chericat.CapsToBin
