import TortoiseSvn.LogCache.SkipLookup
import TortoiseSvn.LogCache.SkipCompression
import TortoiseSvn.LogCache.PathInsertion
import TortoiseSvn.LogCache.TokenizedStringLoad
import TortoiseSvn.LogCache.PairPackerRounds
import TortoiseSvn.LogCache.TokenizedStringRuns
import TortoiseSvn.LogCache.TokenizedStringUnify
import TortoiseSvn.Streams.PackedVectors
import TortoiseSvn.Svn.RevRanges
import TortoiseSvn.Svn.RevLists
import TortoiseSvn.Svn.RevListText
import TortoiseSvn.Streams.CacheFileOpening
import TortoiseSvn.Access.LogAdvance
import TortoiseSvn.Access.CopyFollowing
import TortoiseSvn.LogCache.Optimize
import TortoiseSvn.LogCache.PathRuns
import TortoiseSvn.LogCache.StringDictionaryMemory
import TortoiseSvn.LogCache.QuickHashRuns
import TortoiseSvn.LogCache.RevisionIndexRuns
import TortoiseSvn.LogCache.TempPathOrder
import TortoiseSvn.LogCache.ParentReplacement
import TortoiseSvn.LogCache.BoundedPath
import TortoiseSvn.LogCache.RevisionInfoLoad
import TortoiseSvn.Merge.UndoSteps
import TortoiseSvn.Merge.UndoGroups
import TortoiseSvn.Merge.UndoModified
import TortoiseSvn.Merge.TwoWayDiff
import TortoiseSvn.Merge.MovedBlocks
import TortoiseSvn.Merge.StickyHunks
import TortoiseSvn.Merge.MovedBlocksDetect
import TortoiseSvn.Merge.ThreeWayDiff
import TortoiseSvn.Merge.FileTextLines
import TortoiseSvn.Merge.LosslessLines
import TortoiseSvn.Merge.UnicodeType
import TortoiseSvn.Merge.FilterRoundTrip
import TortoiseSvn.Merge.StripComments
import TortoiseSvn.Merge.SaveConflicts
import TortoiseSvn.Streams.TimeStamps
import TortoiseSvn.RevisionGraph.FullGraph
import TortoiseSvn.RevisionGraph.GraphSurgery
import TortoiseSvn.RevisionGraph.CopiedNodes
import TortoiseSvn.RevisionGraph.SearchTreeCoverage
import TortoiseSvn.Utils.EscapedUrls
import TortoiseSvn.RevisionGraph.PathClassificator
import TortoiseSvn.Svn.PathEquivalence
import TortoiseSvn.Lib.Neighbours
import TortoiseSvn.Svn.RemovedPaths
import TortoiseSvn.Svn.CommonRoot
import TortoiseSvn.RevisionGraph.FoldedTagDepths
import TortoiseSvn.Merge.InsideString
import TortoiseSvn.Lib.Glob
import TortoiseSvn.Utils.WildCompare
import TortoiseSvn.Lib.LinkedIndex
import TortoiseSvn.Utils.LruCache
import TortoiseSvn.Utils.UniqueQueue
import TortoiseSvn.Utils.WordWrap
import TortoiseSvn.Merge.ScreenLines
import TortoiseSvn.RevisionGraph.ClassificationFlags
import TortoiseSvn.RevisionGraph.BackwardClassification
import TortoiseSvn.RevisionGraph.FindRenames
import TortoiseSvn.Utils.UrlReading
import TortoiseSvn.Utils.EscapeTwice
import TortoiseSvn.Svn.ContainingDirectory
import TortoiseSvn.Lib.BitDescent
import TortoiseSvn.Merge.Screen2View
import TortoiseSvn.TSVNCache.WCRoots
import TortoiseSvn.Utils.CmdLineParser
import TortoiseSvn.LogCache.CommentRuns
import TortoiseSvn.Streams.CacheFileRoundTrip
import TortoiseSvn.Lib.Roles
import TortoiseSvn.Lib.SharedLock
import TortoiseSvn.Utils.ReaderWriterLock
import TortoiseSvn.Utils.ReaderWriterLockSafety
import TortoiseSvn.LogCache.PathSaving
