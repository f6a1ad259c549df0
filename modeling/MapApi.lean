import MapApi.Adjacent
import MapApi.Bulk
import MapApi.Commit
import MapApi.Compact
import MapApi.CompactOrder
import MapApi.CompactRun
import MapApi.CompactSchedule
import MapApi.Discipline
import MapApi.History
import MapApi.InitialSeq
import MapApi.Interleaving
import MapApi.Isolation
import MapApi.KMerge
import MapApi.Level
import MapApi.LevelNest
import MapApi.LevelSplit
import MapApi.LevelView
import MapApi.Machine
import MapApi.MapMachine
import MapApi.MatchSeq
import MapApi.MergeErrors
import MapApi.Reader
import MapApi.Retention
import MapApi.SeqMarked
import MapApi.Shown
import MapApi.SnapshotCopy
import MapApi.SortedMap
import MapApi.Staging
import MapApi.Store
import MapApi.Table
import MapApi.TableInvariant
import MapApi.TableRead
import MapApi.Transactions
import MapApi.Util
import MapApi.Versions
import MapApi.View
import MapApi.ViewRead
import MapApi.WriteRead
