import Kevy.Elect.OneVote
import Kevy.Persist.SnapshotCommit
import Kevy.Persist.ResyncTxn
import Kevy.Persist.Reshard
import Kevy.Persist.StageRun
import Kevy.Map.Sweep
import Kevy.Rank.Refine
import Kevy.Replicate.EmbedWriter
import Kevy.Replicate.Wait
import Kevy.Seg.Ledger
import Kevy.Segmented.Sizes
import Kevy.Snapshot.RoundTrip
import Kevy.Store.ReplayLater
import Kevy.Seg.SortedMap
import Kevy.SegRows.Reopen
import Kevy.Atomic.Rollback
import Kevy.Index.ShardQuery
import Kevy.Window.Answers
import Kevy.Watch.Locking
import Kevy.Moves.Conserved
import Kevy.Persist.Pieces
import Kevy.Persist.Replayable
import Kevy.Resp.ReplyEncode
import Kevy.Resp.ReplyTexts
import Kevy.Persist.Rewrite
import Kevy.Elect.Wire
import Kevy.Replicate.Client
import Kevy.Compress.Dict
import Kevy.Store.Glob
import Kevy.Store.PackedRow
import Kevy.Runtime.Inbox
import Kevy.Scope.Migration
import Kevy.Fields.Rename
import Kevy.Text.Typo
