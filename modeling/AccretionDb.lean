import AccretionDb.Lib.Prog
import AccretionDb.Lib.Act
import AccretionDb.Lib.Bytes
import AccretionDb.Hashing
import AccretionDb.Storage.Basic
import AccretionDb.Storage.SimFs
import AccretionDb.Storage.Disk
import AccretionDb.Storage.Refine
import AccretionDb.Storage.Rules
import AccretionDb.Storage.Exec
import AccretionDb.Compaction.Cascade
import AccretionDb.Compaction.Compact
import AccretionDb.Compaction.Damage
import AccretionDb.Compaction.Layout
import AccretionDb.Compaction.Merge
import AccretionDb.Compaction.Rejected
import AccretionDb.Compaction.Table
import AccretionDb.Compaction.Tier
import AccretionDb.Db.Blocked
import AccretionDb.Db.Checked
import AccretionDb.Db.Client
import AccretionDb.Db.Crash
import AccretionDb.Db.Engine
import AccretionDb.Db.Flush
import AccretionDb.Db.Garbage
import AccretionDb.Db.Memory
import AccretionDb.Db.Open
import AccretionDb.Db.Put
import AccretionDb.Db.Quiesce
import AccretionDb.Db.Read
import AccretionDb.Db.Record
import AccretionDb.Db.Recover
import AccretionDb.Db.Retry
import AccretionDb.Db.Run
import AccretionDb.Db.Scan
import AccretionDb.Db.Session
import AccretionDb.Db.Settle
import AccretionDb.Db.Shelve
import AccretionDb.Db.Store
import AccretionDb.Db.Survey
import AccretionDb.Db.Tail
import AccretionDb.Db.Threads.Answers
import AccretionDb.Db.Threads.Files
import AccretionDb.Db.Threads.Flushes
import AccretionDb.Db.Threads.Locks
import AccretionDb.Db.Threads.Readers
import AccretionDb.Db.Threads.Runs
import AccretionDb.Db.Threads.Steps
import AccretionDb.Db.Threads.Store
import AccretionDb.Db.Write
import AccretionDb.Iter
import AccretionDb.Lib.Ascending
import AccretionDb.Lib.Checked
import AccretionDb.Lib.Instants
import AccretionDb.Lib.Keep
import AccretionDb.Lib.Layers
import AccretionDb.Lib.Parse
import AccretionDb.Lib.Posix
import AccretionDb.Lib.Rely
import AccretionDb.Lib.Runs
import AccretionDb.Manifest.Checked
import AccretionDb.Manifest.Codec
import AccretionDb.Manifest.Install
import AccretionDb.Manifest.Shelf
import AccretionDb.Manifest.Switch
import AccretionDb.Manifest.Version
import AccretionDb.Memtable
import AccretionDb.SsTable.Bloom
import AccretionDb.SsTable.Builder
import AccretionDb.SsTable.Checked
import AccretionDb.SsTable.Format
import AccretionDb.SsTable.Read
import AccretionDb.SsTable.Reader
import AccretionDb.SsTable.Write
import AccretionDb.Storage.Files
import AccretionDb.Storage.Injector
import AccretionDb.Storage.PowerLoss
import AccretionDb.Storage.RealFs
import AccretionDb.Storage.Sweep
import AccretionDb.Storage.View
import AccretionDb.Wal.Batch
import AccretionDb.Wal.Checked
import AccretionDb.Wal.Confine
import AccretionDb.Wal.Crash
import AccretionDb.Wal.Frame
import AccretionDb.Wal.GroupCommit
import AccretionDb.Wal.Image
import AccretionDb.Wal.Live
import AccretionDb.Wal.Log
import AccretionDb.Wal.Recovery
import AccretionDb.Wal.Reopen
import AccretionDb.Wal.Retry
import AccretionDb.Wal.Segment
import AccretionDb.Wal.Spec
import AccretionDb.Wal.Tail
