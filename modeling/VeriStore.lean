import VeriStore.Lib.Bytes
import VeriStore.Lib.Checksum
import VeriStore.Lib.Text
import VeriStore.Store.MemTable
import VeriStore.Log.Record
import VeriStore.Log.Replay
import VeriStore.Log.Scan
import VeriStore.Log.Corruption
import VeriStore.Lib.Crc
import VeriStore.Log.Crc
import VeriStore.Log.Repair
import VeriStore.Lib.Visible
import VeriStore.Lib.Updates
import VeriStore.Lib.History
import VeriStore.Sstable.Defs
import VeriStore.Sstable.Format
import VeriStore.Sstable.Bloom
import VeriStore.Sstable.Index
import VeriStore.Sstable.Reader
import VeriStore.Sstable.Codec
import VeriStore.Sstable.Compaction
import VeriStore.Sstable.Union
import VeriStore.Store.Files
import VeriStore.Store.Worker
import VeriStore.Store.KVStore
import VeriStore.Store.Spec
import VeriStore.Store.Session
import VeriStore.Store.Recovery
import VeriStore.Store.Durability
import VeriStore.Store.Process
import VeriStore.Store.Stack
import VeriStore.Store.Cycle
import VeriStore.Store.Layers
import VeriStore.Store.Rotation
import VeriStore.Store.FailedFlush
import VeriStore.Store.Snapshot
import VeriStore.Store.Loader
import VeriStore.Store.Retry
import VeriStore.Store.Listing
import VeriStore.Store.Compaction
import VeriStore.Store.Newest
import VeriStore.Store.Logbook
import VeriStore.Store.Names
import VeriStore.Store.Manifest
import VeriStore.Store.Registration
import VeriStore.Store.Reopen
import VeriStore.Store.Restart
import VeriStore.Store.Machine
import VeriStore.Store.Opening
import VeriStore.Store.GroupCommit
import VeriStore.Lib.Calls
import VeriStore.Object.Defs
import VeriStore.Object.Codec
import VeriStore.Object.Effects
import VeriStore.Object.Catalog
import VeriStore.Object.Collector
import VeriStore.Object.Ids
import VeriStore.Object.Crash
import VeriStore.Object.Beside
import VeriStore.Object.Isolation
import VeriStore.Object.Order
import VeriStore.Object.Listing
import VeriStore.Lib.Ballots
import VeriStore.Lib.Replicas
import VeriStore.Lib.Lineage
import VeriStore.Raft.Node
import VeriStore.Raft.Quorum
import VeriStore.Raft.Cluster
import VeriStore.Raft.Steps
import VeriStore.Raft.Frames
import VeriStore.Raft.Rounds
import VeriStore.Raft.Election
import VeriStore.Raft.Replication
import VeriStore.Raft.Terms
import VeriStore.Raft.Commit
import VeriStore.Raft.Bounds
import VeriStore.Raft.Speakers
import VeriStore.Raft.Matching
import VeriStore.Raft.Bookkeeping
import VeriStore.Raft.Restart
import VeriStore.Raft.Survival
import VeriStore.Object.Checkpoint
import VeriStore.Object.Failed
import VeriStore.Store.Interrupted
import VeriStore.Store.Agreement
import VeriStore.Store.Replays
import VeriStore.Store.Deletes
import VeriStore.Raft.Stores
import VeriStore.Raft.Rejoin
import VeriStore.Raft.Leader
import VeriStore.Raft.Progress
import VeriStore.Store.Past
import VeriStore.Store.Space
import VeriStore.Object.Recovery
import VeriStore.Log.Reads
import VeriStore.Server.Client
import VeriStore.Lib.Threads
import VeriStore.Object.Concurrent
