import EventLog.ConsumerOffset.Delivery
import EventLog.Raft.Availability
import EventLog.Raft.FailingSaves
import EventLog.Raft.FileStorage
import EventLog.Raft.Handover
import EventLog.Raft.Majorities
import EventLog.Raft.MatchIndex
import EventLog.Raft.Reordering
import EventLog.Raft.ReplicatedLog
import EventLog.Raft.StateFiles
import EventLog.Network.CatchUp
import EventLog.Network.RemoteLog
import EventLog.Network.Stream
import EventLog.Network.Wire
import EventLog.Segment.Discovery
import EventLog.Segment.Stability
import EventLog.Wal.BitRot
import EventLog.Wal.Burst
import EventLog.Wal.Density
import EventLog.Wal.GarbageTail
import EventLog.Wal.Reload
import EventLog.Wal.SparseIndex
import EventLog.Wal.TornIndex
import EventLog.Wal.Waiters
