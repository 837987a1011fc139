import Montage.Tracker.Trackers
import Montage.Advancer.Sync
import Montage.ToBeFreed.Reclaim
import Montage.Durable.Deletion
import Montage.Dcss.Status
import Montage.Recover.Idempotent
import Montage.Recover.Restart
import Montage.Durable.Cutoff
import Montage.Recoverable.Abort
import Montage.Recoverable.Writeback
import Montage.EpochSys.Ids
import Montage.MSQueue.Fifo
import Montage.LfHashTable.Linearizable
import Montage.Dcss.Advancer
import Montage.ToBeFreed.Deferred
import Montage.Recoverable.Leftovers
import Montage.ToBePersisted.Registration
import Montage.MontageGraph.Payloads
import Montage.MontageGraph.Recover
import Montage.MontageGraph.Concurrent
import Montage.SSHashTable.Resize
import Montage.NatarajanTree.Mirror
import Montage.Mindicator.Writers
import Montage.RCUTracker.Reclaim
import Montage.FriedmanQueue.Announced
import Montage.HTMvEBTree.Calls
import Montage.SOFTHashTable.Removers
import Montage.SOFTHashTable.Keys
import Montage.SSHashTable.Keys
import Montage.Mindicator.Construct
import Montage.CircBuffer.Fifo
import Montage.DaliUnorderedMap.Versions
import Montage.MontageHashTable.Crash
