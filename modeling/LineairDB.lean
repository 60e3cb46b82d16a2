import LineairDB.Recovery.Checksum
import LineairDB.Durability.Checkpoint
import LineairDB.Lives.Purge
import LineairDB.Lives.Versions
import LineairDB.Recovery.ZeroTail
import LineairDB.Durability.Barrier
import LineairDB.Lives.Deadlock
import LineairDB.Lives.Inserts
import LineairDB.Lives.Lists
import LineairDB.Lives.Unique
import LineairDB.Native.Existing
import LineairDB.Pax.Buffer
import LineairDB.Precision.Phantoms
import LineairDB.Stateless.Scans
import LineairDB.TwoPhase.Holds
import LineairDB.TwoPhase.LockWord
import LineairDB.Pax.Slots
import LineairDB.Masstree.Scan
import LineairDB.Dictionary.Tables
import LineairDB.Types.PackedPrimaryKeys
import LineairDB.Native.SetIndex
import LineairDB.Native.NodeVersions
import LineairDB.Nwr.Pivot
