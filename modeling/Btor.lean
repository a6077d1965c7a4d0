import Btor.Progress
import Btor.RootInfo
import Btor.Reuse
import Btor.RunsOff
import Btor.RoundTrip
import Btor.Strict
import Btor.TotalLength
import Btor.Abandoned
import Btor.Ownership
import Btor.Rename
import Btor.Numbers
import Btor.Entries
import Btor.InfoHash
import Btor.Bitfield
import Btor.Announce
import Btor.AnnounceUrl
import Btor.Handshake
import Btor.BitSet
import Btor.Copy
import Btor.Sockets
import Btor.BSock
import Btor.Rejection
import Btor.StartUp
import Btor.Peers
import Btor.Identity
import Btor.Fileio
import Btor.Announced
import Btor.Deleted
import Btor.Processes
import Btor.Completed
import Btor.Tracker
import Btor.Print
import Btor.Exchange
