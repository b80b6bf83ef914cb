import Beetle.Basic
import Beetle.Lru
import Beetle.Bitswap.Message
import Beetle.Bitswap.Ledger
import Beetle.Bitswap.Behaviour
import Beetle.Bitswap.Frame
import Beetle.Bitswap.Events
import Beetle.Bitswap.Connection
import Beetle.Bitswap.Pending
import Beetle.Bitswap.Timer
import Beetle.Bitswap.Providers
import Beetle.Bitswap.Wants
import Beetle.Bitswap.Drain
import Beetle.Bitswap.Capacity
import Beetle.Hamt.Utf8
import Beetle.Hamt.Murmur
import Beetle.Hamt.Bits
import Beetle.Hamt.Node
import Beetle.Hamt.WellFormed
import Beetle.Hamt.Lookup
import Beetle.Hamt.Safety
import Beetle.Hamt.Directory
import Beetle.Hamt.Failures
