import P2Pool.Util
import P2Pool.Binary64
import P2Pool.Compact
import P2Pool.VarInt
import P2Pool.Types
import P2Pool.Share
import P2Pool.Validation
import P2Pool.Difficulty
import P2Pool.Merkle
import P2Pool.Template
import P2Pool.Generator
import P2Pool.Maps
import P2Pool.Window
import P2Pool.Payouts
import P2Pool.PayoutLaws
import P2Pool.Assembly
import P2Pool.Poller
import P2Pool.PollHistory
import P2Pool.P2P
