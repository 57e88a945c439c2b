import HftEngine.Lib.Loop
import HftEngine.Lib.MachineInt
import HftEngine.Lib.Ring
import HftEngine.Lib.SortedList
import HftEngine.OrderBook.PriceLadder
import HftEngine.OrderBook.SpscQueue
import HftEngine.OrderBook.Step
import HftEngine.OrderBook.Sweep
import HftEngine.OrderBook.Invariants
import HftEngine.OrderBook.Progress
import HftEngine.OrderBook.Flow
import HftEngine.OrderBook.Conservation
import HftEngine.OrderBook.Cancel
import HftEngine.OrderBook.Slots
import HftEngine.OrderBook.Ledger
import HftEngine.Fix.Message
import HftEngine.Lib.Fields
import HftEngine.Fix.Grammar
import HftEngine.Fix.Checksum
import HftEngine.Fix.Encode
import HftEngine.Lib.Fifo
import HftEngine.Lib.Trace
import HftEngine.Queue.Spsc
import HftEngine.Queue.SpscSafety
import HftEngine.Lib.Calls
import HftEngine.Queue.SpscFifo
import HftEngine.Queue.SpscAsk
import HftEngine.Lib.Adjacent
import HftEngine.Queue.Mpsc
import HftEngine.Queue.MpscInvariant
import HftEngine.Queue.MpscOrder
import HftEngine.Queue.MpscMisses
import HftEngine.Queue.MpscReclaim
import HftEngine.Lib.Retained
import HftEngine.OrderBook.Allocation
import HftEngine.OrderBook.StaleIds
import HftEngine.Lib.SortedMap
import HftEngine.OrderBook.LadderMap
import HftEngine.Lib.Drain
import HftEngine.OrderBook.Mirror
import HftEngine.OrderBook.Greedy
import HftEngine.OrderBook.PricePriority
import HftEngine.OrderBook.Split
import HftEngine.OrderBook.Spread
import HftEngine.OrderBook.Market
import HftEngine.OrderBook.Levels
import HftEngine.OrderBook.Passive
import HftEngine.OrderBook.OrderCount
import HftEngine.OrderBook.Reentrant
import HftEngine.OrderBook.InFlight
import HftEngine.OrderBook.Steady
import HftEngine.OrderBook.Callbacks
import HftEngine.Fix.Tags
import HftEngine.Fix.Valid
import HftEngine.Fix.Trailer
import HftEngine.Lib.Wire
import HftEngine.Xdp.Packet
import HftEngine.Xdp.TcpFilter
import HftEngine.Xdp.UdpFilter
import HftEngine.Lib.Clocked
import HftEngine.Rtl.FixParser
import HftEngine.Rtl.Decode
import HftEngine.Rtl.Spacing
import HftEngine.Hazard.Domain
import HftEngine.Hazard.Protect
import HftEngine.Hazard.Interleaved
import HftEngine.Hazard.ThreadIds
import HftEngine.Hazard.Garbage
import HftEngine.Fix.Quantity
import HftEngine.Fix.Members
import HftEngine.Fix.Price
import HftEngine.Lib.Checked
import HftEngine.Fix.Overflow
import HftEngine.Fix.Numeral
import HftEngine.Fix.PriceOrder
import HftEngine.Xsk.Socket
import HftEngine.Xsk.Ownership
import HftEngine.Lib.Priority
import HftEngine.OrderBook.Exchange
import HftEngine.OrderBook.Returns
import HftEngine.Gateway.Pipeline
import HftEngine.Gateway.Orders
import HftEngine.Gateway.Starved
import HftEngine.Lib.ReleaseAcquire
import HftEngine.Queue.SpscWeak
import HftEngine.Queue.MpscWeak
import HftEngine.Rtl.Handshake
import HftEngine.Xsk.Packets
import HftEngine.Hazard.Weak
import HftEngine.Hazard.WholeCalls
