import Mog.Lib.LinearProbe
import Mog.Lib.LinkedChain
import Mog.Lib.WordScan
import Mog.Lib.QueueSum
import Mog.Lib.PriceTime
import Mog.Lib.Framing
import Mog.Lib.Journal
import Mog.Lib.BinaryHeap
import Mog.Lib.TicketQueue
import Mog.Book.OrderBook
import Mog.Book.ArenaProof
import Mog.Book.ArenaRuns
import Mog.Book.LadderProof
import Mog.Book.LadderRuns
import Mog.Book.TableProof
import Mog.Book.Inv
import Mog.Book.Queue
import Mog.Book.Ops
import Mog.Book.Fifo
import Mog.Book.Refine
import Mog.Book.Position
import Mog.Book.Audit
import Mog.Book.Replace
import Mog.Wire.Message
import Mog.Wire.Codec
import Mog.Wire.Parser
import Mog.Wire.Stream
import Mog.Wire.MoldUdp
import Mog.Wire.MoldLoss
import Mog.Book.Contracts
import Mog.Book.Front
import Mog.Book.Delta
import Mog.Sim.Scheduler
import Mog.Sim.Types
import Mog.Sim.Tracker
import Mog.Sim.Simulate
import Mog.Sim.TrackerProof
import Mog.Sim.Mirror
import Mog.Sim.Effects
import Mog.Sim.Inv
import Mog.Sim.Sweep
import Mog.Sim.Flow
import Mog.Sim.Mutate
import Mog.Sim.Reach
import Mog.Sim.Exact
import Mog.Sim.Trade
import Mog.Sim.Calls
import Mog.Sim.Account
import Mog.Sim.Marketable
import Mog.Sim.Priority
import Mog.Sim.Ledger
import Mog.Sim.Refs
import Mog.Sim.Icebergs
import Mog.Sim.Homes
import Mog.Sim.Matching
import Mog.Sim.Crossed
import Mog.Sim.Losses
import Mog.Sim.Conserve
import Mog.Sim.Owed
import Mog.Sim.PostPass
import Mog.Sim.SweepExact
import Mog.Sim.External
import Mog.Sim.Depletion
import Mog.Sim.Totals
import Mog.Sim.Fees
import Mog.Sim.SelfTrade
import Mog.Sim.TimeTravel
import Mog.Event.Slots
import Mog.Event.Engine
import Mog.Event.Heap
import Mog.Event.HeapWrap
import Mog.Event.TableEngine
import Mog.Lib.DigitWheel
import Mog.Event.TimingWheel
import Mog.Event.WheelChains
import Mog.Event.WheelSettle
import Mog.Event.WheelRefine
import Mog.Event.WheelAnswers
import Mog.Event.WheelPeek
import Mog.Sim.Events
import Mog.Sim.Past
import Mog.Sim.Strategy
import Mog.Ouch.Gateway
import Mog.Ouch.Replace
import Mog.Ouch.Session
import Mog.Ouch.Tokens
import Mog.Ouch.OrderTable
import Mog.Ouch.Identity
import Mog.Ouch.OrderMap
import Mog.Replay.Session
import Mog.Replay.Replay
import Mog.Replay.Transport
import Mog.Replay.Fault
import Mog.Replay.Trades
import Mog.Replay.Agree
import Mog.Replay.Prints
import Mog.Replay.Halts
import Mog.Replay.HaltCross
import Mog.Lib.ColumnMajor
import Mog.Log.ColumnLog
import Mog.Log.Groups
import Mog.Log.RoundTrip
import Mog.Log.Truncation
import Mog.SimRun.Script
import Mog.SimRun.Run
import Mog.SimRun.Tearsheet
import Mog.SimRun.Csv
import Mog.SimRun.Numbers
import Mog.SimRun.Complete
import Mog.SimRun.Recompute
import Mog.SimRun.LogNumbers
import Mog.SimRun.HitRate
import Mog.Replay.TradeDiff
import Mog.Lib.LowerBound
import Mog.Metrics.Markouts
import Mog.Lib.BlockStream
import Mog.Lib.BoundedFifo
import Mog.Lib.Fips180
import Mog.Wire.Pcap
import Mog.Wire.PcapProof
import Mog.Wire.PcapFile
import Mog.Ring.SpscRing
import Mog.Ring.SpscProof
import Mog.Lib.Gregorian
import Mog.Replay.Calendar
import Mog.Digest.Sha256
import Mog.Digest.Sha256Proof
import Mog.Digest.FastDigest
import Mog.Digest.DigestRuns
import Mog.Lib.Threads
import Mog.Grid.GridRunner
import Mog.Grid.GridProof
import Mog.Metrics.Histogram
import Mog.Metrics.HistogramProof
import Mog.Spec.BookMatching
import Mog.Spec.BookMatchingProof
import Mog.Spec.ModelCheck
import Mog.Spec.ModelCheckProof
import Mog.Lib.OrderedMap
import Mog.Book.ReferenceBook
import Mog.Book.ReferenceProof
import Mog.Sim.Pipeline
import Mog.Sim.Halted
import Mog.Book.Resync
import Mog.Lib.PacketStream
import Mog.Ouch.Wire
import Mog.Replay.TradeCsv
import Mog.Lib.OwnedTree
import Mog.Arrow.Export
import Mog.Sim.Checks
import Mog.Sim.ChecksProof
import Mog.Sim.Audit
