import LobCity.Ownership
import LobCity.BookInvariant
import LobCity.PriceTime
import LobCity.Crossing
import LobCity.Priority
import LobCity.Conservation
import LobCity.Fifo
import LobCity.PriceChecks
import LobCity.FillRuns
import LobCity.HandOff
import LobCity.WireFormat
import LobCity.SentMessages
import LobCity.Screening
import LobCity.Cancellable
import LobCity.ClientIds
import LobCity.CatchUp
import LobCity.KillSwitch
import LobCity.PositionCap
import LobCity.SelfTrade
import LobCity.Verdicts
import LobCity.RateLimit
import LobCity.Quantities
import LobCity.Replaces
import LobCity.Mirror
import LobCity.Totals
import LobCity.FixedPoint
import LobCity.FixFields
import LobCity.FixEncoding
import LobCity.FixGrammar
import LobCity.Admission
import LobCity.PointerParser
import LobCity.LevelSequences
import LobCity.Pnl
import LobCity.Placements
import LobCity.KeepsQuoting
import LobCity.Exchange
import LobCity.System
import LobCity.Delivery
import LobCity.Drains
import LobCity.Renaming
import LobCity.PoolSizes
import LobCity.PoolUse
import LobCity.Simulator
import LobCity.Reaches
import LobCity.Tallies
import LobCity.SimulatorRuns
import LobCity.Backtests
import LobCity.MakerReport
import LobCity.PnlCurve
import LobCity.RunPnl
import LobCity.RiskReport
import LobCity.Replayer
import LobCity.PlotBacktest
import LobCity.BestExecution
import LobCity.MarketReport
import LobCity.Withdrawals
import LobCity.LatencyBench
import LobCity.Startup
import LobCity.LossLimit
