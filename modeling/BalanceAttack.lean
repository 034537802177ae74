import BalanceAttack.Fault
import BalanceAttack.Time
import BalanceAttack.Block
import BalanceAttack.View
import BalanceAttack.Whole
import BalanceAttack.Random.Supply
import BalanceAttack.Random.SplitMix
import BalanceAttack.Random.ChaCha
import BalanceAttack.Random.Generator
import BalanceAttack.Random.Uniform
import BalanceAttack.Random.Ziggurat
import BalanceAttack.Random.Exponential
import BalanceAttack.Network.City
import BalanceAttack.Network.Latencies
import BalanceAttack.Network.ShortestPath
import BalanceAttack.Network.Connectivity
import BalanceAttack.Network.LinkDelay
import BalanceAttack.Network.Graph
import BalanceAttack.Decimal.Binary
import BalanceAttack.Decimal.Text
import BalanceAttack.Decimal.Shortest
import BalanceAttack.Decimal.Fixed
import BalanceAttack.Median
import BalanceAttack.Environment
import BalanceAttack.Schedule.Heap
import BalanceAttack.Schedule.Event
import BalanceAttack.Schedule.Agenda
import BalanceAttack.Partition
import BalanceAttack.Adversary.Basic
import BalanceAttack.Adversary.Backlog
import BalanceAttack.Adversary.Balancer
import BalanceAttack.Adversary.Scripted
import BalanceAttack.Adversary.Recorded
import BalanceAttack.Run.History
import BalanceAttack.Run.State
import BalanceAttack.Run.Step
import BalanceAttack.Run.Outcome
import BalanceAttack.Campaign
import BalanceAttack.Report.Column
import BalanceAttack.Report.Layout
import BalanceAttack.Report.Table
import BalanceAttack.Main
import BalanceAttack.Proofs.Contents
import BalanceAttack.Proofs.Pending
import BalanceAttack.Proofs.Turn
import BalanceAttack.Proofs.Decision
import BalanceAttack.Run.Reach
import BalanceAttack.Proofs.Exchange
import BalanceAttack.Proofs.Opening
import BalanceAttack.Proofs.Numbering
import BalanceAttack.Proofs.Stock
import BalanceAttack.Proofs.Flow
import BalanceAttack.Proofs.Delivery
import BalanceAttack.Proofs.Mirror
import BalanceAttack.Proofs.Conservation
import BalanceAttack.Proofs.Agreement
import BalanceAttack.Proofs.ShortestPath
import BalanceAttack.Proofs.Sequel
import BalanceAttack.Proofs.Chronology
import BalanceAttack.Proofs.Broadcast
import BalanceAttack.Proofs.Ledger
import BalanceAttack.Proofs.Hindrance
import BalanceAttack.Proofs.Pace
import BalanceAttack.Proofs.Deadline
import BalanceAttack.Proofs.Termination
import BalanceAttack.Proofs.Headroom
import BalanceAttack.Proofs.Truncation
import BalanceAttack.Proofs.Lineup
import BalanceAttack.Proofs.Onlooker
import BalanceAttack.Proofs.Twins
import BalanceAttack.Proofs.Noninterference
import BalanceAttack.Proofs.Chance
import BalanceAttack.Proofs.Rounding
import BalanceAttack.Proofs.Potential
import BalanceAttack.Proofs.Settlement
import BalanceAttack.Proofs.Loan
import BalanceAttack.Proofs.Credit
import BalanceAttack.Proofs.Repeats
import BalanceAttack.Proofs.Search
import BalanceAttack.Proofs.Wiring
import BalanceAttack.Proofs.Recurrence
import BalanceAttack.Proofs.Saturation
import BalanceAttack.Proofs.Closure
import BalanceAttack.Proofs.LinkDelay
import BalanceAttack.Proofs.Metric
import BalanceAttack.Proofs.Timetable
import BalanceAttack.Proofs.Session
import BalanceAttack.Proofs.Confluence
import BalanceAttack.Proofs.TurningPoint
import BalanceAttack.Proofs.Exactness
import BalanceAttack.Proofs.Faithful
import BalanceAttack.Proofs.Quota
import BalanceAttack.Proofs.Records
import BalanceAttack.Proofs.Waits
import BalanceAttack.Proofs.Clockwork
import BalanceAttack.Proofs.ByteOrder
import BalanceAttack.Proofs.Columns
import BalanceAttack.Proofs.Alignment
import BalanceAttack.Proofs.MiddleRank
