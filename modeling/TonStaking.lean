import TonStaking.Guarantees.BitwiseOperations
import TonStaking.Guarantees.CatchainIdentity
import TonStaking.Guarantees.CatchainSync
import TonStaking.Guarantees.ConfigVoting
import TonStaking.Guarantees.DepositAccumulation
import TonStaking.Guarantees.DictionaryMap
import TonStaking.Guarantees.DictionaryOrder
import TonStaking.Guarantees.DnsReplay
import TonStaking.Guarantees.DomainProtection
import TonStaking.Guarantees.ElectionRefunds
import TonStaking.Guarantees.ElectorLedger
import TonStaking.Guarantees.ElectorSender
import TonStaking.Guarantees.ExtraCurrency
import TonStaking.Guarantees.Fees
import TonStaking.Guarantees.FundsOrders
import TonStaking.Guarantees.HighloadReplay
import TonStaking.Guarantees.HypercubeRouting
import TonStaking.Guarantees.IntegerArithmetic
import TonStaking.Guarantees.MultisigFlood
import TonStaking.Guarantees.MultisigListing
import TonStaking.Guarantees.MultisigThreshold
import TonStaking.Guarantees.OwnAddress
import TonStaking.Guarantees.PeriodClosing
import TonStaking.Guarantees.PoolDelivery
import TonStaking.Guarantees.ProcessedUpto
import TonStaking.Guarantees.ShardNeighbours
import TonStaking.Guarantees.ShardSplit
import TonStaking.Guarantees.StakeLedger
import TonStaking.Guarantees.StorageDebt
import TonStaking.Guarantees.StorageStatistics
import TonStaking.Guarantees.SubscriptionPayout
import TonStaking.Guarantees.TextRedemption
import TonStaking.Guarantees.ValueConservation
import TonStaking.Guarantees.VoteForAcceptance
