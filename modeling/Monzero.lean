import Monzero.DomainSeparation
import Monzero.NetworkConfinement
import Monzero.AssetStore
import Monzero.SupplyConservation
import Monzero.KeyImageDomain
import Monzero.BlockRejection
import Monzero.TemplateValidity
import Monzero.PlainTransactions
import Monzero.ChainRollback
import Monzero.HardForkRuns
import Monzero.MedianTime
import Monzero.DifficultyCacheRuns
import Monzero.LongTermWeightRuns
import Monzero.AttachedIssuance
import Monzero.TransparentBalance
import Monzero.AssetSelection
import Monzero.WalletDetach
import Monzero.AssetPaging
import Monzero.AddressText
import Monzero.TransferBuilder
import Monzero.PoolInfo
import Monzero.Retarget
import Monzero.MinerTxSizing
import Monzero.ChainHistory
import Monzero.Reservations
import Monzero.RangeCoverage
import Monzero.SyncHeights
import Monzero.MerkleBranches
import Monzero.ForkChoice
import Monzero.AmountText
import Monzero.PendingInputs
import Monzero.MergeMiningDepth
import Monzero.RollingAccess
