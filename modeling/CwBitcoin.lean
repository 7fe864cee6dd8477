import CwBitcoin.BatchRelay
import CwBitcoin.CapacityLimit
import CwBitcoin.ChangeRates
import CwBitcoin.CheckpointLedger
import CwBitcoin.CheckpointLifetime
import CwBitcoin.CheckpointStorage
import CwBitcoin.DepositFate
import CwBitcoin.FeeAdjustment
import CwBitcoin.FeeDeduction
import CwBitcoin.FeePool
import CwBitcoin.FeeQuotes
import CwBitcoin.FeeRates
import CwBitcoin.FirstPrune
import CwBitcoin.ForkChoice
import CwBitcoin.FrozenReserve
import CwBitcoin.HeaderAncestry
import CwBitcoin.InputScripts
import CwBitcoin.InputUniqueness
import CwBitcoin.KeysInUse
import CwBitcoin.Minting
import CwBitcoin.OutpointSet
import CwBitcoin.Progress
import CwBitcoin.Pruning
import CwBitcoin.Punishment
import CwBitcoin.PushAgreement
import CwBitcoin.PushedSigset
import CwBitcoin.RecoverySigning
import CwBitcoin.RegistryRuns
import CwBitcoin.Relayability
import CwBitcoin.ReportedChain
import CwBitcoin.ReserveConservation
import CwBitcoin.Retargeting
import CwBitcoin.ScriptRoundTrip
import CwBitcoin.SignatoryKeys
import CwBitcoin.SigningHeight
import CwBitcoin.SigningOrder
import CwBitcoin.SigningState
import CwBitcoin.UnitConversion
import CwBitcoin.Library.InverseMaps
