import ZalemCoin.Chain.Agreement
import ZalemCoin.Chain.Authorisation
import ZalemCoin.Chain.ReorganizeDepth
import ZalemCoin.Payments.Convergence
import ZalemCoin.Storage.BatchOverlay
import ZalemCoin.Wallet.UnlockRuns
import ZalemCoin.InstantX.Agreement
import ZalemCoin.InstantX.DistinctVotes
import ZalemCoin.InstantX.Disconnecting
import ZalemCoin.Chain.RetargetBounds
import ZalemCoin.Wallet.KeyPoolRuns
import ZalemCoin.Network.AddrManRoundTrip
import ZalemCoin.Chain.PoolRuns
import ZalemCoin.Chain.Locator
import ZalemCoin.Chain.JustCheck
import ZalemCoin.Network.SporkSignatures
import ZalemCoin.Floatingcity.PaymentTimes
import ZalemCoin.Chain.AddrIndexRuns
import ZalemCoin.Network.BlockDownload
import ZalemCoin.Floatingcity.Ranks
import ZalemCoin.Script.Scanning
import ZalemCoin.Chain.OrphanIndex
import ZalemCoin.Chain.OrphanBlockRuns
import ZalemCoin.Chain.StakeModifier
import ZalemCoin.Chain.CompactBytes
import ZalemCoin.Storage.BlockPositions
import ZalemCoin.Mining.TemplateAssembly
import ZalemCoin.Mixing.SessionSignatures
import ZalemCoin.Mixing.Collateral
import ZalemCoin.Wallet.AddressGroupings
import ZalemCoin.Wallet.StealthCurve
import ZalemCoin.Wallet.Narration
import ZalemCoin.Mining.StakeBalance
import ZalemCoin.Network.Eviction
import ZalemCoin.Script.SignatureEncoding
import ZalemCoin.Script.Compression
import ZalemCoin.Network.MessageFraming
import ZalemCoin.Script.TemplateMeaning
import ZalemCoin.Wallet.MoneyText
import ZalemCoin.Script.SignatureCommitment
import ZalemCoin.Network.LimitedMap
import ZalemCoin.Network.Alerts
import ZalemCoin.Storage.DataStream
import ZalemCoin.Chain.BaseUint
