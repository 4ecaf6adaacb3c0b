import HolbertonChain.Cli.Commands
import HolbertonChain.Transaction.Equiv.Conservation
import HolbertonChain.Transaction.Equiv.Commitment
import HolbertonChain.Transaction.Equiv.UpdateUnspent
import HolbertonChain.Block.Equiv.DoubleSpend
import HolbertonChain.Block.Equiv.Commitment
import HolbertonChain.Blockchain.Equiv.RoundTrip
import HolbertonChain.Cli.Equiv.Load
import HolbertonChain.Cli.Equiv.Transitions
import HolbertonChain.Cli.Equiv.ChainIntegrity
import HolbertonChain.Cli.Equiv.Mining
import HolbertonChain.Lib.CoinLedger
import HolbertonChain.Transaction.Equiv.Coins
import HolbertonChain.Cli.Equiv.Accounting
import HolbertonChain.Block.Equiv.Chain
import HolbertonChain.Transaction.Equiv.Ownership
import HolbertonChain.Block.Equiv.Ownership
import HolbertonChain.Cli.Equiv.Pool
import HolbertonChain.Transaction.Equiv.Coinbase
import HolbertonChain.Transaction.Equiv.Selection
import HolbertonChain.Lib.StableSort
import HolbertonChain.Cli.Equiv.Display
import HolbertonChain.Cli.Equiv.Outcome
import HolbertonChain.Lib.Admission
import HolbertonChain.Cli.Equiv.OneByOne
import HolbertonChain.Block.Equiv.References
import HolbertonChain.Cli.Equiv.References
import HolbertonChain.Transaction.Equiv.Signing
import HolbertonChain.Block.Equiv.CoinbaseIds
import HolbertonChain.Block.Equiv.Adjustment
import HolbertonChain.Lib.LeadingZeros
import HolbertonChain.Block.Equiv.ProofOfWork
import HolbertonChain.Lib.CounterSearch
import HolbertonChain.Block.Equiv.Mining
import HolbertonChain.Block.Equiv.DataBounds
import HolbertonChain.Lib.Hex
import HolbertonChain.Cli.Equiv.Address
import HolbertonChain.Lib.ByteSwap
import HolbertonChain.Blockchain.Equiv.OtherOrder
import HolbertonChain.V02.Blockchain
import HolbertonChain.V02.Equiv.Records
import HolbertonChain.V02.Equiv.RoundTrip
import HolbertonChain.V02.Equiv.Load
import HolbertonChain.Lib.FillBuffer
import HolbertonChain.Block.HashBuffer
import HolbertonChain.Block.Equiv.HashBuffer
import HolbertonChain.Cli.Equiv.Clients
import HolbertonChain.Cli.Equiv.Provenance
import HolbertonChain.Cli.Equiv.Retarget
import HolbertonChain.Cli.Equiv.Contents
import HolbertonChain.Cli.Equiv.Safety
import HolbertonChain.Lib.HashChain
import HolbertonChain.Cli.Equiv.Replay
import HolbertonChain.Cli.Equiv.Agreement
import HolbertonChain.Cli.Equiv.Accepted
import HolbertonChain.Cli.Equiv.Registry
import HolbertonChain.Cli.Equiv.Holdings
import HolbertonChain.V02.Block
import HolbertonChain.V02.Equiv.Validity
import HolbertonChain.V02.Equiv.Growth
import HolbertonChain.Lib.Words
import HolbertonChain.Cli.CommandLine
import HolbertonChain.Cli.Equiv.CommandLine
import HolbertonChain.Cli.Equiv.Payments
import HolbertonChain.Cli.Equiv.Conservation
import HolbertonChain.Cli.Equiv.Durability
import HolbertonChain.Lib.Decimal
import HolbertonChain.Lib.Readable
import HolbertonChain.Cli.Info
import HolbertonChain.Cli.Equiv.Info
import HolbertonChain.Cli.Wallet
import HolbertonChain.Cli.Equiv.Wallet
