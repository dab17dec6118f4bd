import Arkos.Lib.Word
import Arkos.Lib.Codec
import Arkos.Lib.FinMap
import Arkos.Lib.Frames
import Arkos.Lib.Prefix
import Arkos.Lib.SlidingWindow
import Arkos.Lib.SocketAddr
import Arkos.Lib.Json
import Arkos.Lib.OrderStatistic
import Arkos.Lib.PrefixCode
import Arkos.Lib.WrappedTotal
import Arkos.Lib.InsertionOrder
import Arkos.Lib.Causal
import Arkos.Lib.Interleave
import Arkos.Lib.Socket
import Arkos.Lib.Accumulator
import Arkos.Crypto
import Arkos.Crypto.HybridKey
import Arkos.Crypto.ArkHash
import Arkos.Transaction.Tx
import Arkos.Transaction.Utxo
import Arkos.Mining.Device
import Arkos.Transaction.Mempool
import Arkos.Transaction.Accounting
import Arkos.Transaction.Selection
import Arkos.Transaction.ScriptJson
import Arkos.Transaction.Preimage
import Arkos.Transaction.Outpoints
import Arkos.Blockchain.Block
import Arkos.Blockchain.Consensus
import Arkos.Blockchain.Difficulty
import Arkos.Blockchain.Script
import Arkos.Blockchain.Validate
import Arkos.Storage.Db
import Arkos.Network.Protocol
import Arkos.Blockchain.Chain
import Arkos.Blockchain.ValidChain
import Arkos.Blockchain.Commitment
import Arkos.Blockchain.Invariant
import Arkos.Blockchain.Outcome
import Arkos.Blockchain.Growth
import Arkos.Blockchain.IdleChain
import Arkos.Blockchain.MedianTime
import Arkos.Blockchain.Malleability
import Arkos.Blockchain.ProofOfWork
import Arkos.Blockchain.Replay
import Arkos.Blockchain.ForkChoice
import Arkos.Blockchain.Ledger
import Arkos.Blockchain.Supply
import Arkos.Blockchain.Rejection
import Arkos.Blockchain.Branch
import Arkos.Blockchain.Finality
import Arkos.Blockchain.Heaviest
import Arkos.Blockchain.Handover
import Arkos.Blockchain.Coinbase
import Arkos.Blockchain.Emission
import Arkos.Blockchain.Pool
import Arkos.Rpc.Methods
import Arkos.Rpc.Wire
import Arkos.Blockchain.Mining
import Arkos.Blockchain.NextBlock
import Arkos.Blockchain.Sequential
import Arkos.Blockchain.TimeLock
import Arkos.Blockchain.Coherence
import Arkos.Blockchain.Reopen
import Arkos.Blockchain.Crash
import Arkos.Blockchain.NetworkMagic
import Arkos.Network.Noise
import Arkos.Network.Setup
import Arkos.Network.Nonces
import Arkos.Blockchain.AddressIndex
import Arkos.Blockchain.FailedOpen
import Arkos.Blockchain.Ancestry
import Arkos.Blockchain.Work
import Arkos.Blockchain.Windows
import Arkos.Security.RateLimit
import Arkos.Security.Bookkeeping
import Arkos.Network.Peers
import Arkos.Network.Message
import Arkos.Network.Node
import Arkos.Network.KnownPeers
import Arkos.Network.PeerHistory
import Arkos.Network.Handshake
import Arkos.Network.Inbound
import Arkos.Network.HeadersFirst
import Arkos.Network.Sync
import Arkos.Network.Gossip
import Arkos.Network.Route
import Arkos.Network.Convergence
import Arkos.Network.Locator
import Arkos.Network.CatchUp
import Arkos.Network.MessageText
import Arkos.Network.Transport
import Arkos.Rpc.Server
import Arkos.Rpc.Submissions
import Arkos.Wallet.Wallet
import Arkos.Wallet.Recovery
import Arkos.Wallet.Send
import Arkos.Wallet.Admission
import Arkos.Security.Access
import Arkos.Security.Vault
import Arkos.Commands
import Arkos.Commands.DataDir
import Arkos.Commands.Tokens
import Arkos.Commands.Keys
import Arkos.Mobile.Miner
