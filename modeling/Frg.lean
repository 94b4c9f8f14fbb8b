import Frg.Lib.Words
import Frg.Lib.Bucket
import Frg.Lib.Act
import Frg.Lib.Slice
import Frg.Lib.Reader
import Frg.Lib.Quorum
import Frg.Lib.Run
import Frg.Lib.WorkerPool
import Frg.Lib.Orders
import Frg.Lib.Lists
import Frg.Lib.Elements
import Frg.Lib.Shares
import Frg.Lib.Text
import Frg.Lib.Tickets
import Frg.Lib.Windows
import Frg.Lib.Spend
import Frg.Core.Prim
import Frg.Core.Denom
import Frg.Wire.Tx
import Frg.Wire.TxBounds
import Frg.Wire.RoundTrip
import Frg.Wire.Signing
import Frg.RG.Tree
import Frg.RG.Coarsen
import Frg.RG.Commitment
import Frg.RG.Tower
import Frg.RG.Aggregates
import Frg.RG.Capacity
import Frg.RG.Proof
import Frg.RG.Canonical
import Frg.RG.Paths
import Frg.RG.Update
import Frg.RG.Incremental
import Frg.Contract.State
import Frg.Contract.Runtime
import Frg.Contract.Exec
import Frg.Contract.Host
import Frg.Contract.Errors
import Frg.Contract.Memory
import Frg.Contract.Transfers
import Frg.Contract.Storage
import Frg.Contract.Start
import Frg.Chain.Store
import Frg.Chain.Ledger
import Frg.Chain.Staking
import Frg.Chain.Apply
import Frg.Chain.Run
import Frg.Chain.Steps
import Frg.Chain.Genesis
import Frg.Chain.Supply
import Frg.Chain.Loops
import Frg.Chain.Skipped
import Frg.Chain.Nonces
import Frg.Chain.Escrow
import Frg.Chain.LockUp
import Frg.Chain.Slashing
import Frg.Chain.BlockStore
import Frg.Chain.Signed
import Frg.Chain.Replicas
import Frg.Chain.Validate
import Frg.Chain.Leaves
import Frg.Chain.Calls
import Frg.Chain.GasLimit
import Frg.Chain.Telemetry
import Frg.Chain.BaseFee
import Frg.Chain.Issuance
import Frg.Chain.Parallel
import Frg.Chain.Rotation
import Frg.Chain.Accrual
import Frg.Chain.Authority
import Frg.Chain.Contracts
import Frg.Consensus.Vote
import Frg.Consensus.Accountable
import Frg.Consensus.Codec
import Frg.Consensus.SignBytes
import Frg.Consensus.Engine
import Frg.Consensus.BlockLoop
import Frg.Consensus.Proposing
import Frg.Consensus.Moves
import Frg.Consensus.Steps
import Frg.Consensus.Validators
import Frg.Consensus.MissEvidence
import Frg.Consensus.Lock
import Frg.Consensus.Agreement
import Frg.Consensus.Heights
import Frg.Consensus.Timers
import Frg.Consensus.Mempool
import Frg.Consensus.PoolIndex
import Frg.Consensus.Slots
import Frg.Consensus.Certificates
import Frg.Consensus.Attesting
import Frg.Consensus.Snapshot
import Frg.Consensus.WellLocked
import Frg.Consensus.Events
import Frg.Node.Sync
import Frg.Node.CatchUp
import Frg.Node.BlockSync
import Frg.Node.Converge
import Frg.Node.Backup
import Frg.Node.Submit
import Frg.Node.RateLimit
import Frg.Client.Queue
import Frg.Client.Flush
import Frg.Client.Wallet
import Frg.Client.Spending
import Frg.Faucet.Handler
import Frg.Faucet.Grants
