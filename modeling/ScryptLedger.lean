import ScryptLedger.Block.Basic
import ScryptLedger.Block.Check
import ScryptLedger.Block.Codec
import ScryptLedger.Block.Coins
import ScryptLedger.Block.Connect
import ScryptLedger.Block.Policy
import ScryptLedger.Block.Rejection
import ScryptLedger.Block.Version
import ScryptLedger.Bytes
import ScryptLedger.Chain.Basic
import ScryptLedger.Chain.Event
import ScryptLedger.Chain.Index
import ScryptLedger.Chain.Publisher
import ScryptLedger.Chain.Update
import ScryptLedger.Coin
import ScryptLedger.Coinbase
import ScryptLedger.Config
import ScryptLedger.Config.Text
import ScryptLedger.Curve.Ecdsa
import ScryptLedger.Curve.Key
import ScryptLedger.Curve.LaxDer
import ScryptLedger.Curve.Point
import ScryptLedger.Curve.Schnorr
import ScryptLedger.Digest.Ripemd160
import ScryptLedger.Digest.Scrypt
import ScryptLedger.Digest.Sha1
import ScryptLedger.Digest.Sha256
import ScryptLedger.Hash
import ScryptLedger.Hex
import ScryptLedger.Json.Basic
import ScryptLedger.Json.Reader
import ScryptLedger.Mempool.Admission
import ScryptLedger.Mempool.Basic
import ScryptLedger.MergeMining
import ScryptLedger.Merkle
import ScryptLedger.Mining.Assembly
import ScryptLedger.Mining.Error
import ScryptLedger.Mining.Solve
import ScryptLedger.Mining.Template
import ScryptLedger.Money
import ScryptLedger.Node
import ScryptLedger.Params
import ScryptLedger.Pow.Retarget
import ScryptLedger.Pow.Target
import ScryptLedger.Primitives
import ScryptLedger.Primitives.Standard
import ScryptLedger.Primitives.Transparent
import ScryptLedger.Proofs.Block.Apply
import ScryptLedger.Proofs.Block.Check
import ScryptLedger.Proofs.Block.Codec
import ScryptLedger.Proofs.Block.Commitment
import ScryptLedger.Proofs.Block.Connect
import ScryptLedger.Proofs.Block.Height
import ScryptLedger.Proofs.Block.Order
import ScryptLedger.Proofs.Block.Spend
import ScryptLedger.Proofs.Block.Supply
import ScryptLedger.Proofs.Chain.Announcement
import ScryptLedger.Proofs.Chain.Identity
import ScryptLedger.Proofs.Chain.Index
import ScryptLedger.Proofs.Chain.IndexRun
import ScryptLedger.Proofs.Chain.Invalidation
import ScryptLedger.Proofs.Chain.Levels
import ScryptLedger.Proofs.Chain.Lookup
import ScryptLedger.Proofs.Chain.MedianTime
import ScryptLedger.Proofs.Chain.Permanence
import ScryptLedger.Proofs.Chain.Position
import ScryptLedger.Proofs.Chain.Provenance
import ScryptLedger.Proofs.Chain.Publisher
import ScryptLedger.Proofs.Chain.Replay
import ScryptLedger.Proofs.Chain.Run
import ScryptLedger.Proofs.Chain.Supply
import ScryptLedger.Proofs.CoinSet.Listing
import ScryptLedger.Proofs.CoinSet.Lookup
import ScryptLedger.Proofs.CoinSet.Supply
import ScryptLedger.Proofs.Mempool.Admission
import ScryptLedger.Proofs.Mempool.Eviction
import ScryptLedger.Proofs.Mempool.Pool
import ScryptLedger.Proofs.Mempool.Removal
import ScryptLedger.Proofs.MergeMining.Placement
import ScryptLedger.Proofs.MergeMining.Refusal
import ScryptLedger.Proofs.MergeMining.Scan
import ScryptLedger.Proofs.MergeMining.SingleUse
import ScryptLedger.Proofs.MergeMining.SmallestProof
import ScryptLedger.Proofs.Merkle.Branch
import ScryptLedger.Proofs.Merkle.Opening
import ScryptLedger.Proofs.Merkle.Tree
import ScryptLedger.Proofs.Mining.Acceptance
import ScryptLedger.Proofs.Mining.Accounting
import ScryptLedger.Proofs.Mining.Assembly
import ScryptLedger.Proofs.Mining.Coinbase
import ScryptLedger.Proofs.Mining.NewBlock
import ScryptLedger.Proofs.Mining.OwnBlock
import ScryptLedger.Proofs.Mining.Payouts
import ScryptLedger.Proofs.Node.Listening
import ScryptLedger.Proofs.Node.Pool
import ScryptLedger.Proofs.Node.Run
import ScryptLedger.Proofs.Outcome
import ScryptLedger.Proofs.Pow.ChainWork
import ScryptLedger.Proofs.Pow.Compact
import ScryptLedger.Proofs.Pow.FullChain
import ScryptLedger.Proofs.Pow.Magnitude
import ScryptLedger.Proofs.Pow.Normal
import ScryptLedger.Proofs.Pow.Retarget
import ScryptLedger.Proofs.Pow.Transition
import ScryptLedger.Proofs.Script.Admissible
import ScryptLedger.Proofs.Script.Elements
import ScryptLedger.Proofs.Script.Instruction
import ScryptLedger.Proofs.Script.Limits
import ScryptLedger.Proofs.Script.Multisig
import ScryptLedger.Proofs.Script.Number
import ScryptLedger.Proofs.Script.Padding
import ScryptLedger.Proofs.Script.Positional.Eval
import ScryptLedger.Proofs.Script.Pushes
import ScryptLedger.Proofs.Script.Redeem
import ScryptLedger.Proofs.Script.Relaxed
import ScryptLedger.Proofs.Script.Removal
import ScryptLedger.Proofs.Script.Step
import ScryptLedger.Proofs.Script.StrictDer
import ScryptLedger.Proofs.Sighash.Coverage
import ScryptLedger.Proofs.Sighash.Preimage
import ScryptLedger.Proofs.Snapshot.File
import ScryptLedger.Proofs.Snapshot.Records
import ScryptLedger.Proofs.Subsidy.Draw
import ScryptLedger.Proofs.Subsidy.Largest
import ScryptLedger.Proofs.Transaction.Check
import ScryptLedger.Proofs.Transaction.Codec
import ScryptLedger.Proofs.Transaction.Inputs
import ScryptLedger.Proofs.Transaction.Relay
import ScryptLedger.Proofs.Transaction.WellFormed
import ScryptLedger.Proofs.Wire.Decoder
import ScryptLedger.Proofs.Wire.Length
import ScryptLedger.Proofs.Wire.Separation
import ScryptLedger.RuleSet
import ScryptLedger.Rules
import ScryptLedger.Script.Error
import ScryptLedger.Script.Eval
import ScryptLedger.Script.Flags
import ScryptLedger.Script.Instruction
import ScryptLedger.Script.Multisig
import ScryptLedger.Script.Number
import ScryptLedger.Script.Opcode
import ScryptLedger.Script.Operation
import ScryptLedger.Script.Push
import ScryptLedger.Script.Signature
import ScryptLedger.Script.Spend
import ScryptLedger.Script.StackOp
import ScryptLedger.Script.Verify
import ScryptLedger.Sighash
import ScryptLedger.Snapshot.File
import ScryptLedger.Snapshot.Records
import ScryptLedger.Subsidy
import ScryptLedger.Transaction.Basic
import ScryptLedger.Transaction.Check
import ScryptLedger.Transaction.Codec
import ScryptLedger.Transaction.Inputs
import ScryptLedger.Transaction.Rejection
import ScryptLedger.Wire.Decoder
import ScryptLedger.Wire.Error
