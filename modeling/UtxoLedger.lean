import UtxoLedger.Block.Search
import UtxoLedger.Json.Form
import UtxoLedger.Message
import UtxoLedger.Wallet.Funding
import UtxoLedger.Proofs.Block.SpendOnce
import UtxoLedger.Proofs.Script.MultiSig
import UtxoLedger.Proofs.Tx.Commitment
import UtxoLedger.Proofs.Tx.PayToKeyHash
import UtxoLedger.Proofs.Tx.Sessions
import UtxoLedger.Proofs.Block.Locks
import UtxoLedger.Proofs.KeyPairs
import UtxoLedger.Proofs.Script.Templates
import UtxoLedger.Proofs.Wallet.Signing
import UtxoLedger.Proofs.Outputs.Slots
import UtxoLedger.Proofs.Wallet.Payment
import UtxoLedger.Proofs.Tx.PayToKeys
import UtxoLedger.Proofs.Block.CanonicalBytes
import UtxoLedger.Proofs.Script.TextForm
import UtxoLedger.Proofs.Script.Conditionals
import UtxoLedger.Proofs.Script.Segments
import UtxoLedger.Proofs.Outputs.ArrivalList
import UtxoLedger.Proofs.Merkle.Commitment
import UtxoLedger.Proofs.Merkle.Inclusion
import UtxoLedger.Proofs.Merkle.Soundness
import UtxoLedger.Proofs.Block.Finality
import UtxoLedger.Proofs.Script.StackFrame
import UtxoLedger.Proofs.Script.Nesting
import UtxoLedger.Proofs.Script.InRange
import UtxoLedger.Proofs.Block.Exchange
import UtxoLedger.Proofs.Block.LowestId
import UtxoLedger.Proofs.Bytes.Shortest
import UtxoLedger.Proofs.Text.Checked
import UtxoLedger.Proofs.Json.Scanning
import UtxoLedger.Proofs.Json.Numbers
import UtxoLedger.Proofs.Json.Parsing
import UtxoLedger.Proofs.Json.Forms
import UtxoLedger.Proofs.Script.Operands
import UtxoLedger.Proofs.Script.RunAgain
import UtxoLedger.Proofs.Tx.PushOnlyInputs
import UtxoLedger.Proofs.Block.DamagedBytes
import UtxoLedger.Proofs.Merkle.Halves
import UtxoLedger.Proofs.Script.NumberForms
import UtxoLedger.Proofs.Script.Truth
import UtxoLedger.Proofs.Script.Arithmetic
import UtxoLedger.Proofs.Script.Depths
import UtxoLedger.Proofs.Script.Recognition
import UtxoLedger.Proofs.SignedMessages
import UtxoLedger.Proofs.Curve.Signatures
import UtxoLedger.Proofs.Script.Payloads
import UtxoLedger.Proofs.Block.Nonces
import UtxoLedger.Proofs.Codec.VarIntForms
