import CryptoConditions.Main
import CryptoConditions.Proofs.Transaction.Honest
import CryptoConditions.Proofs.Transaction.Answer
import CryptoConditions.Proofs.Condition.Forms
import CryptoConditions.Proofs.Transaction.Detached
import CryptoConditions.Proofs.Transaction.Received
import CryptoConditions.Proofs.Wire.Sequence
import CryptoConditions.Proofs.Document.Declared
import CryptoConditions.Proofs.Document.NormalForm
import CryptoConditions.Proofs.KeyStore.Kept
import CryptoConditions.Proofs.Fulfillment.Largest
import CryptoConditions.Proofs.Fulfillment.Outcome
import CryptoConditions.Proofs.Fulfillment.Reassembled
import CryptoConditions.Proofs.Command.Signed
import CryptoConditions.Proofs.Fulfillment.Known
import CryptoConditions.Proofs.Fulfillment.Segments
import CryptoConditions.Proofs.Fulfillment.Wrapped
import CryptoConditions.Proofs.Transaction.Locked
import CryptoConditions.Proofs.Key.Restored
import CryptoConditions.Proofs.Transaction.Named
import CryptoConditions.Proofs.Transaction.Alone
import CryptoConditions.Proofs.Command.Named
