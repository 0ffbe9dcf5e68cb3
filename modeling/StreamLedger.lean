import StreamLedger.Main
import StreamLedger.Proofs.Cache.Readers
import StreamLedger.Proofs.Ledger.Chain
import StreamLedger.Proofs.Ledger.Proving
import StreamLedger.Proofs.Registry.Regression
import StreamLedger.Proofs.Registry.Unforked
import StreamLedger.Proofs.Table.Key
import StreamLedger.Proofs.Wire.Canonical
import StreamLedger.Proofs.Ledger.Commitment
import StreamLedger.Proofs.Ledger.Offer
import StreamLedger.Proofs.Ledger.Permanence
import StreamLedger.Proofs.Cache.Attempts
import StreamLedger.Proofs.Ledger.Admission
import StreamLedger.Proofs.Ledger.Checked
import StreamLedger.Proofs.Merkle.Inclusion
import StreamLedger.Proofs.Ledger.Naming
import StreamLedger.Proofs.Registry.Sightings
import StreamLedger.Proofs.Ledger.Lookup
import StreamLedger.Proofs.Ledger.Finalization
import StreamLedger.Proofs.Cache.Retention
import StreamLedger.Proofs.Registry.Drain
import StreamLedger.Proofs.Merkle.Folding
import StreamLedger.Proofs.Ledger.Pages
import StreamLedger.Proofs.Cache.Interference
import StreamLedger.Proofs.Digest
import StreamLedger.Proofs.Table.Seek
import StreamLedger.Proofs.Merkle.Levels
