import PgLedger.Text
import PgLedger.Result
import PgLedger.Errors
import PgLedger.Numeral
import PgLedger.Json
import PgLedger.Assoc
import PgLedger.Journal
import PgLedger.Sql
import PgLedger.Slots
import PgLedger.Serial
import PgLedger.Serial.Deadlock
import PgLedger.Serial.Progress
import PgLedger.Book
import PgLedger.Asset
import PgLedger.Asset.Sound
import PgLedger.Asset.RoundTrip
import PgLedger.Asset.Admits
import PgLedger.Amount
import PgLedger.Amount.RoundTrip
import PgLedger.Amount.Decimal
import PgLedger.Amount.Grammar
import PgLedger.Export
import PgLedger.Import
import PgLedger.Amount.Arithmetic
import PgLedger.Crates
import PgLedger.Crates.Concrete
import PgLedger.Posting
import PgLedger.Posting.RoundTrip
import PgLedger.Schema
import PgLedger.Spi
import PgLedger.Spi.Effects
import PgLedger.Ledger
import PgLedger.Idempotency
import PgLedger.Idempotency.Injective
import PgLedger.Transaction
import PgLedger.Transaction.Spec
import PgLedger.Transaction.Loop
import PgLedger.Transaction.Post
import PgLedger.Reversal
import PgLedger.Reversal.Spec
import PgLedger.Runs
import PgLedger.Runs.Sound
import PgLedger.Runs.Properties
import PgLedger.Runs.Recorded
import PgLedger.Transaction.Effect
import PgLedger.Transaction.Accepts
import PgLedger.Transaction.Order
import PgLedger.Transaction.Refuses
import PgLedger.Runs.Refuses
import PgLedger.Reversal.Exact
import PgLedger.Reversal.Accepts
import PgLedger.Idempotency.ExactlyOnce
import PgLedger.Validation
import PgLedger.Validation.Decides
import PgLedger.Validation.Clean
import PgLedger.Concurrency
import PgLedger.Concurrency.Disciplined
import PgLedger.Concurrency.Frame
import PgLedger.Concurrency.Serialisable
import PgLedger.Concurrency.Ordered
import PgLedger.Concurrency.Deadlock
import PgLedger.Concurrency.Progress
import PgLedger.Concurrency.Failures
import PgLedger.Guard
import PgLedger.Guard.Settings
import PgLedger.Guard.Allowed
import PgLedger.Guard.History
import PgLedger.Guard.Agree
import PgLedger.Guard.Deeds
import PgLedger.Guard.Relies
import PgLedger.Guard.Serialisable
import PgLedger.Guard.Properties
import PgLedger.Guard.Privileges
import PgLedger.Book.Tables
import PgLedger.Book.Refines
import PgLedger.Book.History
import PgLedger.Reads
import PgLedger.Reads.Properties
import PgLedger.Idempotency.Formats
