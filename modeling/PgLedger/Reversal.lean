import PgLedger.Transaction

/-!
# PgLedger.Reversal

Reversals: lock the original, return the reversal it already has, and
otherwise post the negation of its entries, linked to it.  The reference, the
key and the metadata default to values that name the original.
-/

namespace PgLedger

variable (crates : Crates)

/-- Lock the original and look for its reversal. -/
def findExisting (transactionId : Uuid) : Spi (Option Uuid) := do
  let found ← Spi.send (.lockTransaction transactionId)
  if found then Spi.send (.findReversal transactionId)
  else Spi.fail (failForeignKey
    ("ledger transaction " ++ String.ofList (crates.pgUuidToString transactionId) ++
      " does not exist"))

/-- The request that posts a reversal. -/
def reversalRequest (transactionId : Uuid) (options : PostOptions)
    (postings : List LedgerPosting) : PostRequest where
  postings := postings
  reference := options.reference.or
    (some ("reversal:".toList ++ crates.pgUuidToString transactionId))
  idempotencyKey := options.idempotencyKey.or
    (some ("ledger:reversal:".toList ++ crates.pgUuidToString transactionId))
  eventAt := options.eventAt
  metadata := options.metadata.or
    (some (.object [("reverses_transaction_id".toList,
      .string (crates.pgUuidToString transactionId))]))
  reversesTransactionId := some transactionId

/-- `ledger_reverse` -/
def ledgerReverse (transactionId : Uuid) (options : PostOptions) : Spi Uuid := do
  match ← findExisting crates transactionId with
  | some existing => pure existing
  | none => do
      let postings ← Spi.send (.reversalPostings transactionId)
      post crates (reversalRequest crates transactionId options postings)

end PgLedger
