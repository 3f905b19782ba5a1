import PgLedger.Amount
import PgLedger.Crates

/-!
# PgLedger.Posting

Postings: an account and the amount it moves by.  Their text is the account
identifier, a bar and the text of the amount.
-/

namespace PgLedger

/-- A value of the SQL type `ledger_posting`. -/
structure LedgerPosting where
  accountId : Uuid
  amount : LedgerAmount
deriving DecidableEq

namespace LedgerPosting

def parse (crates : Crates) (input : Str) : Except String LedgerPosting :=
  match splitOnce '|' input with
  | none => .error "expected '<account-uuid>|<amount> <asset>'"
  | some (account, amount) =>
      match crates.uuidParseStr account with
      | none => .error "posting account identifier is not a UUID"
      | some accountId => do
          let amount ← LedgerAmount.parse amount
          .ok ⟨accountId, amount⟩

def canonical (crates : Crates) (posting : LedgerPosting) : Str :=
  crates.uuidToString posting.accountId ++ '|' :: posting.amount.canonical

/-- `ledger_posting_negate`. -/
def negate (posting : LedgerPosting) : LedgerPosting := ⟨posting.accountId, posting.amount.negate⟩

@[simp] theorem accountId_negate (posting : LedgerPosting) :
    posting.negate.accountId = posting.accountId := rfl

@[simp] theorem amount_negate (posting : LedgerPosting) :
    posting.negate.amount = posting.amount.negate := rfl

/-- Negating twice changes nothing. -/
@[simp] theorem negate_negate (posting : LedgerPosting) : posting.negate.negate = posting := by
  rw [negate, negate, LedgerAmount.negate_negate]

end LedgerPosting

end PgLedger
