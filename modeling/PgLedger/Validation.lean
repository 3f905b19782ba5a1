import PgLedger.Ledger
import PgLedger.Sql

/-!
# PgLedger.Validation

The integrity queries.  Each of the seven counts the rows of the tables that
violate one rule; `ledgerValidate` runs them all and reports `OK` for the
rules without violations.

Units reach the queries as `numeric`, which has 131072 digits at most.
-/

namespace PgLedger

open Sql

/-! ## numbers -/

def numericDigits : Nat := 131072

/-- A number that `numeric` can hold. -/
def InNumericRange (units : Int) : Prop := units.natAbs < 10 ^ numericDigits

instance : DecidablePred InNumericRange := fun units => by unfold InNumericRange; infer_instance

def ledgerAmountUnits (value : LedgerAmount) : Except PgError Int :=
  if InNumericRange value.units then .ok value.units
  else .error
    (failParameter "could not produce PostgreSQL numeric: value overflows numeric format")

/-- `sum(numeric)`; the sum of no rows is `NULL`. -/
def sumNumeric (numbers : List Int) : Except PgError (Option Int) :=
  if numbers = [] then .ok none
  else if InNumericRange numbers.sum then .ok (some numbers.sum)
  else .error ⟨.numericValueOutOfRange, "value overflows numeric format"⟩

/-- `sum(ledger_amount_units(amount))` -/
def sumUnits (entries : List EntryRow) : Except PgError (Option Int) := do
  let units ← entries.mapM fun e => ledgerAmountUnits e.amount
  sumNumeric units

/-! ## the checks -/

section
variable (t : Tables)

def transactionBalance : Except PgError Int :=
  countWhere (fun g => do
      let total ← sumUnits g.2
      .ok (ne total (some 0)))
    (groupBy (fun e => (e.transactionId, e.amount.asset)) t.entries)

def cachedBalances : Except PgError Int :=
  countWhere (fun a => do
      let balance ← ledgerAmountUnits a.balance
      let total ← sumUnits (t.accountEntries a.id)
      .ok (ne (some balance) (some (total.getD 0))))
    t.accounts

/-- The condition of `version_sequence`, for an account and the versions of
its entries. -/
def versionViolation (version : Int) (versions : List Int) : Truth :=
  ((ne (some version) (some (versions.length : Int))).or
    ((Truth.of (0 < version)).and
      ((ne versions.min? (some 1)).or (ne versions.max? (some version))))).or
    (.of (∃ g ∈ groupBy id versions, 1 < g.2.length))

def versionSequence : Except PgError Int :=
  countWhere (fun a => .ok (versionViolation a.version.toInt
      ((t.accountEntries a.id).map (·.accountVersion.toInt))))
    t.accounts

/-- The condition of `balance_chain`, for an entry and the balance that its
account had before. -/
def chainViolation (e : EntryRow) (prior : Option LedgerAmount) : Except PgError Truth := do
  let sum ← (e.previousBalance.checkedAdd e.amount).mapError failParameter
  .ok ((((Truth.of (e.accountVersion.toInt = 1)).and (.of (e.previousBalance.units ≠ 0))).or
    ((Truth.of (1 < e.accountVersion.toInt)).and
      (isDistinctFrom prior (some e.previousBalance)))).or
    (isDistinctFrom (some sum) (some e.currentBalance)))

def balanceChain : Except PgError Int :=
  countWhere (fun chained => chainViolation chained.1 chained.2)
    (lag (·.accountId) (·.accountVersion.toInt) (·.currentBalance) t.entries)

def minimumEntries : Except PgError Int :=
  countWhere (fun g => .ok (.of ((g.2.filterMap (·.2)).length < 2)))
    (groupBy (·.1.id) (leftJoin (fun row e => e.transactionId = row.id) t.transactions t.entries))

def assetConsistency : Except PgError Int :=
  countWhere (fun p => .ok (isDistinctFrom (some p.1.amount.asset) (some p.2.asset)))
    (join (fun e a => a.id = e.accountId) t.entries t.accounts)

/-- Entries grouped by account, asset and units, the units taken as they are
or negated. -/
def movedCopies (entries : List EntryRow) (sign : Int → Int) :
    Except PgError (List ((Uuid × LedgerAsset × Int) × Nat)) := do
  let keys ← entries.mapM fun e => do
    let units ← ledgerAmountUnits e.amount
    .ok (e.accountId, e.amount.asset, sign units)
  .ok (counted keys)

def reversalConsistency : Except PgError Int :=
  countWhere (fun reversal => match reversal.reversesTransactionId with
      | none => .ok (.of False)
      | some id => do
          let original ← movedCopies (t.transactionEntries id) fun units => units
          let reversed ← movedCopies (t.transactionEntries reversal.id) fun units => -units
          .ok (.of (∃ p ∈ fullJoin original reversed, p.1 = none ∨ p.2 = none)))
    t.transactions

end

/-! ## the report -/

/-- `CHECKS` -/
def checks : List (String × (Tables → Except PgError Int)) :=
  [("transaction_balance", transactionBalance),
    ("cached_balances", cachedBalances),
    ("version_sequence", versionSequence),
    ("balance_chain", balanceChain),
    ("minimum_entries", minimumEntries),
    ("asset_consistency", assetConsistency),
    ("reversal_consistency", reversalConsistency)]

structure CheckResult where
  checkName : String
  status : String
  violations : Int

/-- One line of the report. -/
def runCheck (t : Tables) (check : String × (Tables → Except PgError Int)) :
    Except PgError CheckResult := do
  let violations ← check.2 t
  .ok ⟨check.1, if violations = 0 then "OK" else "FAIL", violations⟩

/-- `ledger_validate`: the lines of the report in the order of their names. -/
def ledgerValidate (t : Tables) : Except PgError (List CheckResult) := do
  let results ← checks.mapM (runCheck t)
  .ok (results.insertionSort fun left right => left.checkName ≤ right.checkName)

end PgLedger
