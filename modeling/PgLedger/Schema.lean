import PgLedger.Posting

/-!
# PgLedger.Schema

The three tables.  A row carries the proofs of its own `CHECK` constraints,
so there are no rows that violate them; the constraints between rows, the
keys and references, are the fields of `Tables.Constrained`.

A table is the list of its rows in the order they were inserted.
-/

namespace PgLedger

/-- Microseconds, as `TimestampTz` counts them. -/
abbrev Timestamp := Int

/-- `ledger_balance_policy`. -/
inductive BalancePolicy where
  | any
  | nonNegative
  | nonPositive
  | zero
deriving DecidableEq, Repr

/-- `btrim(text)`: drop the blanks on both sides. -/
def btrim (s : Str) : Str :=
  ((s.dropWhile (· == ' ')).reverse.dropWhile (· == ' ')).reverse

/-! ## rows -/

/-- The columns of a new account that `ledger_create_account` gives. -/
structure AccountValues where
  name : Str
  asset : LedgerAsset
  balance : LedgerAmount
  balancePolicy : BalancePolicy
  metadata : Option Json

/-- A row of `ledger_accounts`. -/
structure AccountRow extends AccountValues where
  id : Uuid
  version : Int64
  createdAt : Timestamp
  updatedAt : Timestamp
  nameCheck : btrim name = name ∧ name ≠ []
  versionCheck : 0 ≤ version.toInt
  balanceCheck : balance.asset = asset

/-- The columns of a new transaction that the posting engine gives. -/
structure TransactionValues where
  eventAt : Timestamp
  reference : Option Str
  idempotencyKey : Option Str
  payloadHash : Str
  reversesTransactionId : Option Uuid
  metadata : Option Json
  createdAt : Timestamp

/-- A row of `ledger_transactions`. -/
structure TransactionRow extends TransactionValues where
  id : Uuid

/-- The columns of a new entry that the posting engine gives. -/
structure EntryValues where
  transactionId : Uuid
  accountId : Uuid
  amount : LedgerAmount
  accountVersion : Int64
  previousBalance : LedgerAmount
  currentBalance : LedgerAmount
  createdAt : Timestamp

/-- A row of `ledger_entries`. -/
structure EntryRow extends EntryValues where
  id : Uuid
  versionCheck : 0 < accountVersion.toInt
  amountCheck : amount.units ≠ 0
  previousCheck : amount.asset = previousBalance.asset
  currentCheck : amount.asset = currentBalance.asset
  sumCheck : previousBalance.checkedAdd amount = .ok currentBalance

/-- The units of an entry lead from one balance to the other. -/
theorem EntryRow.units_current (e : EntryRow) :
    e.currentBalance.units = e.previousBalance.units + e.amount.units := by
  obtain ⟨-, hcurrent⟩ := LedgerAmount.checkedAdd_eq_ok.mp e.sumCheck
  rw [hcurrent]

/-- What an entry moved, as a posting. -/
def EntryRow.posting (e : EntryRow) : LedgerPosting := ⟨e.accountId, e.amount⟩

/-! ## tables -/

structure Tables where
  accounts : List AccountRow
  transactions : List TransactionRow
  entries : List EntryRow

/-- The ledger right after `CREATE EXTENSION`. -/
def Tables.empty : Tables := ⟨[], [], []⟩

namespace Tables

variable (t : Tables)

def account? (id : Uuid) : Option AccountRow := t.accounts.find? (·.id = id)

/-- The transaction that holds an idempotency key. -/
def holder? (key : Str) : Option TransactionRow :=
  t.transactions.find? (·.idempotencyKey = some key)

/-- The transaction that reverses another one. -/
def reversal? (id : Uuid) : Option TransactionRow :=
  t.transactions.find? (·.reversesTransactionId = some id)

/-- The entries of an account, in the order they were written. -/
def accountEntries (id : Uuid) : List EntryRow := t.entries.filter (·.accountId = id)

/-- The entries of a transaction, in the order they were written. -/
def transactionEntries (id : Uuid) : List EntryRow := t.entries.filter (·.transactionId = id)

/-! The columns with keys on them.  `NULL` does not count against `UNIQUE`,
so the nullable columns list their values only. -/

def accountIds : List Uuid := t.accounts.map (·.id)

def accountNames : List Str := t.accounts.map (·.name)

def transactionIds : List Uuid := t.transactions.map (·.id)

def idempotencyKeys : List Str := t.transactions.filterMap (·.idempotencyKey)

def reversedIds : List Uuid := t.transactions.filterMap (·.reversesTransactionId)

def entryIds : List Uuid := t.entries.map (·.id)

def entryVersions : List (Uuid × Int64) := t.entries.map fun e => (e.accountId, e.accountVersion)

/-- The keys, unique columns and references of the schema. -/
structure Constrained : Prop where
  accountIds : t.accountIds.Nodup
  accountNames : t.accountNames.Nodup
  transactionIds : t.transactionIds.Nodup
  idempotencyKeys : t.idempotencyKeys.Nodup
  reversedIds : t.reversedIds.Nodup
  reversedExist : ∀ id ∈ t.reversedIds, id ∈ t.transactionIds
  entryIds : t.entryIds.Nodup
  entryVersions : t.entryVersions.Nodup
  entryTransactions : ∀ e ∈ t.entries, e.transactionId ∈ t.transactionIds
  entryAccounts : ∀ e ∈ t.entries, e.accountId ∈ t.accountIds

/-! ## lookups -/

variable {t}

/-- No account is found exactly when the identifier is not in use. -/
theorem account?_eq_none {id : Uuid} : t.account? id = none ↔ id ∉ t.accountIds := by
  simp [account?, accountIds, List.find?_eq_none]

/-- The account that is found has the identifier. -/
theorem id_of_account? {id : Uuid} {a : AccountRow} (h : t.account? id = some a) : a.id = id := by
  simpa using List.find?_some h

/-- The account that is found is in the table. -/
theorem mem_of_account? {id : Uuid} {a : AccountRow} (h : t.account? id = some a) :
    a ∈ t.accounts := List.mem_of_find?_eq_some h

/-- With distinct identifiers, a row is found under its own. -/
theorem account?_of_mem (h : t.Constrained) {a : AccountRow} (ha : a ∈ t.accounts) :
    t.account? a.id = some a := by
  rw [account?, List.find?_eq_some_iff_append]
  obtain ⟨before, after, hsplit⟩ := List.append_of_mem ha
  refine ⟨by simp, before, after, hsplit, ?_⟩
  intro b hb
  have hnodup := h.accountIds
  rw [Tables.accountIds, hsplit, List.map_append, List.nodup_append] at hnodup
  have hne := hnodup.2.2 b.id (List.mem_map_of_mem hb) a.id (by simp)
  simpa using hne

/-- The holder of a key is a transaction with it. -/
theorem holder?_eq_some {key : Str} {row : TransactionRow} (h : t.holder? key = some row) :
    row ∈ t.transactions ∧ row.idempotencyKey = some key :=
  ⟨List.mem_of_find?_eq_some h, by simpa using List.find?_some h⟩

/-- The reversal that is found is linked to the original. -/
theorem reversal?_eq_some {original : Uuid} {row : TransactionRow}
    (h : t.reversal? original = some row) :
    row ∈ t.transactions ∧ row.reversesTransactionId = some original :=
  ⟨List.mem_of_find?_eq_some h, by simpa using List.find?_some h⟩

/-- No reversal is found exactly when nothing is linked to the original. -/
theorem reversal?_eq_none {original : Uuid} : t.reversal? original = none ↔
    ∀ row ∈ t.transactions, row.reversesTransactionId ≠ some original := by
  simp [reversal?, List.find?_eq_none]

/-- A key is not in use when no transaction has it. -/
theorem not_mem_idempotencyKeys {key : Str} : key ∉ t.idempotencyKeys ↔
    ∀ row ∈ t.transactions, row.idempotencyKey ≠ some key := by
  simp [idempotencyKeys, List.mem_filterMap]

/-- A key has no holder exactly when it is not in use. -/
theorem holder?_eq_none_iff {key : Str} : t.holder? key = none ↔ key ∉ t.idempotencyKeys := by
  simp [holder?, idempotencyKeys, List.find?_eq_none, List.mem_filterMap]

/-- A transaction has no reversal exactly when it is not among the reversed
ones. -/
theorem reversal?_eq_none_iff {id : Uuid} : t.reversal? id = none ↔ id ∉ t.reversedIds := by
  simp [reversal?, reversedIds, List.find?_eq_none, List.mem_filterMap]

/-- A nullable unique column determines the row where it has a value. -/
theorem eq_of_nodup_filterMap {α β : Type} {f : α → Option β} {l : List α}
    (h : (l.filterMap f).Nodup) {x y : α} (hx : x ∈ l) (hy : y ∈ l) {v : β} (hfx : f x = some v)
    (hfy : f y = some v) : x = y := by
  induction l with
  | nil => exact absurd hx List.not_mem_nil
  | cons a l ih =>
      have htail : (l.filterMap f).Nodup := by
        cases hfa : f a with
        | none => rwa [List.filterMap_cons_none hfa] at h
        | some w =>
            rw [List.filterMap_cons_some hfa] at h
            exact (List.nodup_cons.mp h).2
      have hhead (z : α) (hz : z ∈ l) (hfz : f z = some v) (hfa : f a = some v) : False := by
        rw [List.filterMap_cons_some hfa] at h
        exact (List.nodup_cons.mp h).1 (List.mem_filterMap.mpr ⟨z, hz, hfz⟩)
      rcases List.mem_cons.mp hx with rfl | hx' <;> rcases List.mem_cons.mp hy with rfl | hy'
      · rfl
      · exact (hhead y hy' hfy hfx).elim
      · exact (hhead x hx' hfx hfy).elim
      · exact ih htail hx' hy'

/-- At most one transaction holds a key. -/
theorem Constrained.eq_of_key (h : t.Constrained) {r s : TransactionRow} (hr : r ∈ t.transactions)
    (hs : s ∈ t.transactions) {key : Str} (hrkey : r.idempotencyKey = some key)
    (hskey : s.idempotencyKey = some key) : r = s :=
  eq_of_nodup_filterMap h.idempotencyKeys hr hs hrkey hskey

/-- At most one transaction reverses another. -/
theorem Constrained.eq_of_link (h : t.Constrained) {r s : TransactionRow} (hr : r ∈ t.transactions)
    (hs : s ∈ t.transactions) {original : Uuid} (hrlink : r.reversesTransactionId = some original)
    (hslink : s.reversesTransactionId = some original) : r = s :=
  eq_of_nodup_filterMap h.reversedIds hr hs hrlink hslink

end Tables

/-! ## writes -/

/-- What a statement can change.  An update writes a whole new version of the
row, computed from the version the statement has read. -/
inductive Write where
  | insertAccount (row : AccountRow)
  | updateAccount (row : AccountRow)
  | insertTransaction (row : TransactionRow)
  | insertEntry (row : EntryRow)

namespace Tables

def apply (t : Tables) : Write → Tables
  | .insertAccount row => { t with accounts := t.accounts ++ [row] }
  | .updateAccount row =>
      { t with accounts := t.accounts.map fun a => if a.id = row.id then row else a }
  | .insertTransaction row => { t with transactions := t.transactions ++ [row] }
  | .insertEntry row => { t with entries := t.entries ++ [row] }

def applyAll (t : Tables) (writes : List Write) : Tables := writes.foldl apply t

@[simp] theorem applyAll_nil (t : Tables) : t.applyAll [] = t := rfl

/-- Writes one after another. -/
theorem applyAll_append (t : Tables) (ws vs : List Write) :
    t.applyAll (ws ++ vs) = (t.applyAll ws).applyAll vs := List.foldl_append

end Tables

end PgLedger
