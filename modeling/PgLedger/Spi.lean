import Mathlib.Data.List.Sort
import PgLedger.Errors
import PgLedger.Result
import PgLedger.Schema

/-!
# PgLedger.Spi

The SQL statements of the extension and the programs made of them.  A
program is a tree: it ends with a result or an error, or it sends a statement
and goes on with its result.  `Stmt.eval` is the executor: what one statement
returns and writes when it runs on given tables.  `Spi.run` runs a program
alone, every statement on the tables the ones before have left; a program
that fails leaves no tables, because PostgreSQL rolls its writes back.

The statements of programs that run at the same time interleave, so a
statement that locks several rows is a sequence of one-row statements here.
-/

namespace PgLedger

/-! ## statements -/

inductive Stmt where
  /-- `clock_timestamp()` -/
  | clockTimestamp
  /-- `SELECT id FROM ledger_transactions WHERE id = $1 FOR UPDATE` -/
  | lockTransaction (id : Uuid)
  /-- `SELECT id FROM ledger_transactions WHERE reverses_transaction_id = $1` -/
  | findReversal (id : Uuid)
  /-- `SELECT ledger_posting(account_id, -amount) FROM ledger_entries` of one
  transaction, by account and falling version -/
  | reversalPostings (id : Uuid)
  /-- `INSERT INTO ledger_transactions … ON CONFLICT (idempotency_key) DO NOTHING RETURNING id` -/
  | insertTransaction (values : TransactionValues)
  /-- `SELECT id, payload_hash FROM ledger_transactions WHERE idempotency_key = $1` -/
  | resolveKey (key : Str)
  /-- The part of `SELECT … FROM ledger_accounts WHERE id = ANY($1) ORDER BY id
  FOR UPDATE` that locks and reads one row -/
  | lockAccount (id : Uuid)
  /-- `SELECT set_config('pg_ledger.internal_posting', …, true)` -/
  | setInternalPosting (value : Str)
  /-- `UPDATE ledger_accounts SET balance = $1, version = $2 WHERE id = $3` -/
  | updateAccount (balance : LedgerAmount) (version : Int64) (id : Uuid)
  /-- `INSERT INTO ledger_entries …` -/
  | insertEntry (values : EntryValues)
  /-- `INSERT INTO ledger_accounts … RETURNING id` -/
  | insertAccount (values : AccountValues)

/-- What a statement returns. -/
@[reducible] def Stmt.Result : Stmt → Type
  | .clockTimestamp => Timestamp
  | .lockTransaction _ => Bool
  | .findReversal _ => Option Uuid
  | .reversalPostings _ => List LedgerPosting
  | .insertTransaction _ => Option Uuid
  | .resolveKey _ => Option (Uuid × Str)
  | .lockAccount _ => Option AccountRow
  | .setInternalPosting _ => Unit
  | .updateAccount _ _ _ => Unit
  | .insertEntry _ => Unit
  | .insertAccount _ => Uuid

/-! ## the executor -/

/-- The clock a session reads and the identifiers it draws. -/
structure Env where
  clock : Nat → Timestamp
  uuidv7 : Nat → Uuid

/-- The state of a session outside of the tables: the setting
`pg_ledger.internal_posting`, and how far `Env` was used up. -/
structure Backend where
  internalPosting : Option Str
  clockReads : Nat
  uuidsDrawn : Nat

/-- What a statement that did not fail has done. -/
structure Effect (ρ : Type) where
  result : ρ
  writes : List Write
  backend : Backend

namespace Backend

def readClock (b : Backend) : Backend := { b with clockReads := b.clockReads + 1 }

def drawUuid (b : Backend) : Backend := { b with uuidsDrawn := b.uuidsDrawn + 1 }

end Backend

/-- `ORDER BY account_id, account_version DESC` -/
def reversalOrder (d e : EntryRow) : Prop :=
  d.accountId < e.accountId ∨ d.accountId = e.accountId ∧ e.accountVersion ≤ d.accountVersion

instance : DecidableRel reversalOrder := fun d e => by unfold reversalOrder; infer_instance

/-- The trigger `ledger_accounts_balance_guard`.  The asset never changes
here, so the second check of the trigger cannot fire. -/
def balanceGuard (b : Backend) (row : AccountRow) (balance : LedgerAmount) (version : Int64) :
    Except PgError Unit :=
  if b.internalPosting ≠ some "on".toList ∧
      (balance.canonical, version) ≠ (row.balance.canonical, row.version) then
    .error ⟨.objectNotInPrerequisiteState,
      "ledger account balances can only be changed by the posting engine"⟩
  else .ok ()

/-- The new version of an account row, once it passes the `CHECK`s. -/
def AccountRow.withBalance (row : AccountRow) (balance : LedgerAmount) (version : Int64)
    (updatedAt : Timestamp) : Except PgError AccountRow :=
  if hb : balance.asset = row.asset then
    if hv : 0 ≤ version.toInt then
      .ok { row with balance, version, updatedAt, balanceCheck := hb, versionCheck := hv }
    else .error (checkViolation "ledger_accounts" "ledger_accounts_version_check")
  else .error (checkViolation "ledger_accounts" "ledger_accounts_check")

/-- A new account row, once it passes the `CHECK`s. -/
def AccountValues.check (v : AccountValues) (id : Uuid) (createdAt updatedAt : Timestamp) :
    Except PgError AccountRow :=
  if hb : v.balance.asset = v.asset then
    if hn : btrim v.name = v.name ∧ v.name ≠ [] then
      .ok { v with
        id, version := 0, createdAt, updatedAt, nameCheck := hn, versionCheck := le_rfl
        balanceCheck := hb }
    else .error (checkViolation "ledger_accounts" "ledger_accounts_name_check")
  else .error (checkViolation "ledger_accounts" "ledger_accounts_check")

/-- A new entry row, once it passes the `CHECK`s. -/
def EntryValues.check (v : EntryValues) (id : Uuid) : Except PgError EntryRow :=
  if hv : 0 < v.accountVersion.toInt then
    if ha : v.amount.units ≠ 0 then
      if hp : v.amount.asset = v.previousBalance.asset then
        if hc : v.amount.asset = v.currentBalance.asset then
          if hs : v.previousBalance.checkedAdd v.amount = .ok v.currentBalance then
            .ok { v with
              id, versionCheck := hv, amountCheck := ha, previousCheck := hp, currentCheck := hc
              sumCheck := hs }
          else .error (checkViolation "ledger_entries" "ledger_entries_check2")
        else .error (checkViolation "ledger_entries" "ledger_entries_check1")
      else .error (checkViolation "ledger_entries" "ledger_entries_check")
    else .error (checkViolation "ledger_entries" "ledger_entries_amount_check")
  else .error (checkViolation "ledger_entries" "ledger_entries_account_version_check")

/-- A value that `UNIQUE` does not let in again. -/
def taken {α : Type} [DecidableEq α] (column : List α) (value : Option α) : Bool :=
  value.any fun v => v ∈ column

namespace Stmt

variable (env : Env) (t : Tables) (b : Backend)

def evalInsertTransaction (v : TransactionValues) : Except PgError (Effect (Option Uuid)) :=
  let id := env.uuidv7 b.uuidsDrawn
  if taken t.idempotencyKeys v.idempotencyKey then .ok ⟨none, [], b.drawUuid⟩
  else if id ∈ t.transactionIds then .error (uniqueViolation "ledger_transactions_pkey")
  else if taken t.reversedIds v.reversesTransactionId then
    .error (uniqueViolation "ledger_transactions_reverses_transaction_id_key")
  else if v.reversesTransactionId.any fun original => original ∉ id :: t.transactionIds then
    .error (foreignKeyViolation "ledger_transactions"
      "ledger_transactions_reverses_transaction_id_fkey")
  else .ok ⟨some id, [.insertTransaction { v with id }], b.drawUuid⟩

def evalUpdateAccount (balance : LedgerAmount) (version : Int64) (id : Uuid) :
    Except PgError (Effect Unit) :=
  match t.account? id with
  | none => .ok ⟨(), [], b⟩
  | some row => do
      balanceGuard b row balance version
      let row ← row.withBalance balance version (env.clock b.clockReads)
      .ok ⟨(), [.updateAccount row], b.readClock⟩

def evalInsertEntry (v : EntryValues) : Except PgError (Effect Unit) := do
  let row ← v.check (env.uuidv7 b.uuidsDrawn)
  if row.id ∈ t.entryIds then .error (uniqueViolation "ledger_entries_pkey")
  else if (v.accountId, v.accountVersion) ∈ t.entryVersions then
    .error (uniqueViolation "ledger_entries_account_id_account_version_key")
  else if v.transactionId ∉ t.transactionIds then
    .error (foreignKeyViolation "ledger_entries" "ledger_entries_transaction_id_fkey")
  else if v.accountId ∉ t.accountIds then
    .error (foreignKeyViolation "ledger_entries" "ledger_entries_account_id_fkey")
  else .ok ⟨(), [.insertEntry row], b.drawUuid⟩

def evalInsertAccount (v : AccountValues) : Except PgError (Effect Uuid) := do
  let row ← v.check (env.uuidv7 b.uuidsDrawn) (env.clock b.clockReads)
    (env.clock (b.clockReads + 1))
  if row.id ∈ t.accountIds then .error (uniqueViolation "ledger_accounts_pkey")
  else if taken t.accountNames (some row.name) then
    .error (uniqueViolation "ledger_accounts_name_key")
  else .ok ⟨row.id, [.insertAccount row], b.drawUuid.readClock.readClock⟩

/-- Run one statement on what it sees of the tables. -/
def eval : (s : Stmt) → Except PgError (Effect s.Result)
  | .clockTimestamp => .ok ⟨env.clock b.clockReads, [], b.readClock⟩
  | .lockTransaction id => .ok ⟨id ∈ t.transactionIds, [], b⟩
  | .findReversal id => .ok ⟨(t.reversal? id).map (·.id), [], b⟩
  | .reversalPostings id =>
      .ok ⟨((t.transactionEntries id).insertionSort reversalOrder).map fun e =>
        ⟨e.accountId, e.amount.negate⟩, [], b⟩
  | .insertTransaction v => evalInsertTransaction env t b v
  | .resolveKey key =>
      .ok ⟨(t.holder? key).map fun row => (row.id, row.payloadHash), [], b⟩
  | .lockAccount id => .ok ⟨t.account? id, [], b⟩
  | .setInternalPosting value => .ok ⟨(), [], { b with internalPosting := some value }⟩
  | .updateAccount balance version id => evalUpdateAccount env t b balance version id
  | .insertEntry v => evalInsertEntry env t b v
  | .insertAccount v => evalInsertAccount env t b v

end Stmt

/-! ## programs -/

inductive Spi (α : Type) where
  | pure (a : α)
  | fail (e : PgError)
  | stmt (s : Stmt) (k : s.Result → Spi α)

namespace Spi

variable {α β : Type}

def bind : Spi α → (α → Spi β) → Spi β
  | .pure a, f => f a
  | .fail e, _ => .fail e
  | .stmt s k, f => .stmt s fun r => (k r).bind f

instance : Monad Spi where
  pure := Spi.pure
  bind := Spi.bind

/-- Send one statement. -/
def send (s : Stmt) : Spi s.Result := .stmt s .pure

/-- The result of a computation without statements. -/
def ofExcept : Except PgError α → Spi α
  | .ok a => .pure a
  | .error e => .fail e

/-- Run a program alone. -/
def run (env : Env) : Spi α → Tables → Backend → Except PgError (α × Tables × Backend)
  | .pure a, t, b => .ok (a, t, b)
  | .fail e, _, _ => .error e
  | .stmt s k, t, b => do
      let effect ← s.eval env t b
      (k effect.result).run env (t.applyAll effect.writes) effect.backend

variable {env : Env} {t t' : Tables} {b b' : Backend}

@[simp] theorem run_pure (a : α) : (Pure.pure a : Spi α).run env t b = .ok (a, t, b) := rfl

@[simp] theorem run_fail (e : PgError) : (Spi.fail e : Spi α).run env t b = .error e := rfl

/-- A sequence runs its second part on what the first has left. -/
theorem run_bind (x : Spi α) (f : α → Spi β) : (x >>= f).run env t b =
    x.run env t b >>= fun (a, t, b) => (f a).run env t b := by
  induction x generalizing t b with
  | pure a => rfl
  | fail e => rfl
  | stmt s k ih =>
      show (s.eval env t b >>= fun effect => ((k effect.result).bind f).run env
        (t.applyAll effect.writes) effect.backend) = (s.eval env t b >>= fun effect =>
          (k effect.result).run env (t.applyAll effect.writes) effect.backend) >>= _
      cases s.eval env t b with
      | error e => rfl
      | ok effect => exact ih effect.result

/-- A sequence of programs succeeds exactly when both parts do. -/
theorem run_bind_eq_ok {x : Spi α} {f : α → Spi β} {c : β} :
    (x >>= f).run env t b = .ok (c, t', b') ↔
    ∃ a t₁ b₁, x.run env t b = .ok (a, t₁, b₁) ∧ (f a).run env t₁ b₁ = .ok (c, t', b') := by
  rw [run_bind, bind_eq_ok]
  constructor
  · intro h
    obtain ⟨⟨a, t₁, b₁⟩, hx, hf⟩ := h
    exact ⟨a, t₁, b₁, hx, hf⟩
  · intro h
    obtain ⟨a, t₁, b₁, hx, hf⟩ := h
    exact ⟨(a, t₁, b₁), hx, hf⟩

/-- And fails exactly when one of them does. -/
theorem run_bind_eq_error {x : Spi α} {f : α → Spi β} {e : PgError} :
    (x >>= f).run env t b = .error e ↔ x.run env t b = .error e ∨
      ∃ a t₁ b₁, x.run env t b = .ok (a, t₁, b₁) ∧ (f a).run env t₁ b₁ = .error e := by
  rw [run_bind, bind_eq_error]
  refine or_congr_right ⟨?_, ?_⟩
  · intro h
    obtain ⟨⟨a, t₁, b₁⟩, hx, hf⟩ := h
    exact ⟨a, t₁, b₁, hx, hf⟩
  · intro h
    obtain ⟨a, t₁, b₁, hx, hf⟩ := h
    exact ⟨(a, t₁, b₁), hx, hf⟩

/-- A statement is evaluated, and then its writes are applied. -/
theorem run_send (s : Stmt) : (send s).run env t b =
    s.eval env t b >>= fun effect =>
      .ok (effect.result, t.applyAll effect.writes, effect.backend) := rfl

/-- A statement that succeeds has applied exactly its writes. -/
theorem run_send_eq_ok {s : Stmt} {r : s.Result} : (send s).run env t b = .ok (r, t', b') ↔
    ∃ ws, s.eval env t b = .ok ⟨r, ws, b'⟩ ∧ t' = t.applyAll ws := by
  rw [run_send, bind_eq_ok]
  constructor
  · intro h
    obtain ⟨⟨r₁, ws, b₁⟩, heval, heq⟩ := h
    obtain ⟨rfl, rfl, rfl⟩ : r₁ = r ∧ t.applyAll ws = t' ∧ b₁ = b' := by
      simpa using Except.ok.inj heq
    exact ⟨ws, heval, rfl⟩
  · intro h
    obtain ⟨ws, heval, rfl⟩ := h
    exact ⟨_, heval, rfl⟩

/-- Locking a transaction tells whether it exists. -/
theorem run_lockTransaction (id : Uuid) : (send (.lockTransaction id)).run env t b =
    .ok (decide (id ∈ t.transactionIds), t, b) := rfl

/-- The lookup of a reversal returns its identifier and writes nothing. -/
theorem run_findReversal (id : Uuid) : (send (.findReversal id)).run env t b =
    .ok ((t.reversal? id).map (·.id), t, b) := rfl

/-- The entries of the transaction, negated and in the order of the query. -/
theorem run_reversalPostings (id : Uuid) : (send (.reversalPostings id)).run env t b =
    .ok (((t.transactionEntries id).insertionSort reversalOrder).map fun e =>
      ⟨e.accountId, e.amount.negate⟩, t, b) := rfl

/-- The row that holds the key, by identifier and fingerprint. -/
theorem run_resolveKey (key : Str) : (send (.resolveKey key)).run env t b =
    .ok ((t.holder? key).map fun row => (row.id, row.payloadHash), t, b) := rfl

/-- `set_config` changes the setting and nothing else. -/
theorem run_setInternalPosting (value : Str) : (send (.setInternalPosting value)).run env t b =
    .ok ((), t, { b with internalPosting := some value }) := rfl

/-- `clock_timestamp` reads the clock once. -/
theorem run_clockTimestamp : (send .clockTimestamp).run env t b =
    .ok (env.clock b.clockReads, t, b.readClock) := rfl

/-- A computation that succeeds leaves tables and session as they are. -/
@[simp] theorem run_ofExcept_eq_ok {x : Except PgError α} {a : α} :
    (ofExcept x).run env t b = .ok (a, t', b') ↔ x = .ok a ∧ t' = t ∧ b' = b := by
  cases x with
  | error e => simp [ofExcept]
  | ok a₁ =>
      simp only [ofExcept, run, Except.ok.injEq, Prod.mk.injEq]
      constructor
      · rintro ⟨rfl, rfl, rfl⟩
        exact ⟨rfl, rfl, rfl⟩
      · rintro ⟨rfl, rfl, rfl⟩
        exact ⟨rfl, rfl, rfl⟩

/-- A computation fails with its own error. -/
theorem run_ofExcept_eq_error {x : Except PgError α} {e : PgError} :
    (ofExcept x).run env t b = .error e ↔ x = .error e := by
  cases x with
  | error e₁ => simp [ofExcept]
  | ok a => simp [ofExcept, run]

/-- A statement fails exactly when its evaluation does. -/
theorem run_send_eq_error {s : Stmt} {e : PgError} :
    (send s).run env t b = .error e ↔ s.eval env t b = .error e := by
  rw [run_send, bind_eq_error]
  simp

end Spi

end PgLedger
