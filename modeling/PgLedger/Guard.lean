import PgLedger.Concurrency
import PgLedger.Slots

/-!
# PgLedger.Guard

The public functions side by side with direct `UPDATE` and `DELETE`
statements on the three tables, in transactions with savepoints.  What stands
between a direct statement and the ledger are two triggers,
`ledger_reject_immutable_change` and `ledger_accounts_balance_guard`, and the
constraints of the schema.

The balance guard looks at the setting `pg_ledger.internal_posting`, which
belongs to the session.  The posting engine sets it for the rest of the
transaction, so a rollback undoes it like the changes of rows.  After an error
PostgreSQL rolls back to the innermost savepoint at once, and the client can
only go back to a savepoint or give the transaction up.  The transactions run
at the same time, as in `PgLedger.Concurrency`.

Rows can be deleted here and their identifiers changed, so a table is a list
of slots, and a row is the same row as long as it has its slot.
-/

namespace PgLedger

/-! ## tables with deleted rows -/

structure Heap where
  accounts : Slots AccountRow
  transactions : Slots TransactionRow
  entries : Slots EntryRow

/-- What is written to the tables: by a public function, of which only the
posting engine updates accounts, or by a direct statement, which replaces a row
with a new version or deletes it. -/
inductive Change where
  | posting (w : Write)
  | replaceAccount (id : Uuid) (row : AccountRow)
  | deleteAccount (id : Uuid)
  | replaceTransaction (id : Uuid) (row : TransactionRow)
  | deleteTransaction (id : Uuid)
  | replaceEntry (id : Uuid) (row : EntryRow)
  | deleteEntry (id : Uuid)

namespace Change

def toAccounts : Change → RowChange AccountRow Uuid
  | posting (.insertAccount row) => .insert row
  | posting (.updateAccount row) => .replace row.id row
  | replaceAccount id row => .replace id row
  | deleteAccount id => .delete id
  | _ => .other

def toTransactions : Change → RowChange TransactionRow Uuid
  | posting (.insertTransaction row) => .insert row
  | replaceTransaction id row => .replace id row
  | deleteTransaction id => .delete id
  | _ => .other

def toEntries : Change → RowChange EntryRow Uuid
  | posting (.insertEntry row) => .insert row
  | replaceEntry id row => .replace id row
  | deleteEntry id => .delete id
  | _ => .other

end Change

def accountChanges : Changes AccountRow Uuid Change := .ofKind (·.id) Change.toAccounts

def transactionChanges : Changes TransactionRow Uuid Change := .ofKind (·.id) Change.toTransactions

def entryChanges : Changes EntryRow Uuid Change := .ofKind (·.id) Change.toEntries

/-- Tables with the same rows are the same. -/
theorem Tables.eq_of_rows {t u : Tables} (haccounts : t.accounts = u.accounts)
    (htransactions : t.transactions = u.transactions) (hentries : t.entries = u.entries) :
    t = u := by
  obtain ⟨accounts, transactions, entries⟩ := t
  obtain rfl : accounts = u.accounts := haccounts
  obtain rfl : transactions = u.transactions := htransactions
  obtain rfl : entries = u.entries := hentries
  rfl

namespace Heap

def empty : Heap := ⟨[], [], []⟩

/-- The rows that are there. -/
def tables (h : Heap) : Tables where
  accounts := h.accounts.reduceOption
  transactions := h.transactions.reduceOption
  entries := h.entries.reduceOption

def applyAll (h : Heap) (changes : List Change) : Heap where
  accounts := accountChanges.applyAll changes h.accounts
  transactions := transactionChanges.applyAll changes h.transactions
  entries := entryChanges.applyAll changes h.entries

@[simp] theorem applyAll_nil (h : Heap) : h.applyAll [] = h := rfl

theorem applyAll_append (h : Heap) (ds es : List Change) :
    h.applyAll (ds ++ es) = (h.applyAll ds).applyAll es := by
  rw [applyAll, Changes.applyAll_append, Changes.applyAll_append, Changes.applyAll_append]
  rfl

/-- The changes of the public functions are the writes to the tables. -/
theorem tables_posting (h : Heap) (writes : List Write) :
    (h.applyAll (writes.map .posting)).tables = h.tables.applyAll writes := by
  induction writes generalizing h with
  | nil => rfl
  | cons w writes ih =>
      have hfirst : (h.applyAll [.posting w]).tables = h.tables.apply w := by
        cases w with
        | insertAccount row =>
            exact Tables.eq_of_rows (Changes.rows_insert rfl) (Changes.rows_other rfl)
              (Changes.rows_other rfl)
        | updateAccount row =>
            exact Tables.eq_of_rows (Changes.rows_replace rfl) (Changes.rows_other rfl)
              (Changes.rows_other rfl)
        | insertTransaction row =>
            exact Tables.eq_of_rows (Changes.rows_other rfl) (Changes.rows_insert rfl)
              (Changes.rows_other rfl)
        | insertEntry row =>
            exact Tables.eq_of_rows (Changes.rows_other rfl) (Changes.rows_other rfl)
              (Changes.rows_insert rfl)
      rw [List.map_cons, ← List.singleton_append, applyAll_append, ih, hfirst]
      rfl

end Heap

/-! ## triggers -/

/-- `ledger_reject_immutable_change`, the trigger of `ledger_transactions` and
`ledger_entries`. -/
def ledgerRejectImmutableChange (table : String) : Except PgError Unit :=
  .error ⟨.objectNotInPrerequisiteState, table ++ " is immutable; post a reversal instead"⟩

/-- The columns of an account row as an `UPDATE` sets them. -/
structure AccountColumns extends AccountValues where
  id : Uuid
  version : Int64
  createdAt : Timestamp
  updatedAt : Timestamp

def AccountRow.columns (row : AccountRow) : AccountColumns := { row with }

/-- `ledger_accounts_balance_guard`, the trigger of `ledger_accounts`: the new
version of the row, or an error. -/
def ledgerAccountsBalanceGuard (b : Backend) (now : Timestamp) (old : AccountRow)
    (new : AccountColumns) : Except PgError AccountColumns := do
  balanceGuard b old new.balance new.version
  if new.asset ≠ old.asset then
    .error ⟨.objectNotInPrerequisiteState, "ledger account assets are immutable"⟩
  else .ok { new with updatedAt := now }

/-- The row, once it passes the `CHECK`s. -/
def AccountColumns.check (c : AccountColumns) : Except PgError AccountRow :=
  if hb : c.balance.asset = c.asset then
    if hn : btrim c.name = c.name ∧ c.name ≠ [] then
      if hv : 0 ≤ c.version.toInt then
        .ok { c with nameCheck := hn, versionCheck := hv, balanceCheck := hb }
      else .error (checkViolation "ledger_accounts" "ledger_accounts_version_check")
    else .error (checkViolation "ledger_accounts" "ledger_accounts_name_check")
  else .error (checkViolation "ledger_accounts" "ledger_accounts_check")

/-! ## direct statements -/

/-- An `UPDATE` or `DELETE` of the single row with this identifier.  What a
`SET` makes of the row is any function of it. -/
inductive Direct where
  | updateAccount (id : Uuid) (set : AccountRow → AccountColumns)
  | deleteAccount (id : Uuid)
  | updateTransaction (id : Uuid) (set : TransactionRow → TransactionRow)
  | deleteTransaction (id : Uuid)
  | updateEntry (id : Uuid) (set : EntryRow → EntryRow)
  | deleteEntry (id : Uuid)

/-- What a direct statement that did not fail has done. -/
structure DirectEffect where
  changes : List Change
  claims : List Claim
  backend : Backend

/-- An account that entries refer to. -/
def accountReferenced : PgError :=
  ⟨.foreignKeyViolation, "update or delete on table \"ledger_accounts\" violates foreign key " ++
    "constraint \"ledger_entries_account_id_fkey\" on table \"ledger_entries\""⟩

namespace Direct

variable (env : Env) (t : Tables) (b : Backend)

def evalUpdateAccount (id : Uuid) (set : AccountRow → AccountColumns) :
    Except PgError DirectEffect :=
  match t.account? id with
  | none => .ok ⟨[], [], b⟩
  | some old => do
      let new ← ledgerAccountsBalanceGuard b (env.clock b.clockReads) old (set old)
      let row ← new.check
      if row.id ≠ old.id ∧ taken t.accountIds (some row.id) then
        .error (uniqueViolation "ledger_accounts_pkey")
      else if row.name ≠ old.name ∧ taken t.accountNames (some row.name) then
        .error (uniqueViolation "ledger_accounts_name_key")
      else if row.id ≠ old.id ∧ ∃ e ∈ t.entries, e.accountId = old.id then
        .error accountReferenced
      else .ok ⟨[.replaceAccount id row],
        [.account old.id, .accountName old.name, .account row.id, .accountName row.name],
        b.readClock⟩

def evalDeleteAccount (id : Uuid) : Except PgError DirectEffect :=
  match t.account? id with
  | none => .ok ⟨[], [], b⟩
  | some old =>
      if ∃ e ∈ t.entries, e.accountId = old.id then .error accountReferenced
      else .ok ⟨[.deleteAccount id], [.account old.id, .accountName old.name], b⟩

/-- The trigger runs for a row before it is changed. -/
def evalImmutable {ρ : Type} (table : String) (found : Option ρ) (change : ρ → Change)
    (claim : Claim) : Except PgError DirectEffect :=
  match found with
  | none => .ok ⟨[], [], b⟩
  | some old => do
      ledgerRejectImmutableChange table
      .ok ⟨[change old], [claim], b⟩

/-- Run one statement on what it sees of the tables. -/
def eval : Direct → Except PgError DirectEffect
  | .updateAccount id set => evalUpdateAccount env t b id set
  | .deleteAccount id => evalDeleteAccount t b id
  | .updateTransaction id set =>
      evalImmutable b "ledger_transactions" (t.transactions.find? (·.id = id))
        (fun old => .replaceTransaction id (set old)) (.transaction id)
  | .deleteTransaction id =>
      evalImmutable b "ledger_transactions" (t.transactions.find? (·.id = id))
        (fun _ => .deleteTransaction id) (.transaction id)
  | .updateEntry id set =>
      evalImmutable b "ledger_entries" (t.entries.find? (·.id = id))
        (fun old => .replaceEntry id (set old)) (.entry id)
  | .deleteEntry id =>
      evalImmutable b "ledger_entries" (t.entries.find? (·.id = id))
        (fun _ => .deleteEntry id) (.entry id)

variable {env t b}

/-- The `UPDATE` of the posting engine is one of these statements: it passes
the same trigger, and writes the same row. -/
theorem evalUpdateAccount_engine {balance : LedgerAmount} {version : Int64} {id : Uuid} :
    (Stmt.evalUpdateAccount env t b balance version id).map
        (fun effect => (effect.writes.map fun w => (Change.posting w).toAccounts, effect.backend)) =
      (evalUpdateAccount env t b id fun row => { row.columns with balance, version }).map
        fun effect => (effect.changes.map Change.toAccounts, effect.backend) := by
  unfold Stmt.evalUpdateAccount evalUpdateAccount
  cases hrow : t.account? id with
  | none => rfl
  | some row =>
      have hid := Tables.id_of_account? hrow
      dsimp only [ledgerAccountsBalanceGuard]
      cases balanceGuard b row balance version with
      | error e => rfl
      | ok u =>
          simp only [ok_bind, AccountRow.withBalance, AccountColumns.check, AccountRow.columns]
          by_cases hb : balance.asset = row.asset
          · by_cases hv : 0 ≤ version.toInt
            · simp [hb, hv, row.nameCheck, hid, Except.map, Change.toAccounts]
            · simp [hb, hv, row.nameCheck, Except.map]
          · simp [hb, Except.map]

end Direct

/-! ## transactions of clients -/

/-- The program, stopped by an error after `n` statements: a cancellation, a
timeout, or a deadlock. -/
def Spi.interrupt {α : Type} (e : PgError) : Nat → Spi α → Spi α
  | 0, .stmt _ _ => .fail e
  | n + 1, .stmt s k => .stmt s fun r => (k r).interrupt e n
  | _, program => program

/-- What a client sends.  Whether its role has the privilege for a direct
statement is left open, and so is whether a call is interrupted. -/
inductive Command where
  | savepoint (name : Str)
  | rollbackTo (name : Str)
  | release (name : Str)
  | call (made : Call) (interruption : Option (Nat × PgError))
  | direct (permitted : Bool) (statement : Direct)

def Command.program (crates : Crates) (made : Call) : Option (Nat × PgError) → Spi Uuid
  | none => made.program crates
  | some (n, e) => (made.program crates).interrupt e n

/-- A transaction that a client has planned.  It does not set
`pg_ledger.internal_posting`, and neither does the session it begins in. -/
structure Client where
  env : Env
  internalPosting : Option Str
  off : internalPosting ≠ some "on".toList
  script : List Command

/-- What a savepoint brings back: changes and claims made after it, and
settings, are undone. -/
structure Savepoint where
  name : Str
  changes : List Change
  internalPosting : Option Str
  claims : List Claim

/-- A transaction of a client: the commands to come, what is left of the call
that is running, what was done so far, and the savepoints, the innermost one
first.  After an error, `failed`, it is good only for going back. -/
structure ClientState where
  script : List Command
  call : Option (Spi Uuid)
  changes : List Change
  backend : Backend
  claims : List Claim
  saved : List Savepoint
  failed : Bool

def Client.start (c : Client) : ClientState where
  script := c.script
  call := none
  changes := []
  backend := ⟨c.internalPosting, 0, 0⟩
  claims := []
  saved := []
  failed := false

namespace ClientState

variable (crates : Crates) (env : Env) (h : Heap) (l : ClientState)

/-- Every statement sees what is committed and the changes of its own
transaction. -/
def view : Tables := (h.applyAll l.changes).tables

/-- Back to a savepoint, which stays. -/
def restore (s : Savepoint) (below : List Savepoint) : ClientState :=
  { l with
    call := none
    changes := s.changes
    backend := { l.backend with internalPosting := s.internalPosting }
    claims := s.claims
    saved := s :: below }

/-- An error undoes everything back to the innermost savepoint.  Without a
savepoint it is the end of the transaction. -/
def fail : Option ClientState :=
  match l.saved with
  | [] => none
  | s :: below => some { l.restore s below with failed := true }

/-- The savepoints from the last one with this name on. -/
def savedFrom (name : Str) : List Savepoint := l.saved.dropWhile (·.name ≠ name)

def advance {s : Stmt} (k : s.Result → Spi Uuid) (effect : Effect s.Result) : ClientState :=
  { l with
    call := some (k effect.result)
    changes := l.changes ++ effect.writes.map .posting
    backend := effect.backend
    claims := l.claims ++ (s.locks effect.result ++ effect.writes.flatMap (·.claims)) }

/-- The next statement of a call. -/
def nextOfCall : Spi Uuid → Option ClientState
  | .pure _ => some { l with call := none }
  | .fail _ => l.fail
  | .stmt s k =>
      match s.eval env (l.view h) l.backend with
      | .error _ => l.fail
      | .ok effect => some (l.advance k effect)

/-- A command of a transaction that has not failed. -/
def run : Command → Option ClientState
  | .savepoint name =>
      some { l with
        saved := ⟨name, l.changes, l.backend.internalPosting, l.claims⟩ :: l.saved }
  | .rollbackTo name =>
      match l.savedFrom name with
      | [] => l.fail
      | s :: below => some (l.restore s below)
  | .release name =>
      match l.savedFrom name with
      | [] => l.fail
      | _ :: below => some { l with saved := below }
  | .call made interruption =>
      some { l with call := some (Command.program crates made interruption) }
  | .direct permitted statement =>
      if permitted then
        match statement.eval env (l.view h) l.backend with
        | .error _ => l.fail
        | .ok effect => some { l with
            changes := l.changes ++ effect.changes
            backend := effect.backend
            claims := l.claims ++ effect.claims }
      else l.fail

/-- After an error every command but `ROLLBACK TO` is rejected. -/
def runFailed : Command → Option ClientState
  | .rollbackTo name =>
      match l.savedFrom name with
      | [] => some l
      | s :: below => some { l.restore s below with failed := false }
  | _ => some l

/-- The next statement of the call that is running, or the next command. -/
def next : Option ClientState :=
  match l.call, l.script with
  | some program, _ => l.nextOfCall env h program
  | none, [] => some l
  | none, command :: script =>
      if l.failed then { l with script }.runFailed command
      else { l with script }.run crates env h command

/-- A transaction that has failed cannot be committed. -/
def finished : Option (List Change) :=
  match l.call, l.script, l.failed with
  | none, [], false => some l.changes
  | _, _, _ => none

variable {env h l}

/-- Without savepoints and direct statements, a call goes on like a concurrent
call. -/
theorem nextOfCall_eq {program : Spi Uuid} {writes : List Write}
    (hrunning : ∀ id, program ≠ .pure id) (hsaved : l.saved = [])
    (hchanges : l.changes = writes.map .posting) :
    l.nextOfCall env h program =
      (LocalState.next env h.tables ⟨program, writes, l.backend, l.claims⟩).map fun l' =>
        { l with
          call := some l'.program
          changes := l'.writes.map .posting
          backend := l'.backend
          claims := l'.claims } := by
  have hview : l.view h = h.tables.applyAll writes := by
    rw [view, hchanges, Heap.tables_posting]
  cases program with
  | pure id => exact absurd rfl (hrunning id)
  | fail e => rw [nextOfCall, fail, hsaved, LocalState.next, Option.map_none]
  | stmt s k =>
      rw [nextOfCall, LocalState.next, hview]
      dsimp only
      cases s.eval env (h.tables.applyAll writes) l.backend with
      | error e => rw [fail, hsaved, Option.map_none]
      | ok effect =>
          simp only [Option.map_some, LocalState.advance, ClientState.advance, hchanges,
            List.map_append]

end ClientState

/-- Session `i` runs the transaction `clients i`; what it commits is the
changes it has made. -/
def guardedSessions {ι : Type} (crates : Crates) (clients : ι → Client) :
    Serial.System ι Heap ClientState Claim (List Change) where
  start i := (clients i).start
  next i h l := l.next crates (clients i).env h
  claims := (·.claims)
  finished := ClientState.finished
  publish h l := h.applyAll l.changes

end PgLedger
