import PgLedger.Reversal

/-!
# PgLedger.Runs

Runs of the ledger: the calls clients can make, one after another, each in a
transaction of its own.  A call that fails is rolled back.  Every call comes
with its own session, so the clock, the drawn identifiers and the setting
that guards the balances are arbitrary.

A call is what the function behind the SQL interface receives: arguments that
are not optional in the source are given, and metadata is the value that the
`jsonb` argument has been decoded to.  Calls with `NULL` in place of such an
argument, or with metadata that cannot be decoded, are left out.

A run may also hold transactions that were written before fingerprints were
versioned: `Event.unversion` puts the older format in the place of the newer
one.
-/

namespace PgLedger

/-- The calls that post, with decoded arguments. -/
inductive PostingCall where
  | post (postings : List (Option LedgerPosting)) (options : PostOptions)
  | transfer (fromAccount toAccount : Uuid) (amount : LedgerAmount) (options : PostOptions)
  | reverse (transactionId : Uuid) (options : PostOptions)

/-- The calls that change the ledger, with decoded arguments. -/
inductive Call where
  | createAccount (name : Str) (asset : LedgerAsset) (balancePolicy : BalancePolicy)
      (metadata : Option Json)
  | posting (call : PostingCall)

/-- What a client brings along: its clock and identifiers, and the value of
`pg_ledger.internal_posting` when the call begins. -/
structure Session where
  env : Env
  internalPosting : Option Str

def Session.backend (session : Session) : Backend := ⟨session.internalPosting, 0, 0⟩

/-- `ledger_create_account` -/
def ledgerCreateAccount (name : Str) (asset : LedgerAsset) (balancePolicy : BalancePolicy)
    (metadata : Option Json) : Spi Uuid :=
  Spi.send (.insertAccount { name, asset, balance := .zero asset, balancePolicy, metadata })

section
variable (crates : Crates)

def PostingCall.program : PostingCall → Spi Uuid
  | .post postings options => ledgerPost crates postings options
  | .transfer fromAccount toAccount amount options =>
      ledgerTransfer crates fromAccount toAccount amount options
  | .reverse transactionId options => ledgerReverse crates transactionId options

def Call.program : Call → Spi Uuid
  | .createAccount name asset balancePolicy metadata =>
      ledgerCreateAccount name asset balancePolicy metadata
  | .posting call => call.program crates

/-- Run a call in a transaction of its own. -/
def Call.exec (call : Call) (session : Session) (t : Tables) : Except PgError (Uuid × Tables) :=
  ((call.program crates).run session.env t session.backend).map fun (id, t, _) => (id, t)

/-- The tables after a call: a failed call is rolled back. -/
def Call.after (call : Call) (session : Session) (t : Tables) : Tables :=
  match call.exec crates session t with
  | .ok (_, t') => t'
  | .error _ => t

/-- The row as it would have been written before fingerprints were versioned. -/
def TransactionRow.unversion (row : TransactionRow) (id : Uuid) (request : PostRequest) :
    TransactionRow :=
  match payloadHashes crates request with
  | .ok hashes =>
      if row.id = id ∧ row.payloadHash = hashes.current then
        { row with payloadHash := hashes.legacy }
      else row
  | .error _ => row

inductive Event where
  | call (made : Call) (session : Session)
  | unversion (id : Uuid) (request : PostRequest)

def Event.after (event : Event) (t : Tables) : Tables :=
  match event with
  | .call made session => made.after crates session t
  | .unversion id request =>
      { t with transactions := t.transactions.map (·.unversion crates id request) }

/-- The tables after a run from the empty ledger. -/
def runLedger (events : List Event) : Tables :=
  events.foldl (fun t event => event.after crates t) .empty

end

/-! ## induction on runs -/

variable {crates : Crates}

theorem runLedger_append (events events' : List Event) : runLedger crates (events ++ events') =
    events'.foldl (fun t event => event.after crates t) (runLedger crates events) :=
  List.foldl_append

/-- What holds of the empty ledger and is kept by every event holds of every
ledger that can be reached. -/
theorem runLedger_induction {P : Tables → Prop} (hempty : P .empty)
    (hstep : ∀ (t : Tables) (event : Event), P t → P (event.after crates t)) (events : List Event) :
    P (runLedger crates events) := by
  have hfold : ∀ t, P t → P (events.foldl (fun t event => event.after crates t) t) := by
    induction events with
    | nil => exact fun _ ht => ht
    | cons event events ih => exact fun t ht => ih _ (hstep t event ht)
  exact hfold _ hempty

theorem Call.exec_eq_ok {call : Call} {session : Session} {t t' : Tables} {id : Uuid} :
    call.exec crates session t = .ok (id, t') ↔
      ∃ b', (call.program crates).run session.env t session.backend = .ok (id, t', b') := by
  unfold exec
  cases (call.program crates).run session.env t session.backend with
  | error e => simp [Except.map]
  | ok result =>
      obtain ⟨id₁, t₁, b₁⟩ := result
      simp [Except.map]

/-- After a call the tables are as before, or as the successful call left them. -/
theorem Call.after_cases (crates : Crates) (call : Call) (session : Session) (t : Tables) :
    call.after crates session t = t ∨
      ∃ id, call.exec crates session t = .ok (id, call.after crates session t) := by
  cases h : call.exec crates session t with
  | error e =>
      left
      rw [after, h]
  | ok result =>
      right
      refine ⟨result.1, ?_⟩
      rw [after, h]

end PgLedger
