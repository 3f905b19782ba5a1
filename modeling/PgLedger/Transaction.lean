import Mathlib.Order.WithBot
import PgLedger.Assoc
import PgLedger.Idempotency

/-!
# PgLedger.Transaction

The posting engine.  `post` validates the postings, claims the idempotency
key by inserting the transaction row, locks the accounts, computes their
final balances in memory to check the policies, and then writes one account
update and one entry for every posting.  `ledgerPost` and `ledgerTransfer`
are its two callers here; the third is `PgLedger.Reversal`.
-/

namespace PgLedger

/-! ## validation -/

def AssetKind.rank : AssetKind → Nat
  | .fiat => 0
  | .crypto => 1

/-- The derived order of assets: by field, in the order of their declaration. -/
def LedgerAsset.orderKey (asset : LedgerAsset) : Nat ×ₗ Nat ×ₗ Str ×ₗ WithBot Str ×ₗ Nat :=
  toLex (asset.version.toNat, toLex (asset.kind.rank, toLex (asset.symbol,
    toLex (asset.network, asset.scale.toNat))))

/-- Add a posting to the net units of its asset. -/
def addPosting (totals : List (LedgerAsset × Int)) (posting : LedgerPosting) :
    Except PgError (List (LedgerAsset × Int)) :=
  if posting.amount.units = 0 then
    .error (failParameter "ledger postings cannot have zero amounts")
  else .ok (Assoc.addTotal (fun p : LedgerPosting => p.amount.asset) (fun p => p.amount.units)
    totals posting)

def validatePostings (postings : List LedgerPosting) : Except PgError Unit :=
  if postings.length < 2 then
    .error (failParameter "a ledger transaction requires at least two postings")
  else do
    let totals ← postings.foldlM addPosting []
    let ordered := totals.insertionSort fun d e => d.1.orderKey ≤ e.1.orderKey
    match ordered.find? fun e => e.2 ≠ 0 with
    | some (asset, total) => .error (failCheck ("transaction is not balanced for asset " ++
        String.ofList asset.canonical ++ " (net units: " ++ toString total ++ ")"))
    | none => .ok ()

/-! ## accounts -/

structure AccountState where
  asset : LedgerAsset
  balance : LedgerAmount
  version : Int64
  policy : BalancePolicy

abbrev AccountMap := List (Uuid × AccountState)

def AccountRow.state (row : AccountRow) : AccountState :=
  ⟨row.asset, row.balance, row.version, row.balancePolicy⟩

/-- The distinct accounts of the postings, in the order they are locked. -/
def accountIds (postings : List LedgerPosting) : List Uuid :=
  (postings.map (·.accountId)).dedup.insertionSort (· ≤ ·)

/-- `SELECT … WHERE id = ANY($1) ORDER BY id FOR UPDATE`: the rows that exist,
each locked before the next one is looked at. -/
def selectForUpdate : List Uuid → Spi (List AccountRow)
  | [] => pure []
  | id :: ids => do
      let row ← Spi.send (.lockAccount id)
      let rows ← selectForUpdate ids
      pure (row.toList ++ rows)

def lockAccounts (postings : List LedgerPosting) : Spi AccountMap := do
  let rows ← selectForUpdate (accountIds postings)
  if rows.length ≠ (accountIds postings).length then
    Spi.fail (failForeignKey "one or more posting accounts do not exist")
  else pure (rows.map fun row => (row.id, row.state))

/-! ## final balances -/

/-- Add a posting to the balance of its account, as it will be. -/
def addToBalance (crates : Crates) (accounts : AccountMap) (balances : List (Uuid × LedgerAmount))
    (posting : LedgerPosting) : Except PgError (List (Uuid × LedgerAmount)) :=
  match accounts.lookup posting.accountId, balances.lookup posting.accountId with
  | none, _ => .error (failInternal "posting account was not locked")
  | some account, balance =>
      if posting.amount.asset ≠ account.asset then
        .error (failParameter ("posting asset " ++ String.ofList posting.amount.asset.canonical ++
          " does not match account " ++
          String.ofList (crates.uuidToString posting.accountId) ++ " asset " ++
          String.ofList account.asset.canonical))
      else match balance with
        | none => .error (failInternal "posting account has no final balance")
        | some balance => do
            let balance ← (balance.checkedAdd posting.amount).mapError failParameter
            .ok (Assoc.modify balances posting.accountId fun _ => balance)

def finalBalances (crates : Crates) (postings : List LedgerPosting) (accounts : AccountMap) :
    Except PgError (List (Uuid × LedgerAmount)) :=
  postings.foldlM (addToBalance crates accounts)
    (accounts.map fun e => (e.1, e.2.balance))

/-- A policy admits a balance. -/
def BalancePolicy.Admits : BalancePolicy → Int → Prop
  | .any, _ => True
  | .nonNegative, units => 0 ≤ units
  | .nonPositive, units => units ≤ 0
  | .zero, units => units = 0

instance (policy : BalancePolicy) (units : Int) : Decidable (policy.Admits units) := by
  cases policy <;> unfold BalancePolicy.Admits <;> infer_instance

/-- `Debug` of a policy. -/
def BalancePolicy.name : BalancePolicy → String
  | .any => "ANY"
  | .nonNegative => "NON_NEGATIVE"
  | .nonPositive => "NON_POSITIVE"
  | .zero => "ZERO"

def checkPolicy (crates : Crates) (accounts : AccountMap) (e : Uuid × LedgerAmount) :
    Except PgError Unit :=
  match accounts.lookup e.1 with
  | none => .error (failInternal "account policy is missing")
  | some account =>
      if account.policy.Admits e.2.units then .ok ()
      else .error (failCheck ("posting violates " ++ account.policy.name ++
        " balance policy for account " ++ String.ofList (crates.uuidToString e.1)))

/-- The source walks the balances in the order of a hash map; which of two
violations is reported is not determined. -/
def verifyFinalBalances (crates : Crates) (postings : List LedgerPosting) (accounts : AccountMap) :
    Except PgError Unit := do
  let balances ← finalBalances crates postings accounts
  balances.forM (checkPolicy crates accounts)

/-! ## the transaction row -/

inductive InsertOutcome where
  | created (id : Uuid)
  | replayed (id : Uuid)

/-- Whether the stored fingerprint is one of the two of the request. -/
def PayloadHashes.accepts (hashes : PayloadHashes) (existing : Str) : Prop :=
  existing = hashes.current ∨ existing = hashes.legacy

instance (hashes : PayloadHashes) (existing : Str) : Decidable (hashes.accepts existing) := by
  unfold PayloadHashes.accepts; infer_instance

def PostRequest.values (request : PostRequest) (hashes : PayloadHashes) (createdAt : Timestamp) :
    TransactionValues where
  eventAt := request.eventAt.getD createdAt
  reference := request.reference
  idempotencyKey := request.idempotencyKey
  payloadHash := hashes.current
  reversesTransactionId := request.reversesTransactionId
  metadata := request.metadata
  createdAt := createdAt

/-- The insert returned no row: the key is taken. -/
def resolveConflict (hashes : PayloadHashes) : Option Str → Spi InsertOutcome
  | none => Spi.fail
      (failInternal "transaction insert returned no row without an idempotency key")
  | some key => do
      match ← Spi.send (.resolveKey key) with
      | none => Spi.fail (failSerialization "could not resolve idempotency key conflict")
      | some (id, existingHash) =>
          if hashes.accepts existingHash then pure (.replayed id)
          else Spi.fail (failParameter
            "idempotency key was already used with a different ledger transaction")

def insertTransaction (crates : Crates) (request : PostRequest) (createdAt : Timestamp) :
    Spi InsertOutcome := do
  let hashes ← Spi.ofExcept (payloadHashes crates request)
  match ← Spi.send (.insertTransaction (request.values hashes createdAt)) with
  | some id => pure (.created id)
  | none => resolveConflict hashes request.idempotencyKey

/-! ## posting -/

/-- One turn of the posting loop. -/
def postOne (transactionId : Uuid) (createdAt : Timestamp) (accounts : AccountMap)
    (posting : LedgerPosting) : Spi AccountMap :=
  match accounts.lookup posting.accountId with
  | none => Spi.fail (failInternal "posting account was not locked")
  | some account => do
      let current ← Spi.ofExcept
        ((account.balance.checkedAdd posting.amount).mapError failParameter)
      let account' := { account with version := account.version + 1, balance := current }
      Spi.send (.updateAccount current account'.version posting.accountId)
      Spi.send (.insertEntry
        { transactionId, accountId := posting.accountId, amount := posting.amount,
          accountVersion := account'.version, previousBalance := account.balance,
          currentBalance := current, createdAt })
      pure (Assoc.modify accounts posting.accountId fun _ => account')

def postAll (transactionId : Uuid) (createdAt : Timestamp) :
    AccountMap → List LedgerPosting → Spi AccountMap
  | accounts, [] => pure accounts
  | accounts, posting :: postings => do
      let accounts ← postOne transactionId createdAt accounts posting
      postAll transactionId createdAt accounts postings

/-- What `post` does once the transaction row is its own. -/
def postEntries (crates : Crates) (postings : List LedgerPosting) (transactionId : Uuid)
    (createdAt : Timestamp) : Spi Uuid := do
  let accounts ← lockAccounts postings
  Spi.ofExcept (verifyFinalBalances crates postings accounts)
  Spi.send (.setInternalPosting "on".toList)
  let _ ← postAll transactionId createdAt accounts postings
  Spi.send (.setInternalPosting "off".toList)
  pure transactionId

def post (crates : Crates) (request : PostRequest) : Spi Uuid := do
  Spi.ofExcept (validatePostings request.postings)
  let createdAt ← Spi.send .clockTimestamp
  match ← insertTransaction crates request createdAt with
  | .replayed id => pure id
  | .created id => postEntries crates request.postings id createdAt

/-! ## the SQL functions -/

/-- The arguments that every posting function shares. -/
structure PostOptions where
  reference : Option Str
  idempotencyKey : Option Str
  eventAt : Option Timestamp
  metadata : Option Json

/-- The elements of an array of postings, none of which may be `NULL`. -/
def requirePostings (postings : List (Option LedgerPosting)) :
    Except PgError (List LedgerPosting) :=
  postings.mapM fun posting => match posting with
    | some posting => .ok posting
    | none => .error (failNull "ledger postings cannot contain NULL")

def PostOptions.request (options : PostOptions) (postings : List LedgerPosting) : PostRequest :=
  { options with postings, reversesTransactionId := none }

/-- `ledger_post` -/
def ledgerPost (crates : Crates) (postings : List (Option LedgerPosting)) (options : PostOptions) :
    Spi Uuid := do
  let postings ← Spi.ofExcept (requirePostings postings)
  post crates (options.request postings)

/-- The two postings of a transfer. -/
def transferPostings (fromAccount toAccount : Uuid) (amount : LedgerAmount) : List LedgerPosting :=
  [⟨fromAccount, amount.negate⟩, ⟨toAccount, amount⟩]

/-- `ledger_transfer` -/
def ledgerTransfer (crates : Crates) (fromAccount toAccount : Uuid) (amount : LedgerAmount)
    (options : PostOptions) : Spi Uuid :=
  if fromAccount = toAccount then
    Spi.fail (failParameter "transfer accounts must be distinct")
  else if amount.units ≤ 0 then
    Spi.fail (failParameter "transfer amount must be positive")
  else post crates (options.request (transferPostings fromAccount toAccount amount))

end PgLedger
