import PgLedger.Transaction.Accepts

/-!
# PgLedger.Reads

Reading the ledger: the functions and views that clients read it with, and the
forms of a posting that name an account instead of identifying it.

`Tables.Later` says what a later moment keeps of an earlier one.  Every event
leads to a later moment (`Event.later`), so what can be read at one moment can
be read at all later ones.
-/

namespace PgLedger

variable {crates : Crates}

/-! ## functions and views -/

/-- A row of the view `ledger_account_balances`. -/
structure AccountBalance where
  id : Uuid
  name : Str
  asset : LedgerAsset
  balance : LedgerAmount
  version : Int64
  balancePolicy : BalancePolicy
  updatedAt : Timestamp

def AccountRow.accountBalance (row : AccountRow) : AccountBalance := { row with }

/-- A row of the view `ledger_transaction_summary`. -/
structure TransactionSummary where
  id : Uuid
  createdAt : Timestamp
  eventAt : Timestamp
  reference : Option Str
  idempotencyKey : Option Str
  reversesTransactionId : Option Uuid
  metadata : Option Json
  entryCount : Nat

def TransactionRow.summary (row : TransactionRow) (entryCount : Nat) : TransactionSummary :=
  { row with entryCount }

namespace Tables

variable (t : Tables)

def ledgerAccountBalances : List AccountBalance := t.accounts.map (·.accountBalance)

def ledgerTransactionSummary : List TransactionSummary :=
  t.transactions.map fun row => row.summary (t.transactionEntries row.id).length

/-- `ledger_account(uuid)` -/
def ledgerAccount (accountId : Uuid) : Option AccountRow := t.account? accountId

/-- `ledger_account(text)` -/
def ledgerAccountNamed (accountName : Str) : Option AccountRow :=
  t.accounts.find? (·.name = accountName)

def ledgerBalance (accountId : Uuid) : Option LedgerAmount :=
  (t.account? accountId).map (·.balance)

def ledgerTransaction (transactionId : Uuid) : Option TransactionRow :=
  t.transactions.find? (·.id = transactionId)

/-- The rows that `ledger_entries` may return.  They are ordered by account;
which of two entries of one account comes first is not determined. -/
structure LedgerEntries (transactionId : Uuid) (es : List EntryRow) : Prop where
  rows : es.Perm (t.transactionEntries transactionId)
  order : es.Pairwise (·.accountId ≤ ·.accountId)

/-- `ledger_posting(text, ledger_amount)` -/
def ledgerPostingNamed (accountName : Str) (amount : LedgerAmount) :
    Except PgError LedgerPosting :=
  match t.ledgerAccountNamed accountName with
  | none => .error (failForeignKey ("ledger account " ++ String.ofList accountName ++
      " does not exist"))
  | some row => .ok ⟨row.id, amount⟩

/-- `ledger_entry(text, ledger_amount)` -/
def ledgerEntryNamed (accountName : Str) (amount : LedgerAmount) : Except PgError LedgerPosting :=
  t.ledgerPostingNamed accountName amount

end Tables

/-! ## later moments -/

/-- What stays of an account: all but its balance, its version, which does not
go down, and the time of the last update. -/
structure AccountRow.Kept (a a' : AccountRow) : Prop where
  id : a'.id = a.id
  values : a'.toAccountValues = { a.toAccountValues with balance := a'.balance }
  version : a.version.toInt ≤ a'.version.toInt
  createdAt : a'.createdAt = a.createdAt

/-- `u` keeps what `t` says: accounts are kept, transactions and entries are only
added, and no entries to the transactions of `t`.  The hash of a transaction
may take another format. -/
structure Tables.Later (t u : Tables) : Prop where
  accounts : ∀ a ∈ t.accounts, ∃ a' ∈ u.accounts, a.Kept a'
  transactions : t.transactions.map (·.summary 0) <+: u.transactions.map (·.summary 0)
  entries : ∃ es, u.entries = t.entries ++ es ∧ ∀ e ∈ es, e.transactionId ∉ t.transactionIds

theorem AccountRow.Kept.refl (a : AccountRow) : a.Kept a := ⟨rfl, rfl, le_rfl, rfl⟩

/-- What is kept twice is kept. -/
theorem AccountRow.Kept.trans {a a' a'' : AccountRow} (h : a.Kept a') (h' : a'.Kept a'') :
    a.Kept a'' where
  id := h'.id.trans h.id
  values := by rw [h'.values, h.values]
  version := h.version.trans h'.version
  createdAt := h'.createdAt.trans h.createdAt

/-- Postings keep all of an account but its balance, and do not lower its
version. -/
theorem AccountMoved.kept {postings : List LedgerPosting} {a a' : AccountRow}
    (h : AccountMoved postings a a') : a.Kept a' where
  id := h.id
  values := by rw [h.values]
  version := by
    rw [h.version]
    omega
  createdAt := h.createdAt

namespace Tables

variable {t u v : Tables}

theorem Later.refl (t : Tables) : t.Later t where
  accounts a ha := ⟨a, ha, .refl a⟩
  transactions := List.prefix_refl _
  entries := ⟨[], (List.append_nil _).symm, fun _ h => absurd h List.not_mem_nil⟩

/-- Transactions that were there are there later. -/
theorem Later.transactionIds (h : t.Later u) : t.transactionIds ⊆ u.transactionIds := by
  intro id hid
  obtain ⟨row, hrow, rfl⟩ := List.mem_map.mp hid
  have hsummary : row.summary 0 ∈ u.transactions.map (·.summary 0) :=
    h.transactions.subset (List.mem_map_of_mem hrow)
  obtain ⟨row', hrow', hsame⟩ := List.mem_map.mp hsummary
  exact List.mem_map.mpr ⟨row', hrow', congrArg TransactionSummary.id hsame⟩

/-- Later than a later moment is later. -/
theorem Later.trans (h : t.Later u) (h' : u.Later v) : t.Later v where
  accounts a ha := by
    obtain ⟨a', ha', hkept⟩ := h.accounts a ha
    obtain ⟨a'', ha'', hkept'⟩ := h'.accounts a' ha'
    exact ⟨a'', ha'', hkept.trans hkept'⟩
  transactions := h.transactions.trans h'.transactions
  entries := by
    obtain ⟨es, hes, hnew⟩ := h.entries
    obtain ⟨es', hes', hnew'⟩ := h'.entries
    refine ⟨es ++ es', by rw [hes', hes, List.append_assoc], fun e he => ?_⟩
    rcases List.mem_append.mp he with hold | hlast
    · exact hnew e hold
    · exact fun hid => hnew' e hlast (h.transactionIds hid)

/-- The entries of a transaction stay as they are. -/
theorem Later.transactionEntries (h : t.Later u) {id : Uuid} (hid : id ∈ t.transactionIds) :
    u.transactionEntries id = t.transactionEntries id := by
  obtain ⟨es, hes, hnew⟩ := h.entries
  have hnone : es.filter (fun e => e.transactionId = id) = [] := by
    rw [List.filter_eq_nil_iff]
    intro e he
    simp only [decide_eq_true_eq]
    rintro rfl
    exact hnew e he hid
  rw [Tables.transactionEntries, hes, List.filter_append, hnone, List.append_nil]
  rfl

/-- Nothing but accounts is new. -/
theorem Later.insertAccount (row : AccountRow) : t.Later (t.apply (.insertAccount row)) :=
  { Later.refl t with
    accounts := fun a ha => ⟨a, List.mem_append_left _ ha, .refl a⟩ }

end Tables

/-- A new transaction leads to a later moment. -/
theorem PostEffect.later {t t' : Tables} {request : PostRequest} {row : TransactionRow}
    (h : PostEffect crates t t' request row) (hnew : row.id ∉ t.transactionIds) : t.Later t' where
  accounts a ha := by
    obtain ⟨a', ha', hmoved⟩ := exists_of_forall₂ h.accounts ha
    exact ⟨a', ha', hmoved.kept⟩
  transactions := by
    rw [h.transactions, List.map_append]
    exact List.prefix_append _ _
  entries := by
    obtain ⟨es, hes, -, hwritten, -⟩ := h.entries
    refine ⟨es, hes, fun e he => ?_⟩
    rw [(hwritten e he).1]
    exact hnew

/-- What an event can have done. -/
inductive Event.Outcome (crates : Crates) (t : Tables) : Event → Tables → Prop where
  | nothing {event : Event} : Outcome crates t event t
  | unversioned {id : Uuid} {request : PostRequest} :
      Outcome crates t (.unversion id request) ((Event.unversion id request).after crates t)
  | opened {name : Str} {asset : LedgerAsset} {balancePolicy : BalancePolicy}
      {metadata : Option Json} {session : Session} {row : AccountRow} (hname : row.name = name)
      (h : (Call.createAccount name asset balancePolicy metadata).exec crates session t =
        .ok (row.id, t.apply (.insertAccount row))) :
      Outcome crates t (.call (.createAccount name asset balancePolicy metadata) session)
        (t.apply (.insertAccount row))
  | posted {call : PostingCall} {session : Session} {request : PostRequest}
      {row : TransactionRow} {t' : Tables} (h : PostEffect crates t t' request row)
      (hnew : row.id ∉ t.transactionIds) : Outcome crates t (.call (.posting call) session) t'

/-- In a sound ledger every event has one of these outcomes. -/
theorem Event.outcome {t : Tables} (hsound : t.Sound) (event : Event) :
    event.Outcome crates t (event.after crates t) := by
  cases event with
  | unversion id request => exact .unversioned
  | call made session =>
      rcases made.after_cases crates session t with hsame | ⟨id, hexec⟩
      · rw [after, hsame]
        exact .nothing
      · obtain ⟨b', hrun⟩ := Call.exec_eq_ok.mp hexec
        rw [after]
        cases made with
        | createAccount name asset balancePolicy metadata =>
            obtain ⟨ws, heval, heq⟩ := Spi.run_send_eq_ok.mp hrun
            obtain ⟨row, hvalues, -, -, -, heffect⟩ := Stmt.evalInsertAccount_eq_ok heval
            obtain rfl : id = row.id := congrArg Effect.result heffect
            obtain rfl : ws = [.insertAccount row] := congrArg Effect.writes heffect
            rw [heq] at hexec ⊢
            exact .opened (congrArg AccountValues.name hvalues) hexec
        | posting call =>
            rcases call.run_ok hrun with ⟨_, _, _, -, -, -, hsame⟩ | ⟨request, -, hpost⟩
            · rw [hsame]
              exact .nothing
            · obtain ⟨hashes, row, -, rfl, hcreated | hreplayed⟩ :=
                post_run_ok hsound.constrained hpost
              · obtain ⟨row', hid, heffect⟩ :=
                  post_run_effect hsound.constrained hpost hcreated.takes.id
                exact .posted heffect (hid ▸ hcreated.takes.id)
              · rw [hreplayed.unchanged]
                exact .nothing

/-- **The step lemma**: an event leads to a later moment. -/
theorem Event.later {t : Tables} (hsound : t.Sound) (event : Event) :
    t.Later (event.after crates t) := by
  have houtcome : event.Outcome crates t (event.after crates t) := event.outcome hsound
  generalize event.after crates t = t' at houtcome ⊢
  cases houtcome with
  | nothing => exact .refl t
  | @unversioned id request =>
      refine { Tables.Later.refl t with transactions := ?_ }
      show _ <+: (t.transactions.map (·.unversion crates id request)).map (·.summary 0)
      have hsame : (fun row : TransactionRow => (row.unversion crates id request).summary 0) =
          fun row => row.summary 0 := by
        funext row
        obtain ⟨hash, heq⟩ := row.unversion_eq crates id request
        rw [heq]
        rfl
      rw [List.map_map, Function.comp_def, hsame]
  | opened hname h => exact .insertAccount _
  | posted h hnew => exact h.later hnew

/-- **The run lemma**: so does a run. -/
theorem runLedger_later (crates : Crates) (events later : List Event) :
    (runLedger crates events).Later (runLedger crates (events ++ later)) := by
  rw [runLedger_append]
  have hsound := runLedger_sound crates events
  generalize runLedger crates events = t at hsound ⊢
  induction later generalizing t with
  | nil => exact .refl t
  | cons event later ih => exact (event.later hsound).trans (ih _ (event.sound hsound))

end PgLedger
