import PgLedger.Idempotency.ExactlyOnce
import PgLedger.Reads

/-!
# PgLedger.Reads.Properties

What readers can rely on.  What has been read of a transaction can be read of
it forever, and it is what was posted; every balance that an account has had
is the sum of its entries up to the version it had then; and a name denotes
the account that was created with it, at all times.
-/

namespace PgLedger

variable {crates : Crates} {t u : Tables}

/-! ## reading again -/

/-- What is read of `t` can be read of `u`. -/
structure Tables.ReadAgain (t u : Tables) : Prop where
  summaries : ∀ s ∈ t.ledgerTransactionSummary, s ∈ u.ledgerTransactionSummary
  transactions : ∀ id row, t.ledgerTransaction id = some row →
    ∃ row', u.ledgerTransaction id = some row' ∧
      row'.summary 0 = row.summary 0
  entries : ∀ id ∈ t.transactionIds, ∀ es, u.LedgerEntries id es ↔ t.LedgerEntries id es
  accounts : ∀ id a, t.ledgerAccount id = some a →
    ∃ a', u.ledgerAccount id = some a' ∧ u.ledgerAccountNamed a.name = some a' ∧ a.Kept a'
  balances : ∀ id a, t.ledgerAccount id = some a → t.ledgerBalance id =
    some ⟨a.asset, (((u.accountEntries id).filter
      (·.accountVersion.toInt ≤ a.version.toInt)).map (·.amount.units)).sum⟩

namespace Tables

/-- An account is found under its name. -/
theorem ledgerAccountNamed_of_mem (h : t.Constrained) {a : AccountRow} (ha : a ∈ t.accounts) :
    t.ledgerAccountNamed a.name = some a := by
  cases hfound : t.ledgerAccountNamed a.name with
  | none =>
      have hno := List.find?_eq_none.mp hfound a ha
      simp at hno
  | some a' =>
      have hmem := List.mem_of_find?_eq_some hfound
      have hname := List.find?_some hfound
      simp only [decide_eq_true_eq] at hname
      rw [List.inj_on_of_nodup_map h.accountNames hmem ha hname]

/-- A transaction is found under its identifier. -/
theorem ledgerTransaction_of_mem (h : t.Constrained) {row : TransactionRow}
    (hrow : row ∈ t.transactions) : t.ledgerTransaction row.id = some row := by
  cases hfound : t.ledgerTransaction row.id with
  | none =>
      have hno := List.find?_eq_none.mp hfound row hrow
      simp at hno
  | some row' =>
      have hmem := List.mem_of_find?_eq_some hfound
      have hid := List.find?_some hfound
      simp only [decide_eq_true_eq] at hid
      rw [List.inj_on_of_nodup_map h.transactionIds hmem hrow hid]

/-- The balance that an account has at a moment is the sum of its entries up to
its version, as they are listed then or later. -/
theorem Later.balance (h : t.Later u) (ht : t.Journaled) (hu : u.Sound) {a : AccountRow}
    (ha : a ∈ t.accounts) : a.balance = ⟨a.asset, (((u.accountEntries a.id).filter
      (·.accountVersion.toInt ≤ a.version.toInt)).map (·.amount.units)).sum⟩ := by
  obtain ⟨a', ha', hkept⟩ := h.accounts a ha
  have hlater := (hu.journaled a' ha').journal
  rw [hkept.id] at hlater
  have hsum : (((u.accountEntries a.id).filter
      (·.accountVersion.toInt ≤ a.version.toInt)).map (·.amount.units)).sum =
      Journal.upTo ((u.accountEntries a.id).map (·.movement)) a.version.toInt := by
    rw [Journal.upTo, List.filter_map, List.map_map]
    rfl
  have hnow := (ht a ha).journal
  refine amount_ext a.balanceCheck ?_
  rw [hsum]
  rcases a.versionCheck.eq_or_lt with hzero | hpos
  · rw [← hzero, hlater.upTo_zero]
    exact hnow.balance_eq_zero hzero.symm
  · have hversion : a.version.toInt ∈ ((t.accountEntries a.id).map (·.movement)).map (·.version) :=
      hnow.mem_versions.mpr ⟨hpos, le_rfl⟩
    obtain ⟨m, hm, hlast⟩ := List.mem_map.mp hversion
    obtain ⟨es, hes, -⟩ := h.entries
    have hkeptEntry : m ∈ (u.accountEntries a.id).map (·.movement) := by
      rw [accountEntries, hes, List.filter_append, List.map_append]
      exact List.mem_append_left _ hm
    rw [← hnow.balanceLast m hm hlast, hlater.current_eq_upTo hkeptEntry, hlast]

/-- What can be read can be read again later. -/
theorem Later.readAgain (h : t.Later u) (ht : t.Sound) (hu : u.Sound) : t.ReadAgain u := by
  have hmem {id : Uuid} {a : AccountRow} (ha : t.ledgerAccount id = some a) :
      a ∈ t.accounts ∧ a.id = id := ⟨mem_of_account? ha, id_of_account? ha⟩
  constructor
  · intro s hs
    obtain ⟨row, hrow, rfl⟩ := List.mem_map.mp hs
    have hkept : row.summary 0 ∈ u.transactions.map (·.summary 0) :=
      h.transactions.subset (List.mem_map_of_mem hrow)
    obtain ⟨row', hrow', hsame⟩ := List.mem_map.mp hkept
    refine List.mem_map.mpr ⟨row', hrow', ?_⟩
    have hid : row'.id = row.id := congrArg TransactionSummary.id hsame
    rw [hid, h.transactionEntries (List.mem_map_of_mem hrow)]
    have hcounted := congrArg (fun s : TransactionSummary =>
      { s with entryCount := (t.transactionEntries row.id).length }) hsame
    exact hcounted
  · intro id row hrow
    have hin := List.mem_of_find?_eq_some hrow
    have hid := List.find?_some hrow
    simp only [decide_eq_true_eq] at hid
    have hkept : row.summary 0 ∈ u.transactions.map (·.summary 0) :=
      h.transactions.subset (List.mem_map_of_mem hin)
    obtain ⟨row', hrow', hsame⟩ := List.mem_map.mp hkept
    have hid' : row'.id = row.id := congrArg TransactionSummary.id hsame
    refine ⟨row', ?_, hsame⟩
    rw [← hid, ← hid']
    exact ledgerTransaction_of_mem hu.constrained hrow'
  · intro id hid es
    have hsame := h.transactionEntries hid
    constructor
    · intro hes
      exact ⟨hsame ▸ hes.rows, hes.order⟩
    · intro hes
      exact ⟨hsame ▸ hes.rows, hes.order⟩
  · intro id a ha
    obtain ⟨hin, rfl⟩ := hmem ha
    obtain ⟨a', ha', hkept⟩ := h.accounts a hin
    have hname : a'.name = a.name := by rw [hkept.values]
    refine ⟨a', ?_, ?_, hkept⟩
    · rw [← hkept.id]
      exact account?_of_mem hu.constrained ha'
    · rw [← hname]
      exact ledgerAccountNamed_of_mem hu.constrained ha'
  · intro id a ha
    obtain ⟨hin, rfl⟩ := hmem ha
    have hbalance := h.balance ht.journaled hu hin
    rw [ledgerBalance, account?_of_mem ht.constrained hin, Option.map_some, hbalance]

end Tables

/-- **History**: whatever clients have read once they can read again at any
later moment of the run: transactions with their entries, accounts under their
identifiers and names, and, as the sum of the entries up to the version it
had, the balance of an account at any earlier moment. -/
theorem historyReadable (crates : Crates) (events later : List Event) :
    (runLedger crates events).ReadAgain (runLedger crates (events ++ later)) :=
  (runLedger_later crates events later).readAgain (runLedger_sound crates events)
    (runLedger_sound crates (events ++ later))

/-! ## reading what was posted -/

/-- The transaction can be read, and it is what the request says.  Its metadata
are those of the request, which has them decoded. -/
structure Tables.ReadsBack (t : Tables) (request : PostRequest) (id : Uuid)
    (createdAt : Timestamp) : Prop where
  summary :
    { id, createdAt, eventAt := request.eventAt.getD createdAt, reference := request.reference
      idempotencyKey := request.idempotencyKey
      reversesTransactionId := request.reversesTransactionId, metadata := request.metadata
      entryCount := request.postings.length } ∈ t.ledgerTransactionSummary
  entries : ∀ es, t.LedgerEntries id es → (es.map (·.posting)).Perm request.postings ∧
    ∀ e ∈ es, e.createdAt = createdAt

/-- A transaction can be read as soon as it is there. -/
theorem PostEffect.readsBack {request : PostRequest} {row : TransactionRow}
    (h : PostEffect crates t u request row) (ht : t.Constrained)
    (hnew : row.id ∉ t.transactionIds) : u.ReadsBack request row.id row.createdAt := by
  obtain ⟨es, hes, hmoves, hwritten, -⟩ := h.entries
  obtain ⟨hashes, createdAt, -, hvalues⟩ := h.values
  have hentries : u.transactionEntries row.id = es := by
    have hnone : t.entries.filter (fun e => e.transactionId = row.id) = [] := by
      rw [List.filter_eq_nil_iff]
      intro e he
      simp only [decide_eq_true_eq]
      intro heq
      exact hnew (heq ▸ ht.entryTransactions e he)
    have hall : es.filter (fun e => e.transactionId = row.id) = es := by
      rw [List.filter_eq_self]
      intro e he
      simpa using (hwritten e he).1
    rw [Tables.transactionEntries, hes, List.filter_append, hnone, hall, List.nil_append]
  constructor
  · refine List.mem_map.mpr ⟨row, ?_, ?_⟩
    · rw [h.transactions]
      exact List.mem_append_right _ (List.mem_singleton_self row)
    · rw [hentries, TransactionRow.summary, hvalues, ← hmoves, List.length_map]
      rfl
  · intro es' hes'
    have hperm := hes'.rows
    rw [hentries] at hperm
    refine ⟨?_, fun e he => (hwritten e (hperm.mem_iff.mp he)).2⟩
    rw [← hmoves]
    exact hperm.map _

/-- What can be read of a request can be read again. -/
theorem Tables.ReadsBack.again {request : PostRequest} {id : Uuid} {createdAt : Timestamp}
    (h : t.ReadsBack request id createdAt) (hagain : t.ReadAgain u) :
    u.ReadsBack request id createdAt where
  summary := hagain.summaries _ h.summary
  entries es hes := by
    obtain ⟨row, hrow, hsummary⟩ := List.mem_map.mp h.summary
    have hid : row.id = id := congrArg TransactionSummary.id hsummary
    exact h.entries es ((hagain.entries id (hid ▸ List.mem_map_of_mem hrow) es).mp hes)

/-- **Reading back**: what a call has posted under a new identifier can be read
under that identifier at any later moment of the run, with all that the request
gave, and its entries, in whatever order they come, are the postings of the
request. -/
theorem postedReadBack (events later : List Event) (call : PostingCall) (session : Session)
    (request : PostRequest) (id : Uuid) (t' : Tables)
    (hsends : call.Sends crates (runLedger crates events) request)
    (hexec : (Call.posting call).exec crates session (runLedger crates events) = .ok (id, t'))
    (hnew : id ∉ (runLedger crates events).transactionIds) :
    ∃ createdAt, (runLedger crates (events ++ .call (.posting call) session :: later)).ReadsBack
      request id createdAt := by
  have hsound := runLedger_sound crates events
  have hafter : runLedger crates (events ++ [.call (.posting call) session]) = t' := by
    rw [runLedger_append]
    show (Call.posting call).after crates session (runLedger crates events) = t'
    rw [Call.after, hexec]
  obtain ⟨b', hrun⟩ := Call.exec_eq_ok.mp hexec
  rcases call.run_ok hrun with ⟨_, _, row, -, hrow, rfl, -⟩ | ⟨request', hsends', hpost⟩
  · exact absurd (List.mem_map_of_mem (Tables.reversal?_eq_some hrow).1) hnew
  · obtain rfl := hsends.unique hsends'
    obtain ⟨row, rfl, heffect⟩ := post_run_effect hsound.constrained hpost hnew
    have hread := heffect.readsBack hsound.constrained hnew
    rw [← hafter] at hread
    have hlater := runLedger_later crates (events ++ [.call (.posting call) session]) later
    have hagain := hlater.readAgain (runLedger_sound crates _) (runLedger_sound crates _)
    rw [List.append_assoc] at hagain
    exact ⟨row.createdAt, hread.again hagain⟩

theorem postedReadBack_fixture : ∃ createdAt, (runLedger .concrete (fixtureAccounts ++
    .call (.posting fixtureTransfer) (fixtureSession 0x201) :: fixtureRun.drop 3)).ReadsBack
      (fixtureOptions.request (transferPostings 0x101#128 0x102#128 ⟨usd, 2500⟩)) 0x201#128
      createdAt := by
  obtain ⟨t', hexec⟩ : ∃ t', (Call.posting fixtureTransfer).exec .concrete (fixtureSession 0x201)
      (runLedger .concrete fixtureAccounts) = .ok (0x201#128, t') := ⟨_, rfl⟩
  exact postedReadBack fixtureAccounts (fixtureRun.drop 3) fixtureTransfer (fixtureSession 0x201)
    _ _ t' .transfer hexec List.not_mem_nil

/-! ## names -/

section
variable (crates : Crates)

/-- A call of the run has created the account. -/
def Opens (events : List Event) (name : Str) (id : Uuid) : Prop :=
  ∃ before later asset balancePolicy metadata session t',
    events = before ++ .call (.createAccount name asset balancePolicy metadata) session :: later ∧
    (Call.createAccount name asset balancePolicy metadata).exec crates session
      (runLedger crates before) = .ok (id, t')

/-- `SELECT ledger_post(ARRAY[ledger_posting(name, amount), …], …)`: the names are
looked up before the call begins. -/
def ledgerPostNamed (t : Tables) (lines : List (Str × LedgerAmount)) (options : PostOptions)
    (session : Session) : Except PgError (Uuid × Tables) := do
  let postings ← lines.mapM fun line => t.ledgerPostingNamed line.1 line.2
  (Call.posting (.post (postings.map some) options)).exec crates session t

end

theorem Opens.more {events : List Event} {name : Str} {id : Uuid} (h : Opens crates events name id)
    (later : List Event) : Opens crates (events ++ later) name id := by
  obtain ⟨before, after, asset, balancePolicy, metadata, session, t', rfl, hexec⟩ := h
  exact ⟨before, after ++ later, asset, balancePolicy, metadata, session, t',
    by rw [List.append_assoc, List.cons_append], hexec⟩

/-- An account after an event was there before, or the event has created it. -/
theorem Event.Outcome.account {event : Event} (h : event.Outcome crates t u) {a' : AccountRow}
    (ha' : a' ∈ u.accounts) : (∃ a ∈ t.accounts, a.Kept a') ∨
      ∃ asset balancePolicy metadata session,
        event = .call (.createAccount a'.name asset balancePolicy metadata) session ∧
        (Call.createAccount a'.name asset balancePolicy metadata).exec crates session t =
          .ok (a'.id, u) := by
  cases h with
  | nothing => exact .inl ⟨a', ha', .refl a'⟩
  | unversioned => exact .inl ⟨a', ha', .refl a'⟩
  | @opened name asset balancePolicy metadata session row hname hexec =>
      rcases List.mem_append.mp ha' with hold | hnew
      · exact .inl ⟨a', hold, .refl a'⟩
      · obtain rfl := List.mem_singleton.mp hnew
        subst hname
        exact .inr ⟨asset, balancePolicy, metadata, session, rfl, hexec⟩
  | posted heffect hnew =>
      obtain ⟨a, ha, hmoved⟩ := exists_of_forall₂ heffect.accounts.flip ha'
      have hmoved : AccountMoved _ a a' := hmoved
      exact .inl ⟨a, ha, hmoved.kept⟩

/-- Every account of a run was created by one of its calls. -/
theorem opens_of_mem (events : List Event) {a : AccountRow}
    (ha : a ∈ (runLedger crates events).accounts) : Opens crates events a.name a.id := by
  induction events using List.reverseRecOn generalizing a with
  | nil => exact absurd ha List.not_mem_nil
  | append_singleton events event ih =>
      have hafter : runLedger crates (events ++ [event]) =
          event.after crates (runLedger crates events) := runLedger_append events [event]
      have houtcome : event.Outcome crates _ _ := event.outcome (runLedger_sound crates events)
      rw [hafter] at ha
      rcases houtcome.account ha with ⟨old, hold, hkept⟩ |
        ⟨asset, balancePolicy, metadata, session, rfl, hexec⟩
      · have hname : a.name = old.name := by rw [hkept.values]
        rw [hname, hkept.id]
        exact (ih hold).more [event]
      · exact ⟨events, [], asset, balancePolicy, metadata, session, _, rfl, hexec⟩

/-- An account that was created is found under its name ever after. -/
theorem Opens.mem {events : List Event} {name : Str} {id : Uuid}
    (h : Opens crates events name id) :
    ∃ a ∈ (runLedger crates events).accounts, a.name = name ∧ a.id = id := by
  obtain ⟨before, later, asset, balancePolicy, metadata, session, t', rfl, hexec⟩ := h
  obtain ⟨b', hrun⟩ := Call.exec_eq_ok.mp hexec
  obtain ⟨ws, heval, rfl⟩ := Spi.run_send_eq_ok.mp hrun
  obtain ⟨row, hvalues, -, -, -, heffect⟩ := Stmt.evalInsertAccount_eq_ok heval
  obtain rfl : id = row.id := congrArg Effect.result heffect
  obtain rfl : ws = [.insertAccount row] := congrArg Effect.writes heffect
  have hafter : runLedger crates
      (before ++ [.call (.createAccount name asset balancePolicy metadata) session]) =
        (runLedger crates before).applyAll [.insertAccount row] := by
    rw [runLedger_append]
    show (Call.createAccount name asset balancePolicy metadata).after crates session
      (runLedger crates before) = _
    rw [Call.after, hexec]
  have hlater := runLedger_later crates
    (before ++ [.call (.createAccount name asset balancePolicy metadata) session]) later
  rw [hafter, List.append_assoc] at hlater
  obtain ⟨a, ha, hkept⟩ :=
    hlater.accounts row (List.mem_append_right _ (List.mem_singleton_self row))
  have hname : row.name = name := congrArg AccountValues.name hvalues
  refine ⟨a, ha, ?_, hkept.id⟩
  rw [hkept.values, ← hname]

/-- A name stands for the account that has it. -/
theorem Tables.ledgerPostingNamed_eq_ok (h : t.Constrained) {name : Str} {amount : LedgerAmount}
    {posting : LedgerPosting} : t.ledgerPostingNamed name amount = .ok posting ↔
      ∃ a ∈ t.accounts, a.name = name ∧ posting = ⟨a.id, amount⟩ := by
  constructor
  · intro hok
    rw [ledgerPostingNamed] at hok
    split at hok
    · contradiction
    · next row hrow =>
      have hname := List.find?_some hrow
      simp only [decide_eq_true_eq] at hname
      exact ⟨row, List.mem_of_find?_eq_some hrow, hname, (Except.ok.inj hok).symm⟩
  · intro hfound
    obtain ⟨a, ha, rfl, rfl⟩ := hfound
    rw [ledgerPostingNamed, ledgerAccountNamed_of_mem h ha]

/-- What the names of a run denote. -/
structure NamesDenote (crates : Crates) (events : List Event) : Prop where
  found : ∀ name id amount, (runLedger crates events).ledgerPostingNamed name amount =
    .ok ⟨id, amount⟩ ↔ Opens crates events name id
  missing : ∀ name amount, (runLedger crates events).ledgerPostingNamed name amount =
    .error (failForeignKey ("ledger account " ++ String.ofList name ++ " does not exist")) ↔
      ∀ id, ¬ Opens crates events name id
  once : ∀ name id id', Opens crates events name id → Opens crates events name id' → id = id'
  posting : ∀ (lines : List (Str × LedgerPosting)) options session,
    (∀ line ∈ lines, Opens crates events line.1 line.2.accountId) →
    ledgerPostNamed crates (runLedger crates events)
        (lines.map fun line => (line.1, line.2.amount)) options session =
      (Call.posting (.post (lines.map fun line => some line.2) options)).exec crates session
        (runLedger crates events)

/-- **Names**: a name denotes an account exactly when a call of the run has
created the account with it, and no other account ever; so posting by names is
posting by identifiers. -/
theorem namesDenote (crates : Crates) (events : List Event) : NamesDenote crates events := by
  have hconstrained := (runLedger_sound crates events).constrained
  have hfound (name : Str) (id : Uuid) (amount : LedgerAmount) :
      (runLedger crates events).ledgerPostingNamed name amount = .ok ⟨id, amount⟩ ↔
        Opens crates events name id := by
    rw [Tables.ledgerPostingNamed_eq_ok hconstrained]
    constructor
    · intro hfound
      obtain ⟨a, ha, rfl, hid⟩ := hfound
      rw [(LedgerPosting.mk.inj hid).1]
      exact opens_of_mem events ha
    · intro hopens
      obtain ⟨a, ha, hname, rfl⟩ := hopens.mem
      exact ⟨a, ha, hname, rfl⟩
  refine ⟨hfound, fun name amount => ?_, fun name id id' h h' => ?_,
    fun lines options session hlines => ?_⟩
  · constructor
    · intro herror id hopens
      rw [(hfound name id amount).mpr hopens] at herror
      contradiction
    · intro hnone
      cases hlookup : (runLedger crates events).ledgerAccountNamed name with
      | none => rw [Tables.ledgerPostingNamed, hlookup]
      | some row =>
          refine absurd ((hfound name row.id amount).mp ?_) (hnone row.id)
          rw [Tables.ledgerPostingNamed, hlookup]
  · have hsame := ((hfound name id (.zero usd)).mpr h).symm.trans
      ((hfound name id' (.zero usd)).mpr h')
    exact (LedgerPosting.mk.inj (Except.ok.inj hsame)).1
  · have hpostings : (lines.map fun line => (line.1, line.2.amount)).mapM
        (fun line => (runLedger crates events).ledgerPostingNamed line.1 line.2) =
          .ok (lines.map (·.2)) := by
      rw [List.mapM_map]
      exact mapM_ok fun line hline => (hfound line.1 line.2.accountId line.2.amount).mpr
        (hlines line hline)
    rw [ledgerPostNamed, hpostings, ok_bind, List.map_map]
    rfl

end PgLedger
