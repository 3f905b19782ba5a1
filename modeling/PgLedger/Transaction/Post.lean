import PgLedger.Transaction.Loop

/-!
# PgLedger.Transaction.Post

The posting engine as a whole.  A call of `post` that succeeds was either
answered by the transaction that already holds its key, and then it has
changed nothing, or it has created a transaction: one row, one entry for
every posting, and the balances of the accounts they name (`Created`).

The policies are checked on balances that are computed before anything is
written.  `finalBalances_written` shows that these are the balances the loop
writes.
-/

namespace PgLedger

variable {crates : Crates} {env : Env} {t t' : Tables} {b b' : Backend}

/-! ## the entries of a transaction -/

/-- The entries are written when the accounts can be locked, the final balances
pass, and the loop goes through; the guard is open just for the loop. -/
theorem postEntries_run_iff {postings : List LedgerPosting} {transactionId id : Uuid}
    {createdAt : Timestamp} :
    (postEntries crates postings transactionId createdAt).run env t b = .ok (id, t', b') ↔
      ∃ accounts accounts' b₁, (lockAccounts postings).run env t b = .ok (accounts, t, b) ∧
        verifyFinalBalances crates postings accounts = .ok () ∧
        (postAll transactionId createdAt accounts postings).run env t
          { b with internalPosting := some "on".toList } = .ok (accounts', t', b₁) ∧
        id = transactionId ∧ b' = { b₁ with internalPosting := some "off".toList } := by
  simp only [postEntries]
  constructor
  · intro h
    obtain ⟨accounts, t₁, b₁, hlock, h₁⟩ := Spi.run_bind_eq_ok.mp h
    obtain ⟨rfl, rfl, -⟩ := lockAccounts_run_ok hlock
    obtain ⟨_, t₂, b₂, hverify, h₂⟩ := Spi.run_bind_eq_ok.mp h₁
    obtain ⟨hverified, rfl, rfl⟩ := Spi.run_ofExcept_eq_ok.mp hverify
    rw [Spi.run_bind, Spi.run_setInternalPosting, ok_bind] at h₂
    obtain ⟨accounts', t₃, b₃, hall, h₃⟩ := Spi.run_bind_eq_ok.mp h₂
    rw [Spi.run_bind, Spi.run_setInternalPosting, ok_bind] at h₃
    obtain ⟨rfl, rfl, rfl⟩ : transactionId = id ∧ t₃ = t' ∧ _ = b' := by simpa using h₃
    exact ⟨accounts, accounts', b₃, hlock, hverified, hall, rfl, rfl⟩
  · rintro ⟨accounts, accounts', b₁, hlock, hverify, hall, rfl, rfl⟩
    refine Spi.run_bind_eq_ok.mpr ⟨accounts, t, b, hlock, ?_⟩
    refine Spi.run_bind_eq_ok.mpr ⟨(), t, b, Spi.run_ofExcept_eq_ok.mpr ⟨hverify, rfl, rfl⟩, ?_⟩
    rw [Spi.run_bind, Spi.run_setInternalPosting, ok_bind]
    refine Spi.run_bind_eq_ok.mpr ⟨accounts', t', b₁, hall, ?_⟩
    rw [Spi.run_bind, Spi.run_setInternalPosting, ok_bind]
    rfl

/-- The locked accounts are the rows of the tables. -/
theorem tracks_of_lockAccounts {postings : List LedgerPosting} {accounts : AccountMap}
    (h : (lockAccounts postings).run env t b = .ok (accounts, t', b')) : Tracks accounts t := by
  obtain ⟨-, -, -, hlookup⟩ := lockAccounts_run_ok h
  intro id account haccount
  simp only [hlookup] at haccount
  split at haccount
  · exact Option.map_eq_some_iff.mp haccount
  · contradiction

theorem postEntries_run_ok {postings : List LedgerPosting} {transactionId id : Uuid}
    {createdAt : Timestamp} (hconstrained : t.Constrained)
    (h : (postEntries crates postings transactionId createdAt).run env t b = .ok (id, t', b')) :
    id = transactionId ∧ ∃ accounts accounts',
      (lockAccounts postings).run env t b = .ok (accounts, t, b) ∧
      verifyFinalBalances crates postings accounts = .ok () ∧
      PostRun t t' transactionId accounts accounts' postings := by
  obtain ⟨accounts, accounts', b₁, hlock, hverify, hall, hid, -⟩ := postEntries_run_iff.mp h
  exact ⟨hid, accounts, accounts', hlock, hverify,
    postAll_run_ok hconstrained (tracks_of_lockAccounts hlock) hall⟩

/-- A balance the loop leaves in the tables is the final balance that was
computed for it before. -/
theorem PostRun.balance_written {transactionId : Uuid} {accounts accounts' : AccountMap}
    {postings : List LedgerPosting} {balances : List (Uuid × LedgerAmount)}
    (h : PostRun t t' transactionId accounts accounts' postings)
    (hbalances : finalBalances crates postings accounts = .ok balances) {id : Uuid}
    {balance : LedgerAmount} (hlookup : balances.lookup id = some balance) :
    ∃ a account, t'.account? id = some a ∧ accounts.lookup id = some account ∧
      a.balance = balance ∧ a.balancePolicy = account.policy := by
  rw [(finalBalances_eq_ok hbalances).2, Option.map_eq_some_iff] at hlookup
  obtain ⟨account, haccount, rfl⟩ := hlookup
  have hmoved := h.balances id
  rw [haccount, Option.map_some, Option.map_eq_some_iff] at hmoved
  obtain ⟨account', haccount', hsame⟩ := hmoved
  obtain ⟨a, ha, rfl⟩ := h.tracks id account' haccount'
  obtain ⟨-, hpolicy, hbalance⟩ : _ ∧ a.balancePolicy = account.policy ∧ a.balance = _ := by
    simpa [AccountRow.state] using hsame
  exact ⟨a, account, ha, haccount, hbalance, hpolicy⟩

/-- The loop leaves every balance within its policy. -/
theorem PostRun.policiesHold {transactionId : Uuid} {accounts accounts' : AccountMap}
    {postings : List LedgerPosting} (h : PostRun t t' transactionId accounts accounts' postings)
    (hverify : verifyFinalBalances crates postings accounts = .ok ()) (hpolicies : t.PoliciesHold) :
    t'.PoliciesHold := by
  obtain ⟨balances, hbalances, hadmits⟩ := verifyFinalBalances_eq_ok hverify
  intro a ha
  have hfound := Tables.account?_of_mem h.constrained ha
  cases haccount : accounts.lookup a.id with
  | none =>
      rw [h.others a.id haccount] at hfound
      exact hpolicies a (Tables.mem_of_account? hfound)
  | some account =>
      have hlookup := (finalBalances_eq_ok hbalances).2 a.id
      rw [haccount, Option.map_some] at hlookup
      obtain ⟨a₁, account₁, ha₁, haccount₁, hbalance, hpolicy⟩ :=
        h.balance_written hbalances hlookup
      obtain rfl : a = a₁ := Option.some.inj (hfound.symm.trans ha₁)
      obtain rfl : account = account₁ := Option.some.inj (haccount.symm.trans haccount₁)
      rw [hpolicy, hbalance]
      exact hadmits a.id _ account hlookup haccount

/-- **The final balances**: whenever the entries of a transaction are written,
every locked account ends with the balance that was checked before. -/
def FinalBalancesWritten (crates : Crates) : Prop :=
  ∀ (env : Env) (t t' : Tables) (b b' : Backend) (postings : List LedgerPosting)
    (transactionId id : Uuid) (createdAt : Timestamp) (accounts : AccountMap),
    t.Constrained → (lockAccounts postings).run env t b = .ok (accounts, t, b) →
    (postEntries crates postings transactionId createdAt).run env t b = .ok (id, t', b') →
    ∃ balances, finalBalances crates postings accounts = .ok balances ∧
      balances.map Prod.fst = accounts.map Prod.fst ∧
      ∀ account balance, balances.lookup account = some balance →
        (t'.account? account).map (·.balance) = some balance

theorem finalBalances_written (crates : Crates) : FinalBalancesWritten crates := by
  intro env t t' b b' postings transactionId id createdAt accounts hconstrained hlock h
  obtain ⟨-, accounts₁, accounts', hlock₁, hverify, hrun⟩ := postEntries_run_ok hconstrained h
  obtain rfl : accounts = accounts₁ := by
    rw [hlock] at hlock₁
    exact (Prod.mk.inj (Except.ok.inj hlock₁)).1
  obtain ⟨balances, hbalances, -⟩ := verifyFinalBalances_eq_ok hverify
  have hkeys : balances.map Prod.fst = accounts.map Prod.fst := by
    rw [(addToBalances_eq_ok hbalances).2.1, List.map_map]
    rfl
  refine ⟨balances, hbalances, hkeys, fun account balance hlookup => ?_⟩
  obtain ⟨a, -, ha, -, hbalance, -⟩ := hrun.balance_written hbalances hlookup
  rw [ha, Option.map_some, hbalance]

/-! ## the transaction row -/

/-- A taken key is resolved by the transaction that holds it, if that carries
a fingerprint of the request. -/
theorem resolveConflict_run {hashes : PayloadHashes} {key : Str} {outcome : InsertOutcome} :
    (resolveConflict hashes (some key)).run env t b = .ok (outcome, t', b') ↔
      ∃ row, t.holder? key = some row ∧ hashes.accepts row.payloadHash ∧
        outcome = .replayed row.id ∧ t' = t ∧ b' = b := by
  rw [resolveConflict, Spi.run_bind, Spi.run_resolveKey, ok_bind]
  cases t.holder? key with
  | none => simp
  | some row =>
      dsimp only [Option.map_some]
      by_cases haccepts : hashes.accepts row.payloadHash
      · simp [haccepts, eq_comm]
      · simp [haccepts]

/-- Claiming a key that is taken adds nothing and asks its transaction. -/
theorem insertTransaction_run_taken {request : PostRequest} {createdAt : Timestamp}
    {outcome : InsertOutcome} (htaken : taken t.idempotencyKeys request.idempotencyKey = true) :
    (insertTransaction crates request createdAt).run env t b = .ok (outcome, t', b') ↔
      ∃ hashes key row, payloadHashes crates request = .ok hashes ∧
        request.idempotencyKey = some key ∧ t.holder? key = some row ∧
        hashes.accepts row.payloadHash ∧ outcome = .replayed row.id ∧ t' = t ∧
        b' = b.drawUuid := by
  have hinsert (hashes : PayloadHashes) :
      (Spi.send (.insertTransaction (request.values hashes createdAt))).run env t b =
        .ok (none, t, b.drawUuid) :=
    Spi.run_send_eq_ok.mpr ⟨[], Stmt.evalInsertTransaction_of_taken htaken, rfl⟩
  simp only [insertTransaction]
  constructor
  · intro h
    obtain ⟨hashes, t₁, b₁, hhash, h₁⟩ := Spi.run_bind_eq_ok.mp h
    obtain ⟨hhashes, rfl, rfl⟩ := Spi.run_ofExcept_eq_ok.mp hhash
    rw [Spi.run_bind, hinsert, ok_bind] at h₁
    cases hkey : request.idempotencyKey with
    | none =>
        simp only [hkey] at h₁
        contradiction
    | some key =>
        rw [hkey] at h₁
        obtain ⟨row, hrow, haccepts, rfl, rfl, rfl⟩ := resolveConflict_run.mp h₁
        exact ⟨hashes, key, row, hhashes, rfl, hrow, haccepts, rfl, rfl, rfl⟩
  · rintro ⟨hashes, key, row, hhashes, hkey, hrow, haccepts, rfl, rfl, rfl⟩
    refine Spi.run_bind_eq_ok.mpr ⟨hashes, _, b, Spi.run_ofExcept_eq_ok.mpr ⟨hhashes, rfl, rfl⟩, ?_⟩
    rw [Spi.run_bind, hinsert, ok_bind, hkey]
    exact resolveConflict_run.mpr ⟨row, hrow, haccepts, rfl, rfl, rfl⟩

/-- Claiming a key that is absent or unused adds the row. -/
theorem insertTransaction_run_free {request : PostRequest} {createdAt : Timestamp}
    {outcome : InsertOutcome} (hfree : taken t.idempotencyKeys request.idempotencyKey = false) :
    (insertTransaction crates request createdAt).run env t b = .ok (outcome, t', b') ↔
      ∃ hashes row, payloadHashes crates request = .ok hashes ∧
        row.toTransactionValues = request.values hashes createdAt ∧
        row.id = env.uuidv7 b.uuidsDrawn ∧ t.TakesTransaction row ∧ outcome = .created row.id ∧
        t' = t.apply (.insertTransaction row) ∧ b' = b.drawUuid := by
  simp only [insertTransaction]
  constructor
  · intro h
    obtain ⟨hashes, t₁, b₁, hhash, h₁⟩ := Spi.run_bind_eq_ok.mp h
    obtain ⟨hhashes, rfl, rfl⟩ := Spi.run_ofExcept_eq_ok.mp hhash
    obtain ⟨result, t₂, b₂, hsend, h₂⟩ := Spi.run_bind_eq_ok.mp h₁
    obtain ⟨ws, hinsert, rfl⟩ := Spi.run_send_eq_ok.mp hsend
    rcases Stmt.evalInsertTransaction_eq_ok hinsert with ⟨htaken, -⟩ |
      ⟨row, hvalues, hdrawn, htakes, heff⟩
    · have hkey : taken t₁.idempotencyKeys request.idempotencyKey = true := htaken
      rw [hfree] at hkey
      contradiction
    · obtain rfl : result = some row.id := congrArg Effect.result heff
      obtain rfl : ws = [.insertTransaction row] := congrArg Effect.writes heff
      obtain rfl : b₂ = b₁.drawUuid := congrArg Effect.backend heff
      obtain ⟨rfl, rfl, rfl⟩ : InsertOutcome.created row.id = outcome ∧ _ = t' ∧ _ = b' := by
        simpa using h₂
      exact ⟨hashes, row, hhashes, hvalues, hdrawn, htakes, rfl, rfl, rfl⟩
  · rintro ⟨hashes, row, hhashes, hvalues, hdrawn, htakes, rfl, rfl, rfl⟩
    refine Spi.run_bind_eq_ok.mpr ⟨hashes, t, b, Spi.run_ofExcept_eq_ok.mpr ⟨hhashes, rfl, rfl⟩, ?_⟩
    have hinsert := Stmt.evalInsertTransaction_of_takes hvalues hdrawn htakes
    exact Spi.run_bind_eq_ok.mpr ⟨some row.id, _, _, Spi.run_send_eq_ok.mpr ⟨_, hinsert, rfl⟩, rfl⟩

/-! ## the engine -/

/-- With a key that is absent or unused the call succeeds when the postings
are valid, the row can be added, and the entries can be written. -/
theorem post_run_free {request : PostRequest} {id : Uuid}
    (hfree : taken t.idempotencyKeys request.idempotencyKey = false) :
    (post crates request).run env t b = .ok (id, t', b') ↔
      validatePostings request.postings = .ok () ∧
      ∃ hashes row, payloadHashes crates request = .ok hashes ∧
        row.toTransactionValues = request.values hashes (env.clock b.clockReads) ∧
        row.id = env.uuidv7 b.uuidsDrawn ∧ t.TakesTransaction row ∧
        (postEntries crates request.postings row.id (env.clock b.clockReads)).run env
          (t.apply (.insertTransaction row)) b.readClock.drawUuid = .ok (id, t', b') := by
  simp only [post]
  constructor
  · intro h
    obtain ⟨_, t₁, b₁, hvalidate, h₁⟩ := Spi.run_bind_eq_ok.mp h
    obtain ⟨hvalidated, rfl, rfl⟩ := Spi.run_ofExcept_eq_ok.mp hvalidate
    rw [Spi.run_bind, Spi.run_clockTimestamp, ok_bind] at h₁
    obtain ⟨outcome, t₂, b₂, hinsert, h₂⟩ := Spi.run_bind_eq_ok.mp h₁
    obtain ⟨hashes, row, hhashes, hvalues, hdrawn, htakes, rfl, rfl, rfl⟩ :=
      (insertTransaction_run_free hfree).mp hinsert
    exact ⟨hvalidated, hashes, row, hhashes, hvalues, hdrawn, htakes, h₂⟩
  · rintro ⟨hvalidate, hashes, row, hhashes, hvalues, hdrawn, htakes, h⟩
    refine Spi.run_bind_eq_ok.mpr ⟨(), t, b, Spi.run_ofExcept_eq_ok.mpr ⟨hvalidate, rfl, rfl⟩, ?_⟩
    rw [Spi.run_bind, Spi.run_clockTimestamp, ok_bind]
    have hinsert : (insertTransaction crates request (env.clock b.clockReads)).run env t
        b.readClock = .ok (.created row.id, t.apply (.insertTransaction row), _) :=
      (insertTransaction_run_free hfree).mpr
        ⟨hashes, row, hhashes, hvalues, hdrawn, htakes, rfl, rfl, rfl⟩
    exact Spi.run_bind_eq_ok.mpr ⟨_, _, _, hinsert, h⟩

/-- With a key that is taken the call succeeds when the postings are valid and
the transaction with the key carries a fingerprint of the request; then it
changes nothing. -/
theorem post_run_taken {request : PostRequest} {id : Uuid}
    (htaken : taken t.idempotencyKeys request.idempotencyKey = true) :
    (post crates request).run env t b = .ok (id, t', b') ↔
      validatePostings request.postings = .ok () ∧
      ∃ hashes key row, payloadHashes crates request = .ok hashes ∧
        request.idempotencyKey = some key ∧ t.holder? key = some row ∧
        hashes.accepts row.payloadHash ∧ id = row.id ∧ t' = t ∧ b' = b.readClock.drawUuid := by
  simp only [post]
  constructor
  · intro h
    obtain ⟨_, t₁, b₁, hvalidate, h₁⟩ := Spi.run_bind_eq_ok.mp h
    obtain ⟨hvalidated, rfl, rfl⟩ := Spi.run_ofExcept_eq_ok.mp hvalidate
    rw [Spi.run_bind, Spi.run_clockTimestamp, ok_bind] at h₁
    obtain ⟨outcome, t₂, b₂, hinsert, h₂⟩ := Spi.run_bind_eq_ok.mp h₁
    obtain ⟨hashes, key, row, hhashes, hkey, hrow, haccepts, rfl, rfl, rfl⟩ :=
      (insertTransaction_run_taken htaken).mp hinsert
    obtain ⟨rfl, rfl, rfl⟩ : row.id = id ∧ t₂ = t' ∧ _ = b' := by simpa using h₂
    exact ⟨hvalidated, hashes, key, row, hhashes, hkey, hrow, haccepts, rfl, rfl, rfl⟩
  · rintro ⟨hvalidate, hashes, key, row, hhashes, hkey, hrow, haccepts, rfl, hsame, rfl⟩
    refine Spi.run_bind_eq_ok.mpr ⟨(), t, b, Spi.run_ofExcept_eq_ok.mpr ⟨hvalidate, rfl, rfl⟩, ?_⟩
    rw [Spi.run_bind, Spi.run_clockTimestamp, ok_bind, hsame]
    have hinsert : (insertTransaction crates request (env.clock b.clockReads)).run env t
        b.readClock = .ok (.replayed row.id, t, _) :=
      (insertTransaction_run_taken htaken).mpr
        ⟨hashes, key, row, hhashes, hkey, hrow, haccepts, rfl, rfl, rfl⟩
    exact Spi.run_bind_eq_ok.mpr ⟨_, _, _, hinsert, rfl⟩

/-- The call has created the transaction `row` for the request. -/
structure Created (crates : Crates) (t t' : Tables) (request : PostRequest)
    (hashes : PayloadHashes) (row : TransactionRow) : Prop where
  validated : validatePostings request.postings = .ok ()
  values : ∃ createdAt, row.toTransactionValues = request.values hashes createdAt
  takes : t.TakesTransaction row
  transactions : t'.transactions = t.transactions ++ [row]
  entries : ∃ es, t'.entries = t.entries ++ es ∧ es.map (·.posting) = request.postings ∧
    ∀ e ∈ es, e.transactionId = row.id
  constrained : t'.Constrained
  journaled : t.Journaled → t'.Journaled
  policiesHold : t.PoliciesHold → t'.PoliciesHold

namespace Created

variable {request : PostRequest} {hashes : PayloadHashes} {row : TransactionRow}

/-- A created transaction has the key of its request. -/
theorem key (h : Created crates t t' request hashes row) :
    row.idempotencyKey = request.idempotencyKey := by
  obtain ⟨createdAt, hvalues⟩ := h.values
  rw [hvalues]
  rfl

/-- A created transaction has the link of its request. -/
theorem link (h : Created crates t t' request hashes row) :
    row.reversesTransactionId = request.reversesTransactionId := by
  obtain ⟨createdAt, hvalues⟩ := h.values
  rw [hvalues]
  rfl

end Created

/-- The call was answered by the transaction that holds its key. -/
structure Replayed (t t' : Tables) (request : PostRequest) (hashes : PayloadHashes)
    (row : TransactionRow) : Prop where
  key : ∃ key, request.idempotencyKey = some key ∧
    t.holder? key = some row
  accepts : hashes.accepts row.payloadHash
  unchanged : t' = t

/-- A call that returns a new identifier has found its key absent or unused. -/
theorem Created.free {request : PostRequest} {hashes : PayloadHashes} {row : TransactionRow}
    (h : Created crates t t' request hashes row) :
    taken t.idempotencyKeys request.idempotencyKey = false := by
  rw [← h.key]
  exact h.takes.key

/-- **The engine**: a call that succeeds has created a transaction or was
answered by one, and returns its identifier. -/
theorem post_run_ok {request : PostRequest} {id : Uuid} (hconstrained : t.Constrained)
    (h : (post crates request).run env t b = .ok (id, t', b')) :
    ∃ hashes row, payloadHashes crates request = .ok hashes ∧ id = row.id ∧
      (Created crates t t' request hashes row ∨ Replayed t t' request hashes row) := by
  cases htaken : taken t.idempotencyKeys request.idempotencyKey with
  | true =>
      obtain ⟨-, hashes, key, row, hhashes, hkey, hrow, haccepts, rfl, rfl, -⟩ :=
        (post_run_taken htaken).mp h
      exact ⟨hashes, row, hhashes, rfl, .inr ⟨⟨key, hkey, hrow⟩, haccepts, rfl⟩⟩
  | false =>
      obtain ⟨hvalidated, hashes, row, hhashes, hvalues, -, htakes, hentries⟩ :=
        (post_run_free htaken).mp h
      have hinserted := hconstrained.insertTransaction htakes
      obtain ⟨rfl, accounts, accounts', -, hverify, hrun⟩ := postEntries_run_ok hinserted hentries
      refine ⟨hashes, row, hhashes, rfl, .inl ?_⟩
      exact {
        validated := hvalidated
        values := ⟨_, hvalues⟩
        takes := htakes
        transactions := hrun.transactions
        entries := hrun.entries
        constrained := hrun.constrained
        journaled := fun hjournaled => hrun.journaled fun a ha =>
          ⟨(hjournaled a ha).journal, (hjournaled a ha).assets⟩
        policiesHold := hrun.policiesHold hverify }

end PgLedger
