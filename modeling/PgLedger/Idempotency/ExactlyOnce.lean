import PgLedger.Reversal.Exact

/-!
# PgLedger.Idempotency.ExactlyOnce

Exactly-once execution under an idempotency key.  While no transaction holds
the key, a call with it either fails and leaves everything as it was, or it
creates the one transaction that will hold the key from then on.  From there
on no call with the key changes anything: it returns the transaction if its
fingerprint is the stored one, and fails if it is not.

That a failure does not spend the key is more than the rollback: whatever
the engine would accept without a key, it accepts with an unused one
(`post_run_withKey`), because nothing it does after claiming the key looks at
keys again.
-/

namespace PgLedger

variable {crates : Crates} {env : Env} {t t' u : Tables} {b b' : Backend}

/-! ## after the key is claimed -/

/-- The statements that write the entries of a transaction. -/
def Stmt.WritesEntries : Stmt → Prop
  | .lockAccount _ => True
  | .setInternalPosting _ => True
  | .updateAccount _ _ _ => True
  | .insertEntry _ => True
  | _ => False

/-- The tables differ at most in what transaction rows hold besides their
identifiers. -/
structure Tables.SameEntries (t u : Tables) : Prop where
  accounts : t.accounts = u.accounts
  transactionIds : t.transactionIds = u.transactionIds
  entries : t.entries = u.entries

/-- The same write keeps the entries the same. -/
theorem Tables.SameEntries.apply (h : t.SameEntries u) (w : Write) :
    (t.apply w).SameEntries (u.apply w) := by
  obtain ⟨haccounts, hids, hentries⟩ := h
  cases w with
  | insertAccount row =>
      exact ⟨by simp only [Tables.apply, haccounts], hids, hentries⟩
  | updateAccount row =>
      exact ⟨by simp only [Tables.apply, haccounts], hids, hentries⟩
  | insertTransaction row =>
      exact ⟨haccounts, by simp only [transactionIds_insertTransaction, hids], hentries⟩
  | insertEntry row =>
      exact ⟨haccounts, hids, by simp only [Tables.apply, hentries]⟩

/-- The same writes keep the entries the same. -/
theorem Tables.SameEntries.applyAll (h : t.SameEntries u) (ws : List Write) :
    (t.applyAll ws).SameEntries (u.applyAll ws) := by
  induction ws generalizing t u with
  | nil => exact h
  | cons w ws ih => exact ih (h.apply w)

/-- The statements that write entries look at accounts and entries only. -/
theorem Stmt.WritesEntries.eval_eq {s : Stmt} (hs : s.WritesEntries) (h : t.SameEntries u) :
    s.eval env u b = s.eval env t b := by
  obtain ⟨haccounts, hids, hentries⟩ := h
  cases s with
  | lockAccount id => simp only [eval, Tables.account?, haccounts]
  | setInternalPosting value => rfl
  | updateAccount balance version id =>
      simp only [eval, evalUpdateAccount, Tables.account?, haccounts]
  | insertEntry v =>
      have hentryIds : u.entryIds = t.entryIds := by rw [Tables.entryIds, Tables.entryIds, hentries]
      have hversions : u.entryVersions = t.entryVersions := by
        rw [Tables.entryVersions, Tables.entryVersions, hentries]
      have haccountIds : u.accountIds = t.accountIds := by
        rw [Tables.accountIds, Tables.accountIds, haccounts]
      rw [eval, eval, evalInsertEntry, evalInsertEntry, hentryIds, hversions, haccountIds, hids]
  | clockTimestamp | lockTransaction id | findReversal id | reversalPostings id
  | insertTransaction v | resolveKey key | insertAccount v => exact hs.elim

/-- A program that only writes entries does the same on both tables. -/
theorem run_sameEntries {α : Type} {x : Spi α} (hx : x.All Stmt.WritesEntries)
    (h : t.SameEntries u) {a : α} (hrun : x.run env t b = .ok (a, t', b')) :
    ∃ u', x.run env u b = .ok (a, u', b') := by
  induction x generalizing t u b with
  | pure a₁ =>
      obtain ⟨rfl, -, rfl⟩ : a₁ = a ∧ t = t' ∧ b = b' := by simpa [Spi.run] using hrun
      exact ⟨u, rfl⟩
  | fail e => contradiction
  | stmt s k ih =>
      obtain ⟨eff, heff, hrest⟩ := bind_eq_ok.mp hrun
      obtain ⟨u', hu'⟩ := ih eff.result (hx.2 eff.result) (h.applyAll eff.writes) hrest
      refine ⟨u', ?_⟩
      rw [Spi.run, hx.1.eval_eq h, heff]
      exact hu'

/-- After the insert of the transaction only entries and accounts are written. -/
theorem postEntries_writesEntries (postings : List LedgerPosting) (transactionId : Uuid)
    (createdAt : Timestamp) :
    (postEntries crates postings transactionId createdAt).All Stmt.WritesEntries := by
  have hlock : (lockAccounts postings).All Stmt.WritesEntries :=
    lockAccounts_all (fun _ => trivial) postings
  have hloop (accounts : AccountMap) :
      (postAll transactionId createdAt accounts postings).All Stmt.WritesEntries :=
    postAll_all (fun _ _ _ => trivial) (fun _ => trivial) _ _ _ _
  exact .bind hlock fun accounts => .bind (.ofExcept _) fun _ => .bind (.send trivial) fun _ =>
    .bind (hloop accounts) fun _ => .bind (.send trivial) fun _ => trivial

/-! ## an unused key -/

/-- What the engine accepts without a key, it accepts with an unused one. -/
theorem post_run_withKey (request : PostRequest) {id : Uuid} {key : Str}
    (hkey : key ∉ t.idempotencyKeys)
    (h : (post crates { request with idempotencyKey := none }).run env t b = .ok (id, t', b')) :
    ∃ u', (post crates { request with idempotencyKey := some key }).run env t b =
      .ok (id, u', b') := by
  simp only [post] at h ⊢
  obtain ⟨_, t₁, b₁, hvalidate, h₁⟩ := Spi.run_bind_eq_ok.mp h
  obtain ⟨hvalidated, rfl, rfl⟩ := Spi.run_ofExcept_eq_ok.mp hvalidate
  rw [Spi.run_bind, Spi.run_clockTimestamp, ok_bind] at h₁
  obtain ⟨outcome, t₂, b₂, hinsert, h₂⟩ := Spi.run_bind_eq_ok.mp h₁
  simp only [insertTransaction] at hinsert
  obtain ⟨hashes, t₃, b₃, hhash, h₃⟩ := Spi.run_bind_eq_ok.mp hinsert
  obtain ⟨hhashes, rfl, rfl⟩ := Spi.run_ofExcept_eq_ok.mp hhash
  obtain ⟨result, t₄, b₄, hsend, h₄⟩ := Spi.run_bind_eq_ok.mp h₃
  obtain ⟨ws, heval, rfl⟩ := Spi.run_send_eq_ok.mp hsend
  have hclaimed : Stmt.evalInsertTransaction env t₃ b₁.readClock
      (PostRequest.values { request with idempotencyKey := none } hashes
        (env.clock b₁.clockReads)) =
    .ok ⟨result, ws, b₄⟩ := heval
  rcases Stmt.evalInsertTransaction_eq_ok hclaimed with ⟨htaken, -⟩ |
    ⟨row, hvalues, hid, htakes, heff⟩
  · simp [PostRequest.values, taken] at htaken
  · obtain ⟨rfl, rfl, rfl⟩ : result = some row.id ∧ ws = [.insertTransaction row] ∧ b₄ = _ := by
      simpa using heff
    obtain ⟨rfl, rfl, rfl⟩ : InsertOutcome.created row.id = outcome ∧ _ = t₂ ∧ _ = b₂ := by
      simpa using h₄
    have hrow : ({ row with idempotencyKey := some key } : TransactionRow).toTransactionValues =
        PostRequest.values { request with idempotencyKey := some key } hashes
          (env.clock b₁.clockReads) := by
      rw [hvalues]
      rfl
    have hfree : taken t₃.idempotencyKeys (some key) = false := by
      simpa [taken] using hkey
    have htakes' : t₃.TakesTransaction { row with idempotencyKey := some key } :=
      ⟨hfree, htakes.id, htakes.link, htakes.original⟩
    have heval' := Stmt.evalInsertTransaction_of_takes hrow hid htakes'
    have hsame : (t₃.apply (.insertTransaction row)).SameEntries
        (t₃.apply (.insertTransaction { row with idempotencyKey := some key })) :=
      ⟨rfl, by simp only [Tables.transactionIds_insertTransaction], rfl⟩
    obtain ⟨u', hentries⟩ := run_sameEntries (postEntries_writesEntries _ _ _) hsame h₂
    have hclaim : (insertTransaction crates { request with idempotencyKey := some key }
        (env.clock b₁.clockReads)).run env t₃ b₁.readClock = .ok (.created row.id,
          t₃.apply (.insertTransaction { row with idempotencyKey := some key }),
          b₁.readClock.drawUuid) :=
      Spi.run_bind_eq_ok.mpr ⟨hashes, t₃, b₁.readClock,
        Spi.run_ofExcept_eq_ok.mpr ⟨hhashes, rfl, rfl⟩,
        Spi.run_bind_eq_ok.mpr ⟨some row.id, _, _, Spi.run_send_eq_ok.mpr ⟨_, heval', rfl⟩, rfl⟩⟩
    refine ⟨u', Spi.run_bind_eq_ok.mpr ⟨(), t₃, b₁,
      Spi.run_ofExcept_eq_ok.mpr ⟨hvalidated, rfl, rfl⟩, ?_⟩⟩
    rw [Spi.run_bind, Spi.run_clockTimestamp, ok_bind]
    exact Spi.run_bind_eq_ok.mpr ⟨_, _, _, hclaim, hentries⟩

/-! ## calls -/

namespace PostingCall

/-- The key a call claims; a reversal without one claims a derived key. -/
def key (crates : Crates) : PostingCall → Option Str
  | .post _ options => options.idempotencyKey
  | .transfer _ _ _ options => options.idempotencyKey
  | .reverse transactionId options =>
      (reversalRequest crates transactionId options []).idempotencyKey

/-- The calls of `ledger_post` and `ledger_transfer`. -/
def Direct : PostingCall → Prop
  | .reverse _ _ => False
  | _ => True

def withKey (key : Option Str) : PostingCall → PostingCall
  | .post postings options => .post postings { options with idempotencyKey := key }
  | .transfer fromAccount toAccount amount options =>
      .transfer fromAccount toAccount amount { options with idempotencyKey := key }
  | .reverse transactionId options => .reverse transactionId { options with idempotencyKey := key }

/-- A call sends the key that it was given or derives. -/
theorem Sends.key {call : PostingCall} {request : PostRequest} (h : call.Sends crates t request) :
    request.idempotencyKey = call.key crates := by
  cases h with
  | post h => rfl
  | transfer => rfl
  | reverse h hnone => rfl

/-- A call sends one request only. -/
theorem Sends.unique {call : PostingCall} {request request' : PostRequest}
    (h : call.Sends crates t request) (h' : call.Sends crates t request') : request = request' := by
  cases h with
  | post hrequire =>
      cases h' with
      | post hrequire' => rw [Except.ok.inj (hrequire.symm.trans hrequire')]
  | transfer =>
      cases h' with
      | transfer => rfl
  | reverse hmem hnone =>
      cases h' with
      | reverse hmem' hnone' => rfl

/-- What a direct call does without a key, it does with an unused one. -/
theorem run_withKey {call : PostingCall} (hdirect : call.Direct) {key : Str}
    (hkey : key ∉ t.idempotencyKeys) {id : Uuid}
    (h : ((call.withKey none).program crates).run env t b = .ok (id, t', b')) :
    ∃ u', ((call.withKey (some key)).program crates).run env t b = .ok (id, u', b') := by
  cases call with
  | post elements options =>
      rw [withKey, program, ledgerPost] at h ⊢
      obtain ⟨postings, t₁, b₁, hrequire, hpost⟩ := Spi.run_bind_eq_ok.mp h
      obtain ⟨hpostings, rfl, rfl⟩ := Spi.run_ofExcept_eq_ok.mp hrequire
      obtain ⟨u', hu'⟩ := post_run_withKey (options.request postings) hkey hpost
      exact ⟨u', Spi.run_bind_eq_ok.mpr ⟨postings, t₁, b₁,
        Spi.run_ofExcept_eq_ok.mpr ⟨hpostings, rfl, rfl⟩, hu'⟩⟩
  | transfer fromAccount toAccount amount options =>
      rw [withKey, program, ledgerTransfer] at h ⊢
      by_cases hsame : fromAccount = toAccount
      · simp only [if_pos hsame] at h
        contradiction
      · rw [if_neg hsame] at h ⊢
        by_cases hpositive : amount.units ≤ 0
        · simp only [if_pos hpositive] at h
          contradiction
        · rw [if_neg hpositive] at h ⊢
          exact post_run_withKey
            (options.request (transferPostings fromAccount toAccount amount)) hkey h
  | reverse transactionId options => exact hdirect.elim

end PostingCall

/-! ## a key and its transaction -/

/-- The transaction `row` answers for its key: no call with the key changes
anything, direct ones return the transaction, and they fail when their
fingerprinted document is not the stored one. -/
structure KeyHeld (crates : Crates) (t : Tables) (key : Str) (row : TransactionRow) : Prop where
  recorded : t.RecordedRow crates row
  unchanged : ∀ (call : PostingCall) (session : Session), call.key crates = some key →
    (Call.posting call).after crates session t = t
  answered : ∀ (call : PostingCall) (session : Session) (id : Uuid) (t' : Tables), call.Direct →
    call.key crates = some key → (Call.posting call).exec crates session t = .ok (id, t') →
    id = row.id ∧ t' = t
  refused : ∀ (call : PostingCall) (session : Session) (request stored : PostRequest),
    call.key crates = some key → call.Sends crates t request →
    IsFingerprint crates stored row.payloadHash → payload crates request ≠ payload crates stored →
    (∃ e, (Call.posting call).exec crates session t = .error e) ∧
      (Call.posting call).after crates session t = t

/-- Nothing answers for the key: a call with it that changes anything creates
the one transaction that holds it, a direct call that succeeds does so, a
call that fails leaves the key unused, and the key can be used for whatever
would be accepted without a key. -/
structure KeyUnused (crates : Crates) (t : Tables) (key : Str) : Prop where
  created : ∀ (call : PostingCall) (session : Session) (id : Uuid) (t' : Tables),
    call.key crates = some key → (Call.posting call).exec crates session t = .ok (id, t') →
    (t' = t ∧ ¬ call.Direct) ∨ ∃ row, row.id = id ∧ row.idempotencyKey = some key ∧
      t'.transactions = t.transactions ++ [row]
  failed : ∀ (call : PostingCall) (session : Session) (e : PgError),
    (Call.posting call).exec crates session t = .error e →
    (Call.posting call).after crates session t = t
  retried : ∀ (call : PostingCall) (session : Session) (id : Uuid) (t' : Tables), call.Direct →
    (Call.posting (call.withKey none)).exec crates session t = .ok (id, t') →
    ∃ u' row, (Call.posting (call.withKey (some key))).exec crates session t = .ok (id, u') ∧
      row.id = id ∧ row.idempotencyKey = some key ∧ u'.transactions = t.transactions ++ [row]

/-- At every moment at most one transaction holds the key, from then on it is
there to stay, and it answers for the key; before, the key is unused. -/
structure ExactlyOnce (crates : Crates) (events : List Event) (key : Str) : Prop where
  unique : ∀ r ∈ (runLedger crates events).transactions,
    ∀ s ∈ (runLedger crates events).transactions,
    r.idempotencyKey = some key → s.idempotencyKey = some key → r = s
  kept : ∀ row ∈ (runLedger crates events).transactions, row.idempotencyKey = some key →
    ∀ later, ∃ hash,
      { row with payloadHash := hash } ∈ (runLedger crates (events ++ later)).transactions
  held : ∀ row ∈ (runLedger crates events).transactions, row.idempotencyKey = some key →
    KeyHeld crates (runLedger crates events) key row
  unused : (∀ row ∈ (runLedger crates events).transactions, row.idempotencyKey ≠ some key) →
    KeyUnused crates (runLedger crates events) key

/-- The calls with a key in use that succeed were reversals that exist
already, or replays of its transaction. -/
theorem PostingCall.exec_held {call : PostingCall} {session : Session} {key : Str}
    {row : TransactionRow} {id : Uuid} (hconstrained : t.Constrained) (hrow : row ∈ t.transactions)
    (hheld : row.idempotencyKey = some key) (hkey : call.key crates = some key)
    (h : (Call.posting call).exec crates session t = .ok (id, t')) :
    t' = t ∧ ((¬ call.Direct ∧ ∀ request, ¬ call.Sends crates t request) ∨
      ∃ request, call.Sends crates t request ∧ IsFingerprint crates request row.payloadHash ∧
        id = row.id) := by
  obtain ⟨b', hrun⟩ := Call.exec_eq_ok.mp h
  rcases call.run_ok hrun with ⟨original, options, reversal, rfl, hreversal, -, rfl⟩ |
    ⟨request, hsends, hpost⟩
  · refine ⟨rfl, .inl ⟨not_false, fun request hsends => ?_⟩⟩
    cases hsends with
    | reverse hmem hnone =>
        simp only [hnone] at hreversal
        contradiction
  · have hsame : request.idempotencyKey = some key := hsends.key.trans hkey
    obtain ⟨hashes, answer, hhashes, rfl, hcreated | hreplayed⟩ := post_run_ok hconstrained hpost
    · have hfree := Tables.taken_eq_false.mp hcreated.takes.key key (hcreated.key.trans hsame)
      exact absurd hheld (Tables.not_mem_idempotencyKeys.mp hfree row hrow)
    · obtain ⟨key', hkey', hholder⟩ := hreplayed.key
      obtain rfl : key = key' := Option.some.inj (hsame.symm.trans hkey')
      obtain ⟨hanswer, hanswered⟩ := Tables.holder?_eq_some hholder
      obtain rfl : answer = row :=
        hconstrained.eq_of_key hanswer hrow hanswered hheld
      exact ⟨hreplayed.unchanged, .inr ⟨request, hsends, ⟨hashes, hhashes, hreplayed.accepts⟩, rfl⟩⟩

/-- What is guaranteed of a key that is held, in a sound ledger. -/
theorem Tables.Sound.keyHeld (hdigests : crates.Digests) (hsound : t.Sound)
    (hrecorded : t.Recorded crates) {key : Str} {row : TransactionRow} (hrow : row ∈ t.transactions)
    (hheld : row.idempotencyKey = some key) : KeyHeld crates t key row := by
  have hunchanged (call : PostingCall) (session : Session) (hkey : call.key crates = some key) :
      (Call.posting call).after crates session t = t := by
    rcases (Call.posting call).after_cases crates session t with hsame | ⟨id, hexec⟩
    · exact hsame
    · exact (PostingCall.exec_held hsound.constrained hrow hheld hkey hexec).1
  refine ⟨hrecorded row hrow, hunchanged, ?_, ?_⟩
  · intro call session id t' hdirect hkey h
    obtain ⟨hsame, ⟨hreverse, -⟩ | ⟨-, -, -, hid⟩⟩ :=
      PostingCall.exec_held hsound.constrained hrow hheld hkey h
    · exact absurd hdirect hreverse
    · exact ⟨hid, hsame⟩
  · intro call session request stored hkey hsends hstored hne
    refine ⟨?_, hunchanged call session hkey⟩
    cases hexec : (Call.posting call).exec crates session t with
    | error e => exact ⟨e, rfl⟩
    | ok result =>
        obtain ⟨-, ⟨-, hnone⟩ | ⟨request', hsends', hfingerprint, -⟩⟩ :=
          PostingCall.exec_held hsound.constrained hrow hheld hkey hexec
        · exact absurd hsends (hnone request)
        · obtain rfl := hsends.unique hsends'
          have hsame := (isFingerprint_iff hdigests hstored).mp hfingerprint
          exact absurd hsame.symm hne

/-- A call with an unused key that succeeds was a reversal that exists
already, or it has created the transaction that holds the key. -/
theorem PostingCall.exec_unused {call : PostingCall} {session : Session} {key : Str} {id : Uuid}
    (hconstrained : t.Constrained) (hunused : ∀ row ∈ t.transactions, row.idempotencyKey ≠ some key)
    (hkey : call.key crates = some key)
    (h : (Call.posting call).exec crates session t = .ok (id, t')) :
    (t' = t ∧ ¬ call.Direct) ∨ ∃ row, row.id = id ∧ row.idempotencyKey = some key ∧
      t'.transactions = t.transactions ++ [row] := by
  obtain ⟨b', hrun⟩ := Call.exec_eq_ok.mp h
  rcases call.run_ok hrun with ⟨original, options, reversal, rfl, -, -, rfl⟩ |
    ⟨request, hsends, hpost⟩
  · exact .inl ⟨rfl, not_false⟩
  · have hsame : request.idempotencyKey = some key := hsends.key.trans hkey
    obtain ⟨hashes, row, -, rfl, hcreated | hreplayed⟩ := post_run_ok hconstrained hpost
    · exact .inr ⟨row, rfl, hcreated.key.trans hsame, hcreated.transactions⟩
    · obtain ⟨key', hkey', hholder⟩ := hreplayed.key
      obtain rfl : key = key' := Option.some.inj (hsame.symm.trans hkey')
      obtain ⟨hanswer, hanswered⟩ := Tables.holder?_eq_some hholder
      exact absurd hanswered (hunused row hanswer)

/-- What is guaranteed of a key that is not used. -/
theorem Tables.Constrained.keyUnused (h : t.Constrained) {key : Str}
    (hunused : ∀ row ∈ t.transactions, row.idempotencyKey ≠ some key) : KeyUnused crates t key := by
  refine ⟨?_, ?_, ?_⟩
  · intro call session id t' hkey hexec
    exact PostingCall.exec_unused h hunused hkey hexec
  · intro call session e hexec
    rw [Call.after, hexec]
  · intro call session id t' hdirect hexec
    obtain ⟨b', hrun⟩ := Call.exec_eq_ok.mp hexec
    obtain ⟨u', hu'⟩ :=
      PostingCall.run_withKey hdirect (Tables.not_mem_idempotencyKeys.mpr hunused) hrun
    have hkey : (call.withKey (some key)).key crates = some key := by
      cases call with
      | post elements options => rfl
      | transfer fromAccount toAccount amount options => rfl
      | reverse transactionId options => exact hdirect.elim
    have hexec' : (Call.posting (call.withKey (some key))).exec crates session t = .ok (id, u') :=
      Call.exec_eq_ok.mpr ⟨b', hu'⟩
    rcases PostingCall.exec_unused h hunused hkey hexec' with ⟨-, hreverse⟩ |
      ⟨row, hid, hrow, happend⟩
    · cases call with
      | post elements options => exact absurd trivial hreverse
      | transfer fromAccount toAccount amount options => exact absurd trivial hreverse
      | reverse transactionId options => exact hdirect.elim
    · exact ⟨u', row, hexec', hid, hrow, happend⟩

/-! ## runs -/

/-- No event takes a transaction away, or touches more of it than the format
of its fingerprint. -/
theorem Event.keeps (event : Event) (hconstrained : t.Constrained) {row : TransactionRow}
    (hrow : row ∈ t.transactions) :
    ∃ hash, { row with payloadHash := hash } ∈ (event.after crates t).transactions := by
  cases event with
  | call made session =>
      refine ⟨row.payloadHash, ?_⟩
      rcases made.after_cases crates session t with hsame | ⟨id, hexec⟩
      · rw [after, hsame]
        exact hrow
      · obtain ⟨b', hrun⟩ := Call.exec_eq_ok.mp hexec
        cases made with
        | createAccount name asset balancePolicy metadata =>
            obtain ⟨account, -, -, -, heq⟩ := ledgerCreateAccount_run_ok hrun
            rw [after, heq]
            exact hrow
        | posting call =>
            rcases call.run_cases hconstrained hrun with hsame | ⟨_, _, created, -, -, hcreated⟩
            · rw [after, hsame]
              exact hrow
            · rw [after, hcreated.transactions]
              exact List.mem_append_left _ hrow
  | unversion id request =>
      obtain ⟨hash, heq⟩ := row.unversion_eq crates id request
      refine ⟨hash, ?_⟩
      rw [← heq]
      exact List.mem_map_of_mem hrow

/-- A transaction stays, with at most another fingerprint. -/
theorem runLedger_keeps (events later : List Event) {row : TransactionRow}
    (hrow : row ∈ (runLedger crates events).transactions) :
    ∃ hash,
      { row with payloadHash := hash } ∈ (runLedger crates (events ++ later)).transactions := by
  induction later generalizing events row with
  | nil =>
      rw [List.append_nil]
      exact ⟨row.payloadHash, hrow⟩
  | cons event later ih =>
      obtain ⟨hash, hkept⟩ := event.keeps (runLedger_sound crates events).constrained hrow
      have hstep :
          runLedger crates (events ++ [event]) = event.after crates (runLedger crates events) :=
        runLedger_append events [event]
      rw [← hstep] at hkept
      obtain ⟨hash', hlater⟩ := ih (events ++ [event]) hkept
      refine ⟨hash', ?_⟩
      rw [List.append_cons]
      exact hlater

/-- **Exactly once**: in every run, and for every key. -/
theorem exactlyOnce (hdigests : crates.Digests) (events : List Event) (key : Str) :
    ExactlyOnce crates events key := by
  have hsound := runLedger_sound crates events
  constructor
  · intro r hr s hs hrkey hskey
    exact hsound.constrained.eq_of_key hr hs hrkey hskey
  · intro row hrow _ later
    exact runLedger_keeps events later hrow
  · intro row hrow hheld
    exact hsound.keyHeld hdigests (runLedger_recorded hdigests events) hrow hheld
  · intro hunused
    exact hsound.constrained.keyUnused hunused

theorem exactlyOnce_fixture : ExactlyOnce .concrete fixtureRun "legacy-fixture:1".toList :=
  exactlyOnce Crates.concrete_digests fixtureRun _

end PgLedger
