import PgLedger.Transaction.Accepts

/-!
# PgLedger.Transaction.Refuses

Refusals.  `PostRequest.Refused` lists the reasons for which a request is not
posted, each with the error that says so.  A call that fails has failed for
the reason that its error gives, and where there is a reason the call fails
(`post_refused`, `post_not_refused`).  So no error is of the engine's own
making: what is locked is found again, the balances add up, and the guard of
the balances is open.
-/

namespace PgLedger

variable {crates : Crates} {env : Env} {t t' : Tables} {b b' : Backend}

/-! ## reasons -/

/-- What the postings move in total of an asset. -/
def netPosted (postings : List LedgerPosting) (asset : LedgerAsset) : Int :=
  ((postings.filter (·.amount.asset = asset)).map (·.amount.units)).sum

/-- The request is not posted for a reason that the error gives.  Only the
first four matter to a request whose key is taken. -/
inductive PostRequest.Refused (crates : Crates) (env : Env) (drawn : Nat) (t : Tables)
    (request : PostRequest) : PgError → Prop where
  | tooFew (h : request.postings.length < 2) :
      Refused crates env drawn t request
        (failParameter "a ledger transaction requires at least two postings")
  | zero {p : LedgerPosting} (hp : p ∈ request.postings) (h : p.amount.units = 0) :
      Refused crates env drawn t request (failParameter "ledger postings cannot have zero amounts")
  | unbalanced {asset : LedgerAsset} (h : netPosted request.postings asset ≠ 0) :
      Refused crates env drawn t request (failCheck ("transaction is not balanced for asset " ++
        String.ofList asset.canonical ++ " (net units: " ++
        toString (netPosted request.postings asset) ++ ")"))
  | conflict {key : Str} {row : TransactionRow} (hkey : request.idempotencyKey = some key)
      (hrow : t.holder? key = some row) (h : ¬ IsFingerprint crates request row.payloadHash) :
      Refused crates env drawn t request
        (failParameter "idempotency key was already used with a different ledger transaction")
  | missing {p : LedgerPosting} (hfree : taken t.idempotencyKeys request.idempotencyKey = false)
      (hp : p ∈ request.postings) (h : p.accountId ∉ t.accountIds) :
      Refused crates env drawn t request
        (failForeignKey "one or more posting accounts do not exist")
  | mismatch {p : LedgerPosting} {a : AccountRow}
      (hfree : taken t.idempotencyKeys request.idempotencyKey = false)
      (hp : p ∈ request.postings) (ha : a ∈ t.accounts) (hid : a.id = p.accountId)
      (h : p.amount.asset ≠ a.asset) :
      Refused crates env drawn t request
        (failParameter ("posting asset " ++ String.ofList p.amount.asset.canonical ++
          " does not match account " ++ String.ofList (crates.uuidToString p.accountId) ++
          " asset " ++ String.ofList a.asset.canonical))
  | policy {a : AccountRow} (hfree : taken t.idempotencyKeys request.idempotencyKey = false)
      (ha : a ∈ t.accounts) (hnamed : ∃ p ∈ request.postings, p.accountId = a.id)
      (h : ¬ a.balancePolicy.Admits (a.balance.units + movedUnits request.postings a.id)) :
      Refused crates env drawn t request (failCheck ("posting violates " ++ a.balancePolicy.name ++
        " balance policy for account " ++ String.ofList (crates.uuidToString a.id)))
  | transactionId (hfree : taken t.idempotencyKeys request.idempotencyKey = false)
      (h : env.uuidv7 drawn ∈ t.transactionIds) :
      Refused crates env drawn t request (uniqueViolation "ledger_transactions_pkey")
  | entryId (hfree : taken t.idempotencyKeys request.idempotencyKey = false)
      (h : ¬ (t.entryIds ++ drawnIds env (drawn + 1) request.postings.length).Nodup) :
      Refused crates env drawn t request (uniqueViolation "ledger_entries_pkey")
  | version (hfree : taken t.idempotencyKeys request.idempotencyKey = false)
      (h : ¬ t.VersionsFit request.postings) :
      Refused crates env drawn t request
        (checkViolation "ledger_accounts" "ledger_accounts_version_check")

/-! ## validation -/

theorem addPostings_eq_error {postings : List LedgerPosting} {totals : List (LedgerAsset × Int)}
    {e : PgError} (h : postings.foldlM addPosting totals = .error e) :
    (∃ p ∈ postings, p.amount.units = 0) ∧
      e = failParameter "ledger postings cannot have zero amounts" := by
  induction postings generalizing totals with
  | nil => contradiction
  | cons p postings ih =>
      rw [List.foldlM_cons] at h
      rcases bind_eq_error.mp h with hfirst | ⟨totals₁, -, hrest⟩
      · rw [addPosting] at hfirst
        split at hfirst
        · next hzero => exact ⟨⟨p, List.mem_cons_self, hzero⟩, (Except.error.inj hfirst).symm⟩
        · contradiction
      · obtain ⟨⟨q, hq, hzero⟩, he⟩ := ih hrest
        exact ⟨⟨q, List.mem_cons_of_mem p hq, hzero⟩, he⟩

theorem validatePostings_refused {request : PostRequest} {e : PgError}
    (h : validatePostings request.postings = .error e) :
    request.Refused crates env b.uuidsDrawn t e := by
  rw [validatePostings] at h
  split at h
  · next hfew =>
    obtain rfl := Except.error.inj h
    exact .tooFew hfew
  · rcases bind_eq_error.mp h with hzero | ⟨totals, htotals, h⟩
    · obtain ⟨⟨p, hp, hunits⟩, rfl⟩ := addPostings_eq_error hzero
      exact .zero hp hunits
    · obtain ⟨-, heq⟩ := addPostings_eq_ok htotals
      dsimp only at h
      split at h
      · next asset total hfound =>
        obtain rfl := Except.error.inj h
        -- the total of every asset is the sum of its postings
        have hmem := (List.mem_insertionSort _).mp (List.mem_of_find?_eq_some hfound)
        have hnodup : ((([] : List (LedgerAsset × Int))).map Prod.fst).Nodup := List.nodup_nil
        have htotal := Assoc.total_foldl (fun p : LedgerPosting => p.amount.asset)
          (fun p => p.amount.units) request.postings [] asset
        rw [heq] at hmem
        rw [Assoc.total, Assoc.lookup_of_mem (Assoc.nodup_foldl _ _ _ hnodup) hmem] at htotal
        have hnet : total = netPosted request.postings asset := by
          rw [netPosted]
          simpa [Assoc.total] using htotal
        have hne := List.find?_some hfound
        rw [hnet] at hne ⊢
        exact .unbalanced (by simpa using hne)
      · contradiction

/-! ## the transaction row -/

/-- An insert of a transaction row fails on a key or a reference. -/
theorem Stmt.evalInsertTransaction_eq_error {v : TransactionValues} {e : PgError}
    (h : evalInsertTransaction env t b v = .error e) :
    taken t.idempotencyKeys v.idempotencyKey = false ∧
      ((env.uuidv7 b.uuidsDrawn ∈ t.transactionIds ∧
          e = uniqueViolation "ledger_transactions_pkey") ∨
        ∃ original, v.reversesTransactionId = some original ∧
          (original ∈ t.reversedIds ∨ original ∉ t.transactionIds)) := by
  simp only [evalInsertTransaction] at h
  split at h
  · contradiction
  · next hkey =>
    refine ⟨by simpa using hkey, ?_⟩
    split at h
    · next hid => exact .inl ⟨hid, (Except.error.inj h).symm⟩
    · split at h
      · next hlink =>
        obtain ⟨original, horiginal, hmem⟩ := Tables.taken_eq_true.mp hlink
        exact .inr ⟨original, horiginal, .inl hmem⟩
      · split at h
        · next hforeign =>
          cases horiginal : v.reversesTransactionId with
          | none =>
              rw [horiginal] at hforeign
              contradiction
          | some original =>
              refine .inr ⟨original, rfl, .inr fun hin => ?_⟩
              rw [horiginal] at hforeign
              simp [hin] at hforeign
        · contradiction

/-- The original of a linked request is there and not reversed yet. -/
def Tables.LinkOpen (t : Tables) (request : PostRequest) : Prop :=
  ∀ original, request.reversesTransactionId = some original →
    original ∈ t.transactionIds ∧ original ∉ t.reversedIds

theorem insertTransaction_refused (hdigests : crates.Digests) {request : PostRequest}
    {createdAt : Timestamp} {e : PgError} (hlink : t.LinkOpen request)
    (h : (insertTransaction crates request createdAt).run env t b = .error e) :
    request.Refused crates env b.uuidsDrawn t e := by
  obtain ⟨hashes, hhashes⟩ := payloadHashes_ok hdigests request
  simp only [insertTransaction] at h
  rcases Spi.run_bind_eq_error.mp h with hfailed | ⟨hashes', t₁, b₁, hsame, h⟩
  · simp [Spi.run_ofExcept_eq_error, hhashes] at hfailed
  · obtain ⟨heq, rfl, rfl⟩ := Spi.run_ofExcept_eq_ok.mp hsame
    obtain rfl := Except.ok.inj (hhashes.symm.trans heq)
    rcases Spi.run_bind_eq_error.mp h with hfailed | ⟨result, t₂, b₂, hsend, h⟩
    · obtain ⟨hfree, ⟨hid, rfl⟩ | ⟨original, horiginal, hclosed⟩⟩ :=
        Stmt.evalInsertTransaction_eq_error (Spi.run_send_eq_error.mp hfailed)
      · exact .transactionId hfree hid
      · obtain ⟨hmem, hopen⟩ := hlink original horiginal
        rcases hclosed with hreversed | hunknown
        · exact absurd hreversed hopen
        · exact absurd hmem hunknown
    · obtain ⟨ws, heval, rfl⟩ := Spi.run_send_eq_ok.mp hsend
      rcases Stmt.evalInsertTransaction_eq_ok heval with ⟨htaken, heffect⟩ | ⟨row, -, -, -, heffect⟩
      · obtain ⟨rfl, rfl, rfl⟩ : result = none ∧ ws = [] ∧ b₂ = b₁.drawUuid := by
          simpa using heffect
        obtain ⟨key, hvalue, hmem⟩ := Tables.taken_eq_true.mp htaken
        have hkey : request.idempotencyKey = some key := hvalue
        obtain ⟨row, hrow⟩ : ∃ row, t₁.holder? key = some row :=
          Option.ne_none_iff_exists'.mp fun hnone =>
            Tables.holder?_eq_none_iff.mp hnone hmem
        rw [hkey] at h
        simp only [resolveConflict] at h
        rw [Tables.applyAll_nil, Spi.run_bind, Spi.run_resolveKey, hrow, ok_bind] at h
        dsimp only [Option.map_some] at h
        split at h
        · contradiction
        · next hother =>
          obtain rfl : _ = e := Except.error.inj h
          refine .conflict hkey hrow fun hfingerprint => hother ?_
          obtain ⟨hashes', hhashes', haccepts⟩ := hfingerprint
          obtain rfl := Except.ok.inj (hhashes.symm.trans hhashes')
          exact haccepts
      · obtain ⟨rfl, -, -⟩ : result = some row.id ∧ ws = [.insertTransaction row] ∧
            b₂ = b₁.drawUuid := by
          simpa using heffect
        contradiction

/-! ## the accounts -/

theorem lockAccounts_eq_error {postings : List LedgerPosting} {e : PgError}
    (h : (lockAccounts postings).run env t b = .error e) :
    (∃ p ∈ postings, p.accountId ∉ t.accountIds) ∧
      e = failForeignKey "one or more posting accounts do not exist" := by
  rw [lockAccounts, Spi.run_bind, selectForUpdate_run, ok_bind] at h
  dsimp only at h
  split at h
  · next hlen =>
    refine ⟨?_, (Except.error.inj h).symm⟩
    by_contra hall
    simp only [not_exists, not_and, not_not] at hall
    refine hlen (List.filterMap_length_eq_length.mpr fun id hid => ?_)
    obtain ⟨p, hp, rfl⟩ := mem_accountIds.mp hid
    obtain ⟨row, hrow⟩ := Option.ne_none_iff_exists'.mp fun hnone =>
      Tables.account?_eq_none.mp hnone (hall p hp)
    rw [hrow]
    rfl
  · contradiction

/-- Adding postings to balances fails on the asset of an account only. -/
theorem addToBalances_eq_error {accounts : AccountMap} {postings : List LedgerPosting}
    {balances : List (Uuid × LedgerAmount)} {e : PgError}
    (hlocked : ∀ p ∈ postings, ∃ account, accounts.lookup p.accountId = some account)
    (hbalances : ∀ id account, accounts.lookup id = some account →
      ∃ balance, balances.lookup id = some balance ∧ balance.asset = account.asset)
    (h : postings.foldlM (addToBalance crates accounts) balances = .error e) :
    ∃ p ∈ postings, ∃ account, accounts.lookup p.accountId = some account ∧
      p.amount.asset ≠ account.asset ∧
      e = failParameter ("posting asset " ++ String.ofList p.amount.asset.canonical ++
        " does not match account " ++ String.ofList (crates.uuidToString p.accountId) ++
        " asset " ++ String.ofList account.asset.canonical) := by
  induction postings generalizing balances with
  | nil => contradiction
  | cons p postings ih =>
      rw [List.forall_mem_cons] at hlocked
      obtain ⟨⟨account, haccount⟩, hrest⟩ := hlocked
      obtain ⟨balance, hbalance, hsame⟩ := hbalances _ _ haccount
      rw [List.foldlM_cons] at h
      by_cases hasset : p.amount.asset = account.asset
      · have hadd : balance.checkedAdd p.amount =
            .ok ⟨balance.asset, balance.units + p.amount.units⟩ :=
          LedgerAmount.checkedAdd_eq_ok.mpr ⟨hsame.trans hasset.symm, rfl⟩
        have hstep : addToBalance crates accounts balances p =
            .ok (Assoc.modify balances p.accountId
              fun _ => ⟨balance.asset, balance.units + p.amount.units⟩) := by
          simp only [addToBalance, haccount, hbalance, hasset, ne_eq, not_true_eq_false, if_false,
            hadd]
          rfl
        rw [hstep, ok_bind] at h
        have hmodified (id : Uuid) (account' : AccountState)
            (haccount' : accounts.lookup id = some account') :
            ∃ balance', (Assoc.modify balances p.accountId fun _ =>
              ⟨balance.asset, balance.units + p.amount.units⟩).lookup id = some balance' ∧
              balance'.asset = account'.asset := by
          obtain ⟨balance', hbalance', hsame'⟩ := hbalances id account' haccount'
          rw [Assoc.lookup_modify]
          by_cases hid : id = p.accountId
          · rw [hid, haccount] at haccount'
            obtain rfl := Option.some.inj haccount'
            rw [if_pos hid, hbalance']
            exact ⟨_, rfl, hsame⟩
          · rw [if_neg hid]
            exact ⟨balance', hbalance', hsame'⟩
        obtain ⟨q, hq, hfailed⟩ := ih hrest hmodified h
        exact ⟨q, List.mem_cons_of_mem p hq, hfailed⟩
      · refine ⟨p, List.mem_cons_self, account, haccount, hasset, ?_⟩
        simp only [addToBalance, haccount] at h
        rw [if_pos hasset] at h
        exact (Except.error.inj h).symm

/-- The check of the final balances fails on an asset or on a policy. -/
theorem verifyFinalBalances_refused {request : PostRequest} {accounts : AccountMap} {e : PgError}
    (hfree : taken t.idempotencyKeys request.idempotencyKey = false)
    (htracks : Tracks accounts t) (hnodup : (accounts.map Prod.fst).Nodup)
    (hnamed : ∀ id account, accounts.lookup id = some account →
      ∃ p ∈ request.postings, p.accountId = id)
    (hlocked : ∀ p ∈ request.postings, ∃ account, accounts.lookup p.accountId = some account)
    (h : verifyFinalBalances crates request.postings accounts = .error e) :
    request.Refused crates env b.uuidsDrawn t e := by
  have hstart (id : Uuid) : (accounts.map fun e => (e.1, e.2.balance)).lookup id =
      (accounts.lookup id).map (·.balance) := Assoc.lookup_map accounts (·.balance) id
  have hbalances (id : Uuid) (account : AccountState)
      (haccount : accounts.lookup id = some account) :
      ∃ balance, (accounts.map fun e => (e.1, e.2.balance)).lookup id = some balance ∧
        balance.asset = account.asset := by
    obtain ⟨row, -, rfl⟩ := htracks id account haccount
    rw [hstart, haccount]
    exact ⟨_, rfl, row.balanceCheck⟩
  simp only [verifyFinalBalances] at h
  rcases bind_eq_error.mp h with hfailed | ⟨balances, hfinal, hfailed⟩
  · obtain ⟨p, hp, account, haccount, hasset, rfl⟩ :=
      addToBalances_eq_error hlocked hbalances hfailed
    obtain ⟨row, hrow, rfl⟩ := htracks _ _ haccount
    exact .mismatch hfree hp (Tables.mem_of_account? hrow) (Tables.id_of_account? hrow) hasset
  · obtain ⟨⟨id, balance⟩, he, hpolicy⟩ := exists_of_forM_eq_error hfailed
    have hkeys : balances.map Prod.fst = accounts.map Prod.fst := by
      rw [(addToBalances_eq_ok hfinal).2.1, List.map_map]
      rfl
    have hlookup := Assoc.lookup_of_mem (hkeys ▸ hnodup) he
    rw [(finalBalances_eq_ok hfinal).2, Option.map_eq_some_iff] at hlookup
    obtain ⟨account, haccount, rfl⟩ := hlookup
    rw [checkPolicy, haccount] at hpolicy
    dsimp only at hpolicy
    split at hpolicy
    · contradiction
    · next hrefused =>
      obtain rfl := Except.error.inj hpolicy
      obtain ⟨row, hrow, rfl⟩ := htracks _ _ haccount
      obtain rfl : row.id = id := Tables.id_of_account? hrow
      exact .policy hfree (Tables.mem_of_account? hrow) (hnamed _ _ haccount) hrefused

/-! ## the posting loop -/

/-- With the guard open, an update of an account fails on the version only. -/
theorem Stmt.evalUpdateAccount_eq_error {row : AccountRow} {balance : LedgerAmount}
    {version : Int64} {id : Uuid} {e : PgError} (hrow : t.account? id = some row)
    (hopen : b.internalPosting = some "on".toList) (hb : balance.asset = row.asset)
    (h : evalUpdateAccount env t b balance version id = .error e) :
    version.toInt < 0 ∧ e = checkViolation "ledger_accounts" "ledger_accounts_version_check" := by
  have hguard : balanceGuard b row balance version = .ok () := by
    rw [balanceGuard, if_neg fun h => h.1 hopen]
  simp only [evalUpdateAccount, hrow, hguard, ok_bind, AccountRow.withBalance, dif_pos hb] at h
  split at h
  · contradiction
  · next hnegative => exact ⟨Int.not_le.mp hnegative, (Except.error.inj h).symm⟩

/-- An insert of an entry whose row passes its checks fails on a key or a
reference. -/
theorem Stmt.evalInsertEntry_eq_error {v : EntryValues} {row : EntryRow} {e : PgError}
    (hvalues : row.toEntryValues = v) (hid : row.id = env.uuidv7 b.uuidsDrawn)
    (hversion : (row.accountId, row.accountVersion) ∉ t.entryVersions)
    (htransaction : row.transactionId ∈ t.transactionIds) (haccount : row.accountId ∈ t.accountIds)
    (h : evalInsertEntry env t b v = .error e) :
    env.uuidv7 b.uuidsDrawn ∈ t.entryIds ∧ e = uniqueViolation "ledger_entries_pkey" := by
  subst hvalues
  rw [evalInsertEntry, ← hid, row.check_self, ok_bind, if_neg hversion,
    if_neg (not_not.mpr htransaction), if_neg (not_not.mpr haccount)] at h
  split at h
  · next htaken => exact ⟨hid ▸ htaken, (Except.error.inj h).symm⟩
  · contradiction

/-- What is left of `LoopReady` when there are no postings left. -/
theorem LoopReady.done {transactionId : Uuid} {accounts : AccountMap}
    (hconstrained : t.Constrained) (hjournaled : t.Journaled) (htracks : Tracks accounts t)
    (hguard : b.internalPosting = some "on".toList)
    (htransaction : transactionId ∈ t.transactionIds) :
    LoopReady env t b transactionId accounts [] where
  constrained := hconstrained
  journaled := hjournaled
  tracks := htracks
  guard := hguard
  transaction := htransaction
  nonzero _ hp := absurd hp List.not_mem_nil
  assets _ hp := absurd hp List.not_mem_nil
  fresh := by
    show (t.entryIds ++ []).Nodup
    rw [List.append_nil]
    exact hconstrained.entryIds
  versions a _ := by
    show a.version.toInt + (0 : ℤ) < 2 ^ 63
    have hlt := a.version.toInt_lt
    omega

/-- A turn fails when an identifier is taken or a version overflows. -/
theorem LoopReady.postOne_eq_error {transactionId : Uuid} {createdAt : Timestamp}
    {accounts : AccountMap} {posting : LedgerPosting} {e : PgError}
    (h : LoopReady env t b transactionId accounts []) (hnonzero : posting.amount.units ≠ 0)
    (hassets : ∃ account, accounts.lookup posting.accountId = some account ∧
      posting.amount.asset = account.asset)
    (hrun : (postOne transactionId createdAt accounts posting).run env t b = .error e) :
    (env.uuidv7 b.uuidsDrawn ∈ t.entryIds ∧ e = uniqueViolation "ledger_entries_pkey") ∨
      (¬ t.VersionsFit [posting] ∧
        e = checkViolation "ledger_accounts" "ledger_accounts_version_check") := by
  obtain ⟨account, haccount, hasset⟩ := hassets
  obtain ⟨row, hfound, rfl⟩ := h.tracks posting.accountId account haccount
  have hrow := Tables.mem_of_account? hfound
  have hid : row.id = posting.accountId := Tables.id_of_account? hfound
  have hsame : row.balance.asset = posting.amount.asset := row.balanceCheck.trans hasset.symm
  have hadd : row.balance.checkedAdd posting.amount =
      .ok ⟨row.balance.asset, row.balance.units + posting.amount.units⟩ :=
    LedgerAmount.checkedAdd_eq_ok.mpr ⟨hsame, rfl⟩
  have hcurrent : (row.state.balance.checkedAdd posting.amount).mapError failParameter =
      .ok ⟨row.balance.asset, row.balance.units + posting.amount.units⟩ :=
    mapError_eq_ok.mpr hadd
  have hnonneg := row.versionCheck
  simp only [postOne, haccount] at hrun
  rw [hcurrent] at hrun
  rcases Spi.run_bind_eq_error.mp hrun with hfailed | ⟨current, t₁, b₁, hok, hrun⟩
  · contradiction
  · obtain ⟨heq, rfl, rfl⟩ := Spi.run_ofExcept_eq_ok.mp hok
    obtain rfl := Except.ok.inj heq
    rcases Spi.run_bind_eq_error.mp hrun with hfailed | ⟨_, t₂, b₂, hsent, hrun⟩
    · -- the version
      have hupdate : Stmt.evalUpdateAccount env t₁ b₁
          ⟨row.balance.asset, row.balance.units + posting.amount.units⟩ (row.version + 1)
          posting.accountId = .error e := Spi.run_send_eq_error.mp hfailed
      have hkept : (⟨row.balance.asset, row.balance.units + posting.amount.units⟩ :
          LedgerAmount).asset = row.asset := row.balanceCheck
      obtain ⟨hnegative, rfl⟩ := Stmt.evalUpdateAccount_eq_error hfound h.guard hkept hupdate
      refine .inr ⟨fun hfit => ?_, rfl⟩
      have hroom := hfit row hrow
      rw [postingsOf_cons, if_pos hid.symm] at hroom
      rw [toInt_add_one_of_lt hnonneg hroom] at hnegative
      omega
    · -- the entry
      obtain ⟨ws, hupdate, rfl⟩ := Spi.run_send_eq_ok.mp hsent
      rcases Spi.run_bind_eq_error.mp hrun with hfailed | ⟨_, _, _, _, hdone⟩
      · rcases Stmt.evalUpdateAccount_eq_ok hupdate with ⟨hnone, -⟩ |
          ⟨row₁, row', hrow₁, hrow', heffect⟩
        · simp only [hfound] at hnone
          contradiction
        · obtain rfl : row = row₁ := Option.some.inj (hfound.symm.trans hrow₁)
          obtain ⟨-, hid', hversion, -, -⟩ := AccountRow.withBalance_eq_ok hrow'
          obtain rfl : ws = [.updateAccount row'] := congrArg Effect.writes heffect
          obtain rfl : b₂ = b₁.readClock := congrArg Effect.backend heffect
          have hkept := row'.versionCheck
          rw [hversion] at hkept
          change 0 ≤ (row.version + 1).toInt at hkept
          have hlt : row.version.toInt + 1 < 2 ^ 63 := by
            by_contra hover
            have hone : (1 : Int64).toInt = 1 := by decide
            have hmax := row.version.toInt_lt
            rw [Int64.toInt_add, hone, Int.bmod_def] at hkept
            omega
          have hnext := toInt_add_one_of_lt hnonneg hlt
          let entry : EntryRow :=
            { transactionId, accountId := posting.accountId, amount := posting.amount
              accountVersion := row.version + 1, previousBalance := row.balance
              currentBalance := ⟨row.balance.asset, row.balance.units + posting.amount.units⟩
              createdAt, id := env.uuidv7 b₁.uuidsDrawn
              versionCheck := by rw [hnext]; omega
              amountCheck := hnonzero, previousCheck := hsame.symm
              currentCheck := hsame.symm, sumCheck := hadd }
          have hinserted : Stmt.evalInsertEntry env (t₁.apply (.updateAccount row')) b₁.readClock
              entry.toEntryValues = .error e := Spi.run_send_eq_error.mp hfailed
          have hfree : (entry.accountId, entry.accountVersion) ∉
              (t₁.apply (.updateAccount row')).entryVersions := by
            have hfree := h.journaled.next_version hrow hnext
            rw [hid] at hfree
            exact hfree
          have hexists : entry.accountId ∈ (t₁.apply (.updateAccount row')).accountIds := by
            have hids : (t₁.apply (.updateAccount row')).accountIds = t₁.accountIds :=
              Tables.map_updateAccount (·.id) h.constrained.accountIds
                (by rw [hid', hid]; exact hfound) hid'
            rw [hids]
            exact List.mem_map.mpr ⟨row, hrow, hid⟩
          have htransaction : entry.transactionId ∈
              (t₁.apply (.updateAccount row')).transactionIds := h.transaction
          have htaken := Stmt.evalInsertEntry_eq_error rfl rfl hfree htransaction hexists hinserted
          exact .inl htaken
      · contradiction

namespace PostLine

variable {transactionId : Uuid} {createdAt : Timestamp} {posting : LedgerPosting}
  {row row' : AccountRow} {e : EntryRow}

/-- The identifiers in use and those to come are the same after a turn. -/
theorem entryIds_next (h : PostLine env b b' t transactionId createdAt posting row row' e)
    (n : Nat) : (t.posted row' e).entryIds ++ drawnIds env b'.uuidsDrawn n =
      t.entryIds ++ drawnIds env b.uuidsDrawn (n + 1) := by
  have hentries : (t.posted row' e).entryIds = t.entryIds ++ [e.id] := List.map_append
  have hdrawn : b'.uuidsDrawn = b.uuidsDrawn + 1 := by
    rw [h.backend]
    rfl
  rw [hentries, hdrawn, drawnIds_succ, ← h.drawn, List.append_assoc]
  rfl

theorem versionsFit_next (h : PostLine env b b' t transactionId createdAt posting row row' e)
    (hconstrained : t.Constrained) {postings : List LedgerPosting}
    (hfit : t.VersionsFit (posting :: postings)) : (t.posted row' e).VersionsFit postings := by
  intro a' ha'
  obtain ⟨a, ha, rfl⟩ := List.mem_map.mp ha'
  have hmoved := h.moved_posted hconstrained ha
  have hroom := hfit a ha
  have hsplit : postingsOf (posting :: postings) a.id =
      postingsOf [posting] a.id ++ postingsOf postings a.id := postingsOf_append [posting] _ _
  rw [hsplit, List.length_append] at hroom
  rw [hmoved.version, hmoved.id]
  omega

/-- The accounts in memory keep their assets. -/
theorem assets_next (h : PostLine env b b' t transactionId createdAt posting row row' e)
    {accounts : AccountMap} (htracks : Tracks accounts t) {p : LedgerPosting}
    (hp : ∃ account, accounts.lookup p.accountId = some account ∧
      p.amount.asset = account.asset) :
    ∃ account, (Assoc.modify accounts posting.accountId fun _ => row'.state).lookup p.accountId =
      some account ∧ p.amount.asset = account.asset := by
  obtain ⟨found, hfound, hasset⟩ := hp
  rw [Assoc.lookup_modify]
  by_cases hid : p.accountId = posting.accountId
  · obtain ⟨row₁, hrow₁, rfl⟩ := htracks _ _ hfound
    rw [hid, h.found] at hrow₁
    obtain rfl := Option.some.inj hrow₁
    rw [if_pos hid, hfound]
    exact ⟨row'.state, rfl, hasset.trans h.sameAsset.symm⟩
  · rw [if_neg hid]
    exact ⟨found, hfound, hasset⟩

end PostLine

/-- **The loop fails** when an identifier is taken or a version overflows, by
induction on the postings. -/
theorem LoopReady.postAll_eq_error {transactionId : Uuid} {createdAt : Timestamp}
    {accounts : AccountMap} {postings : List LedgerPosting} {e : PgError}
    (h : LoopReady env t b transactionId accounts [])
    (hnonzero : ∀ p ∈ postings, p.amount.units ≠ 0)
    (hassets : ∀ p ∈ postings, ∃ account, accounts.lookup p.accountId = some account ∧
      p.amount.asset = account.asset)
    (hrun : (postAll transactionId createdAt accounts postings).run env t b = .error e) :
    (¬ (t.entryIds ++ drawnIds env b.uuidsDrawn postings.length).Nodup ∧
        e = uniqueViolation "ledger_entries_pkey") ∨
      (¬ t.VersionsFit postings ∧
        e = checkViolation "ledger_accounts" "ledger_accounts_version_check") := by
  induction postings generalizing t b accounts with
  | nil => contradiction
  | cons posting postings ih =>
      obtain ⟨hfirst, hnonzero⟩ := List.forall_mem_cons.mp hnonzero
      obtain ⟨hasset, hassets⟩ := List.forall_mem_cons.mp hassets
      rcases Spi.run_bind_eq_error.mp hrun with hfailed | ⟨accounts', t', b', hone, hrest⟩
      · rcases h.postOne_eq_error hfirst hasset hfailed with ⟨htaken, rfl⟩ | ⟨hover, rfl⟩
        · refine .inl ⟨fun hnodup => ?_, rfl⟩
          rw [List.length_cons, drawnIds_succ, List.nodup_append] at hnodup
          exact hnodup.2.2 _ htaken _ List.mem_cons_self rfl
        · refine .inr ⟨fun hfit => hover fun a ha => ?_, rfl⟩
          have hroom := hfit a ha
          have hsplit : postingsOf (posting :: postings) a.id =
              postingsOf [posting] a.id ++ postingsOf postings a.id :=
            postingsOf_append [posting] _ _
          rw [hsplit, List.length_append] at hroom
          omega
      · obtain ⟨row, row', entry, hline, rfl, rfl⟩ := postOne_run_line h.tracks hone
        have hguard : b'.internalPosting = some "on".toList := by
          rw [hline.backend]
          exact h.guard
        have hready : LoopReady env (t.posted row' entry) b' transactionId _ [] :=
          .done (Spi.run_constrained hone h.constrained)
            (hline.journaled h.constrained h.journaled) (hline.tracks h.tracks) hguard h.transaction
        rcases ih hready hnonzero (fun p hp => hline.assets_next h.tracks (hassets p hp)) hrest with
          ⟨htaken, rfl⟩ | ⟨hover, rfl⟩
        · rw [hline.entryIds_next] at htaken
          exact .inl ⟨htaken, rfl⟩
        · exact .inr ⟨fun hfit => hover (hline.versionsFit_next h.constrained hfit), rfl⟩

/-! ## the engine -/

/-- What follows the transaction row fails for a reason. -/
theorem postEntries_refused {request : PostRequest} {row : TransactionRow} {createdAt : Timestamp}
    {e : PgError} (hconstrained : t.Constrained) (hjournaled : t.Journaled)
    (hfree : taken t.idempotencyKeys request.idempotencyKey = false)
    (htakes : t.TakesTransaction row) (hvalidate : validatePostings request.postings = .ok ())
    (h : (postEntries crates request.postings row.id createdAt).run env
      (t.apply (.insertTransaction row)) b.readClock.drawUuid = .error e) :
    request.Refused crates env b.uuidsDrawn t e := by
  have hinserted := hconstrained.insertTransaction htakes
  simp only [postEntries] at h
  rcases Spi.run_bind_eq_error.mp h with hfailed | ⟨accounts, t₁, b₁, hlock, h₁⟩
  · obtain ⟨⟨p, hp, hmissing⟩, rfl⟩ := lockAccounts_eq_error hfailed
    exact .missing hfree hp hmissing
  · obtain ⟨rfl, rfl, hrows, hlookup⟩ := lockAccounts_run_ok hlock
    have hrowTracks := tracks_of_lockAccounts hlock
    have htracks : Tracks accounts t := hrowTracks
    have hexist : ∃ accounts', (lockAccounts request.postings).run env _ b.readClock.drawUuid =
        .ok (accounts', _, b.readClock.drawUuid) ∧ (accounts'.map Prod.fst).Nodup :=
      lockAccounts_run_exist hrows
    obtain ⟨accounts', hlock', hnodup⟩ := hexist
    obtain rfl : accounts = accounts' := by
      have heq := hlock.symm.trans hlock'
      simpa using Except.ok.inj heq
    have hlocked (p : LedgerPosting) (hp : p ∈ request.postings) :
        ∃ account, accounts.lookup p.accountId = some account := by
      obtain ⟨found, hfound⟩ := hrows p hp
      refine ⟨found.state, ?_⟩
      rw [hlookup, if_pos (mem_accountIds.mpr ⟨p, hp, rfl⟩), hfound]
      rfl
    have hnamed (id : Uuid) (account : AccountState)
        (haccount : accounts.lookup id = some account) :
        ∃ p ∈ request.postings, p.accountId = id := by
      rw [hlookup] at haccount
      exact mem_accountIds.mp (by by_contra hnot; simp [hnot] at haccount)
    rcases Spi.run_bind_eq_error.mp h₁ with hfailed | ⟨_, t₂, b₂, hverify, h₂⟩
    · exact verifyFinalBalances_refused hfree htracks hnodup hnamed hlocked
        (Spi.run_ofExcept_eq_error.mp hfailed)
    · obtain ⟨hverified, rfl, rfl⟩ := Spi.run_ofExcept_eq_ok.mp hverify
      obtain ⟨balances, hbalances, -⟩ := verifyFinalBalances_eq_ok hverified
      rw [Spi.run_bind, Spi.run_setInternalPosting, ok_bind] at h₂
      rcases Spi.run_bind_eq_error.mp h₂ with hfailed | ⟨_, t₃, b₃, _, hdone⟩
      · have hmem : row.id ∈ (t.apply (.insertTransaction row)).transactionIds := by
          rw [Tables.transactionIds_insertTransaction]
          exact List.mem_append_right _ (List.mem_singleton_self _)
        have hready : LoopReady env _
            { b.readClock.drawUuid with internalPosting := some "on".toList } row.id accounts [] :=
          .done hinserted (hjournaled.insertTransaction row) hrowTracks rfl hmem
        rcases hready.postAll_eq_error (validatePostings_eq_ok hvalidate).2.1
          (finalBalances_eq_ok hbalances).1 hfailed with ⟨htaken, rfl⟩ | ⟨hover, rfl⟩
        · exact .entryId hfree htaken
        · exact .version hfree hover
      · rw [Spi.run_bind, Spi.run_setInternalPosting, ok_bind] at hdone
        contradiction

/-- **Every error has its reason.** -/
theorem post_refused (hdigests : crates.Digests) (hconstrained : t.Constrained)
    (hjournaled : t.Journaled) {request : PostRequest} {e : PgError} (hlink : t.LinkOpen request)
    (h : (post crates request).run env t b = .error e) :
    request.Refused crates env b.uuidsDrawn t e := by
  simp only [post] at h
  rcases Spi.run_bind_eq_error.mp h with hfailed | ⟨_, t₁, b₁, hvalidate, h₁⟩
  · exact validatePostings_refused (Spi.run_ofExcept_eq_error.mp hfailed)
  · obtain ⟨hvalidated, rfl, rfl⟩ := Spi.run_ofExcept_eq_ok.mp hvalidate
    rw [Spi.run_bind, Spi.run_clockTimestamp, ok_bind] at h₁
    rcases Spi.run_bind_eq_error.mp h₁ with hfailed | ⟨outcome, t₂, b₂, hinsert, h₂⟩
    · have hrefused := insertTransaction_refused hdigests hlink hfailed
      exact hrefused
    · cases htaken : taken t₁.idempotencyKeys request.idempotencyKey with
      | true =>
          obtain ⟨_, _, row, _, _, _, _, rfl, -, -⟩ :=
            (insertTransaction_run_taken htaken).mp hinsert
          contradiction
      | false =>
          obtain ⟨hashes, row, -, -, -, htakes, rfl, rfl, rfl⟩ :=
            (insertTransaction_run_free htaken).mp hinsert
          exact postEntries_refused hconstrained hjournaled htaken htakes hvalidated h₂

/-- **Every reason is an obstacle.** -/
theorem post_not_refused (hconstrained : t.Constrained) (hjournaled : t.Journaled)
    {request : PostRequest} {id : Uuid} {e : PgError}
    (h : (post crates request).run env t b = .ok (id, t', b')) :
    ¬ request.Refused crates env b.uuidsDrawn t e := by
  intro hrefused
  have hvalid : validatePostings request.postings = .ok () := by
    cases htaken : taken t.idempotencyKeys request.idempotencyKey with
    | true => exact ((post_run_taken htaken).mp h).1
    | false => exact ((post_run_free htaken).mp h).1
  obtain ⟨htwo, hnonzero, hbalanced⟩ := validatePostings_eq_ok hvalid
  have hfacts (hfree : taken t.idempotencyKeys request.idempotencyKey = false) :=
    (post_free_iff hconstrained hjournaled hfree).mp ⟨id, t', b', h⟩
  cases hrefused with
  | tooFew hfew => omega
  | zero hp hzero => exact hnonzero _ hp hzero
  | @unbalanced asset hnet => exact hnet (hbalanced asset)
  | @conflict key row hkey hrow hother =>
      have htaken : taken t.idempotencyKeys request.idempotencyKey = true := by
        refine Tables.taken_eq_true.mpr ⟨key, hkey, ?_⟩
        by_contra hunused
        have hnone := Tables.holder?_eq_none_iff.mpr hunused
        rw [hrow] at hnone
        contradiction
      obtain ⟨-, hashes, key', row', hhashes, hkey', hrow', haccepts, -⟩ :=
        (post_run_taken htaken).mp h
      obtain rfl := Option.some.inj (hkey.symm.trans hkey')
      obtain rfl := Option.some.inj (hrow.symm.trans hrow')
      exact hother ⟨hashes, hhashes, haccepts⟩
  | missing hfree hp hmissing =>
      obtain ⟨-, hadmits, -⟩ := hfacts hfree
      obtain ⟨a, ha, hid, -⟩ := hadmits.accounts _ hp
      exact hmissing (hid ▸ List.mem_map_of_mem ha)
  | mismatch hfree hp ha hid hasset =>
      obtain ⟨-, hadmits, -⟩ := hfacts hfree
      obtain ⟨a', ha', hid', hasset'⟩ := hadmits.accounts _ hp
      have hfound := Tables.account?_of_mem hconstrained ha
      rw [hid, ← hid', Tables.account?_of_mem hconstrained ha'] at hfound
      rw [Option.some.inj hfound] at hasset'
      exact hasset hasset'.symm
  | policy hfree ha hnamed hpolicy =>
      obtain ⟨-, hadmits, -⟩ := hfacts hfree
      exact hpolicy (hadmits.policies _ ha hnamed)
  | transactionId hfree hid =>
      obtain ⟨⟨_, -, row, -, hdrawn, htakes⟩, -⟩ := hfacts hfree
      exact htakes.id (hdrawn ▸ hid)
  | entryId hfree hids => exact hids (hfacts hfree).2.2.1
  | version hfree hover => exact hover (hfacts hfree).2.2.2

end PgLedger
