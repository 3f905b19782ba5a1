import PgLedger.Transaction.Effect

/-!
# PgLedger.Transaction.Accepts

Acceptance.  `Tables.Admits` is the specification of a posting: two lines at
least, none of them zero, balanced for every asset, over existing accounts of
the right assets, and with final balances within the policies.  A call with a
free key creates a transaction exactly when the specification holds, the
identifiers it draws are new, and no version overflows (`post_creates_iff`).

The direction that takes work is that nothing fails late.  `LoopReady`
collects what the posting loop needs of the tables, the accounts in memory
and the session; every turn succeeds under it and keeps it.
-/

namespace PgLedger

variable {crates : Crates} {env : Env} {t t' : Tables} {b b' : Backend}

/-! ## the specification -/

/-- The ledger has to accept the postings. -/
structure Tables.Admits (t : Tables) (postings : List LedgerPosting) : Prop where
  twoPostings : 2 ≤ postings.length
  nonzero : ∀ p ∈ postings, p.amount.units ≠ 0
  balanced : ∀ asset, ((postings.filter (·.amount.asset = asset)).map (·.amount.units)).sum = 0
  accounts : ∀ p ∈ postings, ∃ a ∈ t.accounts, a.id = p.accountId ∧ a.asset = p.amount.asset
  policies : ∀ a ∈ t.accounts, (∃ p ∈ postings, p.accountId = a.id) →
    a.balancePolicy.Admits (a.balance.units + movedUnits postings a.id)

/-- The identifiers that a call with `n` postings draws are new. -/
structure FreshIds (env : Env) (b : Backend) (t : Tables) (n : Nat) : Prop where
  transaction : env.uuidv7 b.uuidsDrawn ∉ t.transactionIds
  entries : (t.entryIds ++ drawnIds env (b.uuidsDrawn + 1) n).Nodup

/-- The versions of the accounts stay below `2 ^ 63`. -/
def Tables.VersionsFit (t : Tables) (postings : List LedgerPosting) : Prop :=
  ∀ a ∈ t.accounts, a.version.toInt + (postingsOf postings a.id).length < 2 ^ 63

/-- The request claims no key that is in use and, if it is a reversal, its
original exists and is not reversed yet. -/
structure Tables.Unclaimed (t : Tables) (request : PostRequest) : Prop where
  key : ∀ key, request.idempotencyKey = some key → key ∉ t.idempotencyKeys
  link : ∀ original, request.reversesTransactionId = some original →
    original ∈ t.transactionIds ∧ original ∉ t.reversedIds

/-! ## the posting loop does not fail -/

/-- What the loop needs to go through. -/
structure LoopReady (env : Env) (t : Tables) (b : Backend) (transactionId : Uuid)
    (accounts : AccountMap) (postings : List LedgerPosting) : Prop where
  constrained : t.Constrained
  journaled : t.Journaled
  tracks : Tracks accounts t
  guard : b.internalPosting = some "on".toList
  transaction : transactionId ∈ t.transactionIds
  nonzero : ∀ p ∈ postings, p.amount.units ≠ 0
  assets : ∀ p ∈ postings, ∃ account, accounts.lookup p.accountId = some account ∧
    p.amount.asset = account.asset
  fresh : (t.entryIds ++ drawnIds env b.uuidsDrawn postings.length).Nodup
  versions : t.VersionsFit postings

theorem toInt_add_one_of_lt {v : Int64} (hv : 0 ≤ v.toInt) (h : v.toInt + 1 < 2 ^ 63) :
    (v + 1).toInt = v.toInt + 1 := by
  have hone : (1 : Int64).toInt = 1 := by decide
  rw [Int64.toInt_add, hone, Int.bmod_def]
  omega

/-- In a ledger whose accounts are the totals of their entries, the next
version of an account is not taken. -/
theorem Tables.Journaled.next_version {row : AccountRow} (h : t.Journaled)
    (hrow : row ∈ t.accounts) {version : Int64} (hversion : version.toInt = row.version.toInt + 1) :
    (row.id, version) ∉ t.entryVersions := by
  intro hmem
  obtain ⟨e, he, heq⟩ := List.mem_map.mp hmem
  obtain ⟨hid, hsame⟩ := Prod.mk.inj heq
  have hentry : e ∈ t.accountEntries row.id := List.mem_filter.mpr ⟨he, by simpa using hid⟩
  have hrange := (h row hrow).journal.mem_versions.mp
    (List.mem_map_of_mem (List.mem_map_of_mem hentry))
  have hentryVersion : e.movement.version = row.version.toInt + 1 := by
    rw [EntryRow.movement, hsame, hversion]
  omega

/-- One turn goes through. -/
theorem LoopReady.postOne_run {transactionId : Uuid} {accounts : AccountMap}
    {posting : LedgerPosting} {postings : List LedgerPosting}
    (h : LoopReady env t b transactionId accounts (posting :: postings)) (createdAt : Timestamp) :
    ∃ accounts' t' b', (postOne transactionId createdAt accounts posting).run env t b =
      .ok (accounts', t', b') := by
  obtain ⟨account, haccount, hasset⟩ := h.assets posting List.mem_cons_self
  obtain ⟨row, hfound, rfl⟩ := h.tracks posting.accountId account haccount
  have hrow := Tables.mem_of_account? hfound
  have hid : row.id = posting.accountId := Tables.id_of_account? hfound
  have hassets : row.balance.asset = posting.amount.asset := row.balanceCheck.trans hasset.symm
  have hfit := h.versions row hrow
  rw [postingsOf_cons, if_pos hid.symm, List.length_cons] at hfit
  have hversion : (row.version + 1).toInt = row.version.toInt + 1 :=
    toInt_add_one_of_lt row.versionCheck (by omega)
  have hpositive : 0 < (row.version + 1).toInt := by
    have := row.versionCheck
    omega
  -- the addition
  have hadd : row.balance.checkedAdd posting.amount =
      .ok ⟨row.balance.asset, row.balance.units + posting.amount.units⟩ :=
    LedgerAmount.checkedAdd_eq_ok.mpr ⟨hassets, rfl⟩
  -- the update
  obtain ⟨row', hid', hupdate⟩ : ∃ row' : AccountRow, row'.id = row.id ∧
      Stmt.evalUpdateAccount env t b ⟨row.balance.asset, row.balance.units + posting.amount.units⟩
        (row.version + 1) posting.accountId = .ok ⟨(), [.updateAccount row'], b.readClock⟩ :=
    Stmt.evalUpdateAccount_of_open hfound h.guard row.balanceCheck hpositive.le
  have hids : (t.apply (.updateAccount row')).accountIds = t.accountIds := by
    refine Tables.map_updateAccount (·.id) h.constrained.accountIds ?_ hid'
    rw [hid', hid]
    exact hfound
  -- the entry
  let e : EntryRow :=
    { transactionId, accountId := posting.accountId, amount := posting.amount
      accountVersion := row.version + 1, previousBalance := row.balance
      currentBalance := ⟨row.balance.asset, row.balance.units + posting.amount.units⟩
      createdAt, id := env.uuidv7 b.uuidsDrawn, versionCheck := hpositive
      amountCheck := h.nonzero posting List.mem_cons_self, previousCheck := hassets.symm
      currentCheck := hassets.symm, sumCheck := hadd }
  have htakes : (t.apply (.updateAccount row')).TakesEntry e := by
    constructor
    · have hfresh := h.fresh
      rw [List.length_cons, drawnIds_succ, List.nodup_append] at hfresh
      intro hmem
      exact hfresh.2.2 e.id hmem e.id List.mem_cons_self rfl
    · have hnext := h.journaled.next_version hrow hversion
      rw [hid] at hnext
      exact hnext
    · exact h.transaction
    · rw [hids]
      exact List.mem_map.mpr ⟨row, hrow, hid⟩
  have hinsert : Stmt.evalInsertEntry env (t.apply (.updateAccount row')) b.readClock
      e.toEntryValues = .ok ⟨(), [.insertEntry e], b.readClock.drawUuid⟩ :=
    Stmt.evalInsertEntry_of_takes rfl rfl htakes
  -- the turn
  refine ⟨Assoc.modify accounts posting.accountId fun _ =>
      { row.state with
        version := row.version + 1,
        balance := ⟨row.balance.asset, row.balance.units + posting.amount.units⟩ },
    t.posted row' e, b.readClock.drawUuid, ?_⟩
  simp only [postOne, haccount]
  refine Spi.run_bind_eq_ok.mpr ⟨_, t, b, Spi.run_ofExcept_eq_ok.mpr
    ⟨mapError_eq_ok.mpr hadd, rfl, rfl⟩, ?_⟩
  refine Spi.run_bind_eq_ok.mpr ⟨(), _, _, Spi.run_send_eq_ok.mpr ⟨_, hupdate, rfl⟩, ?_⟩
  exact Spi.run_bind_eq_ok.mpr ⟨(), _, _, Spi.run_send_eq_ok.mpr ⟨_, hinsert, rfl⟩, rfl⟩

/-- And leaves the loop ready for the rest. -/
theorem LoopReady.next {transactionId : Uuid} {accounts accounts' : AccountMap}
    {posting : LedgerPosting} {postings : List LedgerPosting} {createdAt : Timestamp}
    (h : LoopReady env t b transactionId accounts (posting :: postings))
    (hrun : (postOne transactionId createdAt accounts posting).run env t b =
      .ok (accounts', t', b')) : LoopReady env t' b' transactionId accounts' postings := by
  obtain ⟨row, row', e, hline, rfl, rfl⟩ := postOne_run_line h.tracks hrun
  obtain ⟨-, hnonzero⟩ := List.forall_mem_cons.mp h.nonzero
  obtain ⟨⟨account, haccount, -⟩, hassets⟩ := List.forall_mem_cons.mp h.assets
  constructor
  · exact Spi.run_constrained hrun h.constrained
  · exact hline.journaled h.constrained h.journaled
  · exact hline.tracks h.tracks
  · rw [hline.backend]
    exact h.guard
  · exact h.transaction
  · exact hnonzero
  · intro p hp
    obtain ⟨found, hfound, hasset⟩ := hassets p hp
    rw [Assoc.lookup_modify]
    by_cases hid : p.accountId = posting.accountId
    · obtain ⟨row₁, hrow₁, rfl⟩ := h.tracks _ _ hfound
      rw [hid, hline.found] at hrow₁
      obtain rfl := Option.some.inj hrow₁
      rw [if_pos hid, hfound]
      exact ⟨row'.state, rfl, hasset.trans hline.sameAsset.symm⟩
    · rw [if_neg hid]
      exact ⟨found, hfound, hasset⟩
  · have hfresh := h.fresh
    rw [List.length_cons, drawnIds_succ, ← hline.drawn] at hfresh
    have hentries : (t.posted row' e).entryIds = t.entryIds ++ [e.id] := List.map_append
    have hdrawn : b'.uuidsDrawn = b.uuidsDrawn + 1 := by rw [hline.backend]; rfl
    rw [hentries, hdrawn, List.append_assoc]
    exact hfresh
  · intro a' ha'
    obtain ⟨a, ha, rfl⟩ := List.mem_map.mp ha'
    have hmoved := hline.moved_posted h.constrained ha
    have hfit := h.versions a ha
    rw [hmoved.version, hmoved.id]
    have hsplit : postingsOf (posting :: postings) a.id =
        postingsOf [posting] a.id ++ postingsOf postings a.id := postingsOf_append [posting] _ _
    rw [hsplit, List.length_append] at hfit
    omega

/-- **The loop goes through**, by induction on the postings. -/
theorem LoopReady.postAll_run {transactionId : Uuid} {accounts : AccountMap}
    {postings : List LedgerPosting} (h : LoopReady env t b transactionId accounts postings)
    (createdAt : Timestamp) : ∃ accounts' t' b',
      (postAll transactionId createdAt accounts postings).run env t b =
        .ok (accounts', t', b') := by
  induction postings generalizing t b accounts with
  | nil => exact ⟨accounts, t, b, rfl⟩
  | cons posting postings ih =>
      obtain ⟨accounts₁, t₁, b₁, hone⟩ := h.postOne_run createdAt
      obtain ⟨accounts', t', b', hrest⟩ := ih (h.next hone)
      exact ⟨accounts', t', b', Spi.run_bind_eq_ok.mpr ⟨accounts₁, t₁, b₁, hone, hrest⟩⟩

/-! ## what has been checked before the loop -/

theorem Tables.Unclaimed.free {request : PostRequest} (h : t.Unclaimed request) :
    taken t.idempotencyKeys request.idempotencyKey = false :=
  Tables.taken_eq_false.mpr h.key

/-- The row of an unclaimed request under a new identifier can be added. -/
theorem Tables.Unclaimed.takes {request : PostRequest} (h : t.Unclaimed request)
    {hashes : PayloadHashes} {createdAt : Timestamp} {row : TransactionRow}
    (hvalues : row.toTransactionValues = request.values hashes createdAt)
    (hid : row.id ∉ t.transactionIds) : t.TakesTransaction row := by
  have hkey : row.idempotencyKey = request.idempotencyKey := by rw [hvalues]; rfl
  have hlink : row.reversesTransactionId = request.reversesTransactionId := by rw [hvalues]; rfl
  constructor
  · rw [hkey]
    exact h.free
  · exact hid
  · rw [hlink]
    exact Tables.taken_eq_false.mpr fun original horiginal => (h.link original horiginal).2
  · intro original horiginal
    rw [hlink] at horiginal
    exact List.mem_cons_of_mem _ (h.link original horiginal).1

/-- Adding a transaction row does not touch the accounts or their entries. -/
theorem Tables.Journaled.insertTransaction (h : t.Journaled) (row : TransactionRow) :
    (t.apply (.insertTransaction row)).Journaled :=
  fun a ha => ⟨(h a ha).journal, (h a ha).assets⟩

/-- After the checks in front of it, the loop is ready. -/
theorem LoopReady.of_verified {postings : List LedgerPosting} {row : TransactionRow}
    {accounts : AccountMap} (hconstrained : t.Constrained) (hjournaled : t.Journaled)
    (hfresh : (t.entryIds ++ drawnIds env (b.uuidsDrawn + 1) postings.length).Nodup)
    (hfit : t.VersionsFit postings) (htakes : t.TakesTransaction row)
    (hvalidate : validatePostings postings = .ok ())
    (hlock : (lockAccounts postings).run env (t.apply (.insertTransaction row))
      b.readClock.drawUuid = .ok (accounts, t.apply (.insertTransaction row),
        b.readClock.drawUuid))
    (hverify : verifyFinalBalances crates postings accounts = .ok ()) :
    LoopReady env (t.apply (.insertTransaction row))
      { b.readClock.drawUuid with internalPosting := some "on".toList } row.id accounts
      postings := by
  obtain ⟨balances, hbalances, -⟩ := verifyFinalBalances_eq_ok hverify
  constructor
  · exact hconstrained.insertTransaction htakes
  · exact hjournaled.insertTransaction row
  · exact tracks_of_lockAccounts hlock
  · rfl
  · rw [Tables.transactionIds_insertTransaction]
    exact List.mem_append_right _ (List.mem_singleton_self _)
  · exact (validatePostings_eq_ok hvalidate).2.1
  · exact (finalBalances_eq_ok hbalances).1
  · exact hfresh
  · exact hfit

/-- Existing accounts of the right assets are locked as they are. -/
theorem lockAccounts_run_rows {postings : List LedgerPosting} (hconstrained : t.Constrained)
    (h : ∀ p ∈ postings, ∃ a ∈ t.accounts, a.id = p.accountId ∧ a.asset = p.amount.asset) :
    ∃ accounts, (lockAccounts postings).run env t b = .ok (accounts, t, b) ∧
      (accounts.map Prod.fst).Nodup ∧
      (∀ p ∈ postings, ∃ account, accounts.lookup p.accountId = some account ∧
        p.amount.asset = account.asset) ∧
      ∀ e ∈ accounts, ∃ a ∈ t.accounts, a.id = e.1 ∧ a.state = e.2 ∧
        ∃ p ∈ postings, p.accountId = a.id := by
  have hexist : ∀ p ∈ postings, ∃ row, t.account? p.accountId = some row := by
    intro p hp
    obtain ⟨a, ha, hid, -⟩ := h p hp
    exact ⟨a, hid ▸ Tables.account?_of_mem hconstrained ha⟩
  obtain ⟨accounts, hlock, hnodup⟩ := lockAccounts_run_exist hexist
  obtain ⟨-, -, -, hlookup⟩ := lockAccounts_run_ok hlock
  refine ⟨accounts, hlock, hnodup, fun p hp => ?_, fun e he => ?_⟩
  · obtain ⟨a, ha, hid, hasset⟩ := h p hp
    refine ⟨a.state, ?_, hasset.symm⟩
    rw [hlookup, if_pos (mem_accountIds.mpr ⟨p, hp, rfl⟩), ← hid,
      Tables.account?_of_mem hconstrained ha, Option.map_some]
  · have hfound := Assoc.lookup_of_mem hnodup he
    obtain ⟨a, ha, hstate⟩ := tracks_of_lockAccounts hlock _ _ hfound
    have hid := Tables.id_of_account? ha
    refine ⟨a, Tables.mem_of_account? ha, hid, hstate, ?_⟩
    rw [hlookup] at hfound
    rw [hid]
    exact mem_accountIds.mp (by by_contra hnot; simp [hnot] at hfound)

/-- The two checks of the balances, in the words of the tables. -/
theorem verified_iff {postings : List LedgerPosting} (hconstrained : t.Constrained) :
    (∃ accounts, (lockAccounts postings).run env t b = .ok (accounts, t, b) ∧
      verifyFinalBalances crates postings accounts = .ok ()) ↔
    (∀ p ∈ postings, ∃ a ∈ t.accounts, a.id = p.accountId ∧ a.asset = p.amount.asset) ∧
    ∀ a ∈ t.accounts, (∃ p ∈ postings, p.accountId = a.id) →
      a.balancePolicy.Admits (a.balance.units + movedUnits postings a.id) := by
  constructor
  · intro h
    obtain ⟨accounts, hlock, hverify⟩ := h
    obtain ⟨-, -, -, hlookup⟩ := lockAccounts_run_ok hlock
    obtain ⟨balances, hbalances, hadmits⟩ := verifyFinalBalances_eq_ok hverify
    obtain ⟨hassets, hfinal⟩ := finalBalances_eq_ok hbalances
    constructor
    · intro p hp
      obtain ⟨account, haccount, hasset⟩ := hassets p hp
      obtain ⟨row, hrow, rfl⟩ := tracks_of_lockAccounts hlock _ _ haccount
      exact ⟨row, Tables.mem_of_account? hrow, Tables.id_of_account? hrow, hasset.symm⟩
    · intro a ha hnamed
      have haccount : accounts.lookup a.id = some a.state := by
        rw [hlookup, if_pos (mem_accountIds.mpr hnamed), Tables.account?_of_mem hconstrained ha,
          Option.map_some]
      have hbalance := hfinal a.id
      rw [haccount, Option.map_some] at hbalance
      exact hadmits a.id _ a.state hbalance haccount
  · intro h
    obtain ⟨haccounts, hpolicies⟩ := h
    obtain ⟨accounts, hlock, hnodup, hassets, hrows⟩ := lockAccounts_run_rows hconstrained haccounts
    refine ⟨accounts, hlock, verifyFinalBalances_ok hnodup ?_ hassets ?_⟩
    · intro e he
      obtain ⟨a, -, -, hstate, -⟩ := hrows e he
      rw [← hstate]
      exact a.balanceCheck
    · intro e he
      obtain ⟨a, ha, hid, hstate, hnamed⟩ := hrows e he
      rw [← hid, ← hstate]
      exact hpolicies a ha hnamed

/-! ## acceptance -/

theorem exists_of_forall₂ {α β : Type} {R : α → β → Prop} {l : List α} {l' : List β}
    (h : List.Forall₂ R l l') {a : α} (ha : a ∈ l) : ∃ b ∈ l', R a b := by
  induction h with
  | nil => exact absurd ha List.not_mem_nil
  | cons hab _ ih =>
      rcases List.mem_cons.mp ha with rfl | hrest
      · exact ⟨_, List.mem_cons_self, hab⟩
      · obtain ⟨b, hb, hR⟩ := ih hrest
        exact ⟨b, List.mem_cons_of_mem _ hb, hR⟩

/-- The row that the next call adds for a request passes its keys and
references. -/
def Tables.TakesRequest (crates : Crates) (env : Env) (b : Backend) (t : Tables)
    (request : PostRequest) : Prop :=
  ∃ hashes, payloadHashes crates request = .ok hashes ∧ ∃ row : TransactionRow,
    row.toTransactionValues = request.values hashes (env.clock b.clockReads) ∧
    row.id = env.uuidv7 b.uuidsDrawn ∧ t.TakesTransaction row

/-- A request with a free key is posted exactly when its row can be added, its
postings meet the specification, the entries get new identifiers and the
versions fit. -/
theorem post_free_iff {request : PostRequest} (hconstrained : t.Constrained)
    (hjournaled : t.Journaled)
    (hfree : taken t.idempotencyKeys request.idempotencyKey = false) :
    (∃ id t' b', (post crates request).run env t b = .ok (id, t', b')) ↔
      t.TakesRequest crates env b request ∧ t.Admits request.postings ∧
        (t.entryIds ++ drawnIds env (b.uuidsDrawn + 1) request.postings.length).Nodup ∧
        t.VersionsFit request.postings := by
  constructor
  · intro h
    obtain ⟨id, t', b', hrun⟩ := h
    obtain ⟨hvalidate, -⟩ := (post_run_free hfree).mp hrun
    obtain ⟨hashes, row, accounts, es, hhashes, hvalues, hdrawn, htakes, -, hlock, hverify,
      heffect⟩ := post_run_loop hconstrained hfree hrun
    obtain ⟨htwo, hnonzero, hbalanced⟩ := validatePostings_eq_ok hvalidate
    obtain ⟨haccounts, hpolicies⟩ :=
      (verified_iff (hconstrained.insertTransaction htakes)).mp ⟨accounts, hlock, hverify⟩
    have hafter : t'.Constrained := Spi.run_constrained hrun hconstrained
    refine ⟨⟨hashes, hhashes, row, hvalues, hdrawn, htakes⟩,
      ⟨htwo, hnonzero, hbalanced, haccounts, hpolicies⟩, ?_, ?_⟩
    · have hids := hafter.entryIds
      rw [Tables.entryIds, heffect.entries, List.map_append, heffect.drawn] at hids
      exact hids
    · intro a ha
      obtain ⟨a', -, hmoved⟩ := exists_of_forall₂ heffect.accounts ha
      have hlt := a'.version.toInt_lt
      rw [hmoved.version] at hlt
      exact hlt
  · intro h
    obtain ⟨⟨hashes, hhashes, row, hvalues, hdrawn, htakes⟩, hadmits, hfresh, hfit⟩ := h
    have hvalidate := validatePostings_ok hadmits.twoPostings hadmits.nonzero hadmits.balanced
    obtain ⟨accounts, hlock, hverify⟩ := (verified_iff
      (hconstrained.insertTransaction htakes)).mpr ⟨hadmits.accounts, hadmits.policies⟩
    have hready := LoopReady.of_verified hconstrained hjournaled hfresh hfit htakes hvalidate hlock
      hverify
    obtain ⟨accounts', t', b₁, hall⟩ := hready.postAll_run (env.clock b.clockReads)
    have hentries :=
      postEntries_run_iff.mpr ⟨accounts, accounts', b₁, hlock, hverify, hall, rfl, rfl⟩
    exact ⟨row.id, t', _, (post_run_free hfree).mpr
      ⟨hvalidate, hashes, row, hhashes, hvalues, hdrawn, htakes, hentries⟩⟩

/-- **Acceptance**: an unclaimed request is posted exactly when its postings
meet the specification, the drawn identifiers are new and the versions fit. -/
theorem post_creates_iff {request : PostRequest} (hconstrained : t.Constrained)
    (hjournaled : t.Journaled) (hunclaimed : t.Unclaimed request)
    (hhashes : ∃ hashes, payloadHashes crates request = .ok hashes) :
    (∃ id t' b', (post crates request).run env t b = .ok (id, t', b')) ↔
      t.Admits request.postings ∧ FreshIds env b t request.postings.length ∧
        t.VersionsFit request.postings := by
  rw [post_free_iff hconstrained hjournaled hunclaimed.free]
  constructor
  · intro h
    obtain ⟨⟨_, -, row, -, hdrawn, htakes⟩, hadmits, hfresh, hfit⟩ := h
    exact ⟨hadmits, ⟨hdrawn ▸ htakes.id, hfresh⟩, hfit⟩
  · intro h
    obtain ⟨hadmits, hfresh, hfit⟩ := h
    obtain ⟨hashes, hhashes⟩ := hhashes
    let row : TransactionRow :=
      { request.values hashes (env.clock b.clockReads) with id := env.uuidv7 b.uuidsDrawn }
    have htakes : t.TakesTransaction row := hunclaimed.takes rfl hfresh.transaction
    exact ⟨⟨hashes, hhashes, row, rfl, rfl, htakes⟩, hadmits, hfresh.entries, hfit⟩

/-- An unclaimed request that is posted has created a transaction. -/
theorem new_of_unclaimed {request : PostRequest} {id : Uuid} (hconstrained : t.Constrained)
    (hunclaimed : t.Unclaimed request)
    (h : (post crates request).run env t b = .ok (id, t', b')) : id ∉ t.transactionIds := by
  obtain ⟨hashes, row, accounts, es, -, -, -, htakes, rfl, -⟩ :=
    post_run_loop hconstrained hunclaimed.free h
  exact htakes.id

/-- The call succeeds and adds a transaction that was not there: its row, one
entry for every posting, and the balances moved accordingly. -/
def PostCreates (crates : Crates) (env : Env) (t : Tables) (b : Backend) (request : PostRequest) :
    Prop :=
  ∃ (row : TransactionRow) (t' : Tables) (b' : Backend),
    (post crates request).run env t b = .ok (row.id, t', b') ∧ row.id ∉ t.transactionIds ∧
      PostEffect crates t t' request row

/-- What an unclaimed request does when it is posted. -/
theorem postCreates_of_run {request : PostRequest} {id : Uuid} (hconstrained : t.Constrained)
    (hunclaimed : t.Unclaimed request)
    (h : (post crates request).run env t b = .ok (id, t', b')) :
    PostCreates crates env t b request := by
  have hnew := new_of_unclaimed hconstrained hunclaimed h
  obtain ⟨row, rfl, heffect⟩ := post_run_effect hconstrained h hnew
  exact ⟨row, t', b', h, hnew, heffect⟩

/-- **Acceptance over runs**: in every ledger that can be reached, an
unclaimed request creates a transaction exactly when its postings meet the
specification; and once the final balances have passed, the posting loop
cannot fail. -/
theorem acceptance (hdigests : crates.Digests) (events : List Event) (request : PostRequest)
    (env : Env) (b : Backend) (hunclaimed : (runLedger crates events).Unclaimed request)
    (hfresh : FreshIds env b (runLedger crates events) request.postings.length)
    (hfit : (runLedger crates events).VersionsFit request.postings) :
    (PostCreates crates env (runLedger crates events) b request ↔
      (runLedger crates events).Admits request.postings) ∧
    ∀ (row : TransactionRow) (accounts : AccountMap) (createdAt : Timestamp),
      (runLedger crates events).TakesTransaction row →
      validatePostings request.postings = .ok () →
      (lockAccounts request.postings).run env
        ((runLedger crates events).apply (.insertTransaction row)) b.readClock.drawUuid =
          .ok (accounts, (runLedger crates events).apply (.insertTransaction row),
            b.readClock.drawUuid) →
      verifyFinalBalances crates request.postings accounts = .ok () →
      ∃ accounts' t' b', (postAll row.id createdAt accounts request.postings).run env
        ((runLedger crates events).apply (.insertTransaction row))
        { b.readClock.drawUuid with internalPosting := some "on".toList } =
          .ok (accounts', t', b') := by
  have hsound := runLedger_sound crates events
  have hcreates : (∃ id t' b', (post crates request).run env (runLedger crates events) b =
      .ok (id, t', b')) ↔ _ :=
    post_creates_iff hsound.constrained hsound.journaled hunclaimed
      (payloadHashes_ok hdigests request)
  refine ⟨⟨fun h => ?_, fun h => ?_⟩,
    fun row accounts createdAt htakes hvalidate hlock hverify => ?_⟩
  · obtain ⟨row, t', b', hrun, -⟩ := h
    exact (hcreates.mp ⟨row.id, t', b', hrun⟩).1
  · obtain ⟨id, t', b', hrun⟩ := hcreates.mpr ⟨h, hfresh, hfit⟩
    exact postCreates_of_run hsound.constrained hunclaimed hrun
  · exact (LoopReady.of_verified hsound.constrained hsound.journaled hfresh.entries hfit htakes
      hvalidate hlock hverify).postAll_run createdAt

/-- The request of the fixture claims neither a key nor an original. -/
theorem repeatedRequest_unclaimed :
    (runLedger .concrete fixtureAccounts).Unclaimed repeatedRequest where
  key _ h := by contradiction
  link _ h := by contradiction

/-- The session of the fixture draws new identifiers. -/
theorem repeatedRequest_fresh : FreshIds (fixtureSession 0x201).env (fixtureSession 0x201).backend
    (runLedger .concrete fixtureAccounts) repeatedRequest.postings.length where
  transaction := by decide
  entries := by decide

/-- The versions of the fixture are small. -/
theorem repeatedRequest_fits :
    (runLedger .concrete fixtureAccounts).VersionsFit repeatedRequest.postings := by
  unfold Tables.VersionsFit
  decide

/-- The row that the request of the fixture inserts, with any hash. -/
def repeatedRow : TransactionRow where
  id := 0x201#128
  createdAt := 0
  eventAt := 0
  reference := none
  idempotencyKey := none
  payloadHash := []
  reversesTransactionId := none
  metadata := none

/-- The row can be inserted. -/
theorem repeatedRow_takes : (runLedger .concrete fixtureAccounts).TakesTransaction repeatedRow where
  key := by decide
  id := by decide
  link := by decide
  original _ h := by contradiction

theorem acceptance_repeated :
    (PostCreates .concrete (fixtureSession 0x201).env (runLedger .concrete fixtureAccounts)
        (fixtureSession 0x201).backend repeatedRequest ↔
      (runLedger .concrete fixtureAccounts).Admits repeatedRequest.postings) ∧
    ∃ accounts accounts' t' b', accounts.length = 2 ∧
      (postAll 0x201#128 0 accounts repeatedRequest.postings).run (fixtureSession 0x201).env
        ((runLedger .concrete fixtureAccounts).apply (.insertTransaction repeatedRow))
        { (fixtureSession 0x201).backend.readClock.drawUuid with
          internalPosting := some "on".toList } = .ok (accounts', t', b') := by
  have haccepted := acceptance Crates.concrete_digests fixtureAccounts repeatedRequest _ _
    repeatedRequest_unclaimed repeatedRequest_fresh repeatedRequest_fits
  obtain ⟨accounts, hlength, hlock, hverify⟩ : ∃ accounts, accounts.length = 2 ∧
      (lockAccounts repeatedRequest.postings).run (fixtureSession 0x201).env
        ((runLedger .concrete fixtureAccounts).apply (.insertTransaction repeatedRow))
        (fixtureSession 0x201).backend.readClock.drawUuid = .ok (accounts,
          (runLedger .concrete fixtureAccounts).apply (.insertTransaction repeatedRow),
          (fixtureSession 0x201).backend.readClock.drawUuid) ∧
      verifyFinalBalances .concrete repeatedRequest.postings accounts = .ok () :=
    ⟨_, rfl, rfl, rfl⟩
  obtain ⟨accounts', t', b', hloop⟩ :=
    haccepted.2 repeatedRow accounts 0 repeatedRow_takes (by rfl) hlock hverify
  exact ⟨haccepted.1, accounts, accounts', t', b', hlength, hloop⟩

end PgLedger
