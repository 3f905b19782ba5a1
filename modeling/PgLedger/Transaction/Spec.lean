import Mathlib.Data.List.Dedup
import PgLedger.Ledger
import PgLedger.Spi.Effects

/-!
# PgLedger.Transaction.Spec

One specification lemma for each part of the posting engine, in the form
"if it succeeds, then …".  The posting loop is followed through the accounts
it holds in memory: they track the rows in the tables (`Tracks`), and every
turn moves one account and its journal forward together.
-/

namespace PgLedger

/-- What the postings move on an account. -/
def movedUnits (postings : List LedgerPosting) (id : Uuid) : Int :=
  ((postings.filter (·.accountId = id)).map (·.amount.units)).sum

theorem movedUnits_cons (posting : LedgerPosting) (postings : List LedgerPosting) (id : Uuid) :
    movedUnits (posting :: postings) id =
      (if posting.accountId = id then posting.amount.units else 0) + movedUnits postings id := by
  by_cases h : posting.accountId = id
  · simp [movedUnits, h]
  · simp [movedUnits, h]

/-! ## validation -/

theorem addPostings_eq_ok {postings : List LedgerPosting}
    {totals totals' : List (LedgerAsset × Int)}
    (h : postings.foldlM addPosting totals = .ok totals') :
    (∀ p ∈ postings, p.amount.units ≠ 0) ∧
      totals' = postings.foldl
        (Assoc.addTotal (fun p => p.amount.asset) fun p => p.amount.units) totals := by
  induction postings generalizing totals with
  | nil =>
      obtain rfl := Except.ok.inj h
      exact ⟨fun _ hp => absurd hp List.not_mem_nil, rfl⟩
  | cons p postings ih =>
      rw [List.foldlM_cons, bind_eq_ok] at h
      obtain ⟨totals₁, hstep, hrest⟩ := h
      rw [addPosting, guard_eq_ok] at hstep
      obtain ⟨hne, hstep⟩ := hstep
      obtain ⟨hnes, htotals⟩ := ih hrest
      constructor
      · exact List.forall_mem_cons.mpr ⟨hne, hnes⟩
      · rw [List.foldl_cons, Except.ok.inj hstep]
        exact htotals

/-- Postings that pass are at least two, none is zero, and they cancel out
for every asset. -/
theorem validatePostings_eq_ok {postings : List LedgerPosting}
    (h : validatePostings postings = .ok ()) :
    2 ≤ postings.length ∧ (∀ p ∈ postings, p.amount.units ≠ 0) ∧
      ∀ asset, ((postings.filter (·.amount.asset = asset)).map (·.amount.units)).sum = 0 := by
  rw [validatePostings, guard_eq_ok] at h
  obtain ⟨hlen, h⟩ := h
  obtain ⟨totals, htotals, h⟩ := bind_eq_ok.mp h
  obtain ⟨hne, heq⟩ := addPostings_eq_ok htotals
  refine ⟨Nat.not_lt.mp hlen, hne, fun asset => ?_⟩
  dsimp only at h
  have hzero : ∀ e ∈ totals, e.2 = 0 := by
    intro e he
    split at h
    · contradiction
    · next hnone =>
      have hall := List.find?_eq_none.mp hnone e (List.mem_insertionSort _ |>.mpr he)
      simpa using hall
  have htotal : Assoc.total totals asset = 0 := by
    rw [Assoc.total]
    cases hlookup : totals.lookup asset with
    | none => rfl
    | some v => exact hzero (asset, v) (Assoc.mem_of_lookup hlookup)
  rw [heq, Assoc.total_foldl] at htotal
  simpa [Assoc.total] using htotal

/-- And nothing else is asked of them. -/
theorem validatePostings_ok {postings : List LedgerPosting} (hlen : 2 ≤ postings.length)
    (hne : ∀ p ∈ postings, p.amount.units ≠ 0)
    (hbalanced : ∀ asset,
      ((postings.filter (·.amount.asset = asset)).map (·.amount.units)).sum = 0) :
    validatePostings postings = .ok () := by
  have hfold (totals : List (LedgerAsset × Int)) : postings.foldlM addPosting totals =
      .ok (postings.foldl (Assoc.addTotal (fun p => p.amount.asset) fun p => p.amount.units)
        totals) := by
    clear hlen hbalanced
    induction postings generalizing totals with
    | nil => rfl
    | cons p postings ih =>
        rw [List.forall_mem_cons] at hne
        rw [List.foldlM_cons, addPosting, if_neg hne.1, ok_bind, ih hne.2, List.foldl_cons]
  rw [validatePostings, if_neg (Nat.not_lt.mpr hlen), hfold, ok_bind]
  dsimp only
  split
  · next asset total hfound =>
    -- the total of every asset is the sum of its postings
    have hmem := (List.mem_insertionSort _).mp (List.mem_of_find?_eq_some hfound)
    have hnodup : ((([] : List (LedgerAsset × Int))).map Prod.fst).Nodup := List.nodup_nil
    have htotal := Assoc.total_foldl (fun p : LedgerPosting => p.amount.asset)
      (fun p => p.amount.units) postings [] asset
    rw [Assoc.total, Assoc.lookup_of_mem (Assoc.nodup_foldl _ _ _ hnodup) hmem,
      hbalanced asset] at htotal
    have hzero : total = 0 := by simpa [Assoc.total] using htotal
    have hne0 := List.find?_some hfound
    simp [hzero] at hne0
  · rfl

/-! ## locking -/

/-- The accounts in memory are the rows of the tables. -/
def Tracks (accounts : AccountMap) (t : Tables) : Prop :=
  ∀ id account, accounts.lookup id = some account →
    ∃ row, t.account? id = some row ∧ row.state = account

theorem mem_accountIds {postings : List LedgerPosting} {id : Uuid} :
    id ∈ accountIds postings ↔ ∃ p ∈ postings, p.accountId = id := by
  rw [accountIds, List.mem_insertionSort, List.mem_dedup, List.mem_map]

section
variable {env : Env} {t t' : Tables} {b b' : Backend}

theorem selectForUpdate_run (ids : List Uuid) :
    (selectForUpdate ids).run env t b = .ok (ids.filterMap t.account?, t, b) := by
  induction ids with
  | nil => rfl
  | cons id ids ih =>
      rw [selectForUpdate, Spi.run_bind, Spi.run_send]
      simp only [Stmt.eval, ok_bind, Tables.applyAll_nil]
      rw [Spi.run_bind, ih]
      cases h : t.account? id with
      | none => simp [h]
      | some row => simp [h]

/-- The rows that were selected, under their identifiers. -/
theorem lookup_selected (t : Tables) (ids : List Uuid) (id : Uuid) :
    ((ids.filterMap t.account?).map fun row => (row.id, row.state)).lookup id =
      if id ∈ ids then (t.account? id).map (·.state) else none := by
  induction ids with
  | nil => rfl
  | cons id₁ ids ih =>
      cases h : t.account? id₁ with
      | none =>
          rw [List.filterMap_cons_none h, ih]
          by_cases hid : id = id₁
          · subst hid
            simp [h]
          · simp [hid]
      | some row =>
          rw [List.filterMap_cons_some h, List.map_cons, List.lookup_cons, ih,
            Tables.id_of_account? h]
          by_cases hid : id = id₁
          · subst hid
            simp [h]
          · have hne : (id == id₁) = false := by simpa using hid
            simp [hne, hid]

/-- Locking succeeds when every account exists, and reads the rows as they
are. -/
theorem lockAccounts_run_ok {postings : List LedgerPosting} {accounts : AccountMap}
    (h : (lockAccounts postings).run env t b = .ok (accounts, t', b')) :
    t' = t ∧ b' = b ∧ (∀ p ∈ postings, ∃ row, t.account? p.accountId = some row) ∧
      ∀ id, accounts.lookup id =
        if id ∈ accountIds postings then (t.account? id).map (·.state) else none := by
  rw [lockAccounts, Spi.run_bind, selectForUpdate_run, ok_bind] at h
  dsimp only at h
  split at h
  · contradiction
  · next hlen =>
    have hall := List.filterMap_length_eq_length.mp (not_not.mp hlen)
    obtain ⟨rfl, rfl, rfl⟩ : _ = accounts ∧ t = t' ∧ b = b' := by simpa using Except.ok.inj h
    refine ⟨rfl, rfl, fun p hp => ?_, lookup_selected t _⟩
    exact Option.isSome_iff_exists.mp (hall _ (mem_accountIds.mpr ⟨p, hp, rfl⟩))

/-- Where every account exists, the accounts are locked under their distinct
identifiers. -/
theorem lockAccounts_run_exist {postings : List LedgerPosting}
    (h : ∀ p ∈ postings, ∃ row, t.account? p.accountId = some row) :
    ∃ accounts, (lockAccounts postings).run env t b = .ok (accounts, t, b) ∧
      (accounts.map Prod.fst).Nodup := by
  have hall : ∀ id ∈ accountIds postings, (t.account? id).isSome := by
    intro id hid
    obtain ⟨p, hp, rfl⟩ := mem_accountIds.mp hid
    exact Option.isSome_iff_exists.mpr (h p hp)
  have hids (ids : List Uuid) (hids : ∀ id ∈ ids, (t.account? id).isSome) :
      (ids.filterMap t.account?).map (·.id) = ids := by
    induction ids with
    | nil => rfl
    | cons id ids ih =>
        rw [List.forall_mem_cons] at hids
        obtain ⟨row, hrow⟩ := Option.isSome_iff_exists.mp hids.1
        rw [List.filterMap_cons_some hrow, List.map_cons, ih hids.2, Tables.id_of_account? hrow]
  have hnodup : (accountIds postings).Nodup :=
    (List.perm_insertionSort _ _).nodup_iff.mpr (List.nodup_dedup _)
  refine ⟨((accountIds postings).filterMap t.account?).map fun row => (row.id, row.state), ?_, ?_⟩
  · rw [lockAccounts, Spi.run_bind, selectForUpdate_run, ok_bind]
    dsimp only
    rw [if_neg (not_not.mpr (List.filterMap_length_eq_length.mpr hall))]
    rfl
  · rw [List.map_map]
    exact (hids _ hall).symm ▸ hnodup

/-! ## the statements sent -/

section
variable {P : Stmt → Prop}

theorem selectForUpdate_all (hlock : ∀ id, P (.lockAccount id)) (ids : List Uuid) :
    (selectForUpdate ids).All P := by
  induction ids with
  | nil => trivial
  | cons id ids ih => exact .bind (.send (hlock id)) fun _ => .bind ih fun _ => trivial

/-- Locking sends nothing but locks. -/
theorem lockAccounts_all (hlock : ∀ id, P (.lockAccount id)) (postings : List LedgerPosting) :
    (lockAccounts postings).All P := by
  refine .bind (selectForUpdate_all hlock _) fun rows => ?_
  split
  · trivial
  · trivial

/-- The posting loop sends updates of accounts and inserts of entries. -/
theorem postAll_all (hupdate : ∀ balance version id, P (.updateAccount balance version id))
    (hinsert : ∀ v, P (.insertEntry v)) (transactionId : Uuid) (createdAt : Timestamp)
    (postings : List LedgerPosting) (accounts : AccountMap) :
    (postAll transactionId createdAt accounts postings).All P := by
  induction postings generalizing accounts with
  | nil => trivial
  | cons posting postings ih =>
      refine .bind ?_ fun accounts => ih accounts
      unfold postOne
      split
      · trivial
      · exact .bind (.ofExcept _) fun _ => .bind (.send (hupdate _ _ _)) fun _ =>
          .bind (.send (hinsert _)) fun _ => trivial

end

/-! ## final balances -/

section
variable {crates : Crates} {accounts : AccountMap}

/-- A posting is added to the balance of its account, which must be locked
and of its asset. -/
theorem addToBalance_eq_ok {balances balances' : List (Uuid × LedgerAmount)}
    {posting : LedgerPosting} (h : addToBalance crates accounts balances posting = .ok balances') :
    ∃ account balance, accounts.lookup posting.accountId = some account ∧
      posting.amount.asset = account.asset ∧ balances.lookup posting.accountId = some balance ∧
      balances' = Assoc.modify balances posting.accountId
        fun _ => ⟨balance.asset, balance.units + posting.amount.units⟩ := by
  simp only [addToBalance] at h
  cases haccount : accounts.lookup posting.accountId with
  | none =>
      simp only [haccount] at h
      contradiction
  | some account =>
      simp only [haccount] at h
      obtain ⟨hasset, h⟩ := guard_eq_ok.mp h
      cases hbalance : balances.lookup posting.accountId with
      | none =>
          simp only [hbalance] at h
          contradiction
      | some balance =>
          simp only [hbalance] at h
          obtain ⟨sum, hsum, h⟩ := bind_eq_ok.mp h
          obtain ⟨-, rfl⟩ := LedgerAmount.checkedAdd_eq_ok.mp (mapError_eq_ok.mp hsum)
          exact ⟨account, balance, rfl, not_not.mp hasset, rfl, (Except.ok.inj h).symm⟩

/-- The fold ends with every balance moved by the postings of its account. -/
theorem addToBalances_eq_ok {postings : List LedgerPosting}
    {balances balances' : List (Uuid × LedgerAmount)}
    (h : postings.foldlM (addToBalance crates accounts) balances = .ok balances') :
    (∀ p ∈ postings, ∃ account, accounts.lookup p.accountId = some account ∧
      p.amount.asset = account.asset) ∧
    balances'.map Prod.fst = balances.map Prod.fst ∧
    ∀ id, balances'.lookup id = (balances.lookup id).map fun balance =>
      ⟨balance.asset, balance.units + movedUnits postings id⟩ := by
  induction postings generalizing balances with
  | nil =>
      obtain rfl := Except.ok.inj h
      refine ⟨fun _ hp => absurd hp List.not_mem_nil, rfl, fun id => ?_⟩
      simp [movedUnits]
  | cons p postings ih =>
      rw [List.foldlM_cons, bind_eq_ok] at h
      obtain ⟨balances₁, hstep, hrest⟩ := h
      obtain ⟨account, balance, haccount, hasset, hbalance, rfl⟩ := addToBalance_eq_ok hstep
      obtain ⟨hassets, hkeys, hlookup⟩ := ih hrest
      refine ⟨List.forall_mem_cons.mpr ⟨⟨account, haccount, hasset⟩, hassets⟩, ?_, fun id => ?_⟩
      · rw [hkeys, Assoc.keys_modify]
      · rw [hlookup, Assoc.lookup_modify, movedUnits_cons]
        by_cases hid : id = p.accountId
        · subst hid
          simp [hbalance, Int.add_assoc]
        · simp [hid, Ne.symm hid]

/-- What `verifyFinalBalances` lets through: every posting is of the asset of
its locked account, and every final balance is within its policy. -/
theorem verifyFinalBalances_eq_ok {postings : List LedgerPosting}
    (h : verifyFinalBalances crates postings accounts = .ok ()) :
    ∃ balances, finalBalances crates postings accounts = .ok balances ∧
      ∀ id balance account, balances.lookup id = some balance →
        accounts.lookup id = some account → account.policy.Admits balance.units := by
  simp only [verifyFinalBalances] at h
  obtain ⟨balances, hbalances, h⟩ := bind_eq_ok.mp h
  refine ⟨balances, hbalances, fun id balance account hbalance haccount => ?_⟩
  have hcheck := forM_eq_ok.mp h (id, balance) (Assoc.mem_of_lookup hbalance)
  simp only [checkPolicy, haccount] at hcheck
  split at hcheck
  · assumption
  · contradiction

/-- The final balance of an account is its balance moved by its postings. -/
theorem finalBalances_eq_ok {postings : List LedgerPosting} {balances : List (Uuid × LedgerAmount)}
    (h : finalBalances crates postings accounts = .ok balances) :
    (∀ p ∈ postings, ∃ account, accounts.lookup p.accountId = some account ∧
      p.amount.asset = account.asset) ∧
    ∀ id, balances.lookup id = (accounts.lookup id).map fun account =>
      ⟨account.balance.asset, account.balance.units + movedUnits postings id⟩ := by
  obtain ⟨hassets, -, hlookup⟩ := addToBalances_eq_ok h
  refine ⟨hassets, fun id => ?_⟩
  have hstart : (accounts.map fun e => (e.1, e.2.balance)).lookup id =
      (accounts.lookup id).map (·.balance) := Assoc.lookup_map accounts (·.balance) id
  rw [hlookup, hstart, Option.map_map]
  rfl

/-- Postings of the assets of their accounts add up. -/
theorem addToBalances_ok {postings : List LedgerPosting} {balances : List (Uuid × LedgerAmount)}
    (h : ∀ p ∈ postings, ∃ account balance, accounts.lookup p.accountId = some account ∧
      p.amount.asset = account.asset ∧ balances.lookup p.accountId = some balance ∧
      balance.asset = account.asset) :
    ∃ balances', postings.foldlM (addToBalance crates accounts) balances = .ok balances' := by
  induction postings generalizing balances with
  | nil => exact ⟨balances, rfl⟩
  | cons p postings ih =>
      rw [List.forall_mem_cons] at h
      obtain ⟨⟨account, balance, haccount, hasset, hbalance, hsame⟩, hrest⟩ := h
      have hadd : balance.checkedAdd p.amount =
          .ok ⟨balance.asset, balance.units + p.amount.units⟩ :=
        LedgerAmount.checkedAdd_eq_ok.mpr ⟨hsame.trans hasset.symm, rfl⟩
      have hstep : addToBalance crates accounts balances p = .ok (Assoc.modify balances p.accountId
          fun _ => ⟨balance.asset, balance.units + p.amount.units⟩) := by
        simp only [addToBalance, haccount, hbalance, hasset, ne_eq, not_true_eq_false, if_false,
          hadd]
        rfl
      rw [List.foldlM_cons, hstep, ok_bind]
      refine ih fun q hq => ?_
      obtain ⟨account', balance', haccount', hasset', hbalance', hsame'⟩ := hrest q hq
      rw [Assoc.lookup_modify]
      by_cases hid : q.accountId = p.accountId
      · rw [if_pos hid, hbalance', Option.map_some]
        rw [hid, haccount] at haccount'
        obtain rfl := Option.some.inj haccount'
        exact ⟨account, _, by rw [hid, haccount], hasset', rfl, hsame⟩
      · rw [if_neg hid]
        exact ⟨account', balance', haccount', hasset', hbalance', hsame'⟩

/-- Final balances can be computed for postings of the assets of their
accounts. -/
theorem finalBalances_ok {postings : List LedgerPosting}
    (hbalance : ∀ e ∈ accounts, e.2.balance.asset = e.2.asset)
    (hassets : ∀ p ∈ postings, ∃ account, accounts.lookup p.accountId = some account ∧
      p.amount.asset = account.asset) :
    ∃ balances, finalBalances crates postings accounts = .ok balances := by
  have hstart (id : Uuid) : (accounts.map fun e => (e.1, e.2.balance)).lookup id =
      (accounts.lookup id).map (·.balance) := Assoc.lookup_map accounts (·.balance) id
  refine addToBalances_ok fun p hp => ?_
  obtain ⟨account, haccount, hasset⟩ := hassets p hp
  refine ⟨account, account.balance, haccount, hasset, ?_, hbalance _ (Assoc.mem_of_lookup haccount)⟩
  rw [hstart, haccount, Option.map_some]

/-- The check passes when the postings are of the assets of their accounts
and every balance, moved by its postings, is within its policy. -/
theorem verifyFinalBalances_ok {postings : List LedgerPosting}
    (hnodup : (accounts.map Prod.fst).Nodup)
    (hbalance : ∀ e ∈ accounts, e.2.balance.asset = e.2.asset)
    (hassets : ∀ p ∈ postings, ∃ account, accounts.lookup p.accountId = some account ∧
      p.amount.asset = account.asset)
    (hpolicies : ∀ e ∈ accounts,
      e.2.policy.Admits (e.2.balance.units + movedUnits postings e.1)) :
    verifyFinalBalances crates postings accounts = .ok () := by
  obtain ⟨balances, hbalances⟩ : ∃ balances, finalBalances crates postings accounts =
      .ok balances := finalBalances_ok hbalance hassets
  have hkeys : balances.map Prod.fst = accounts.map Prod.fst := by
    rw [(addToBalances_eq_ok hbalances).2.1, List.map_map]
    rfl
  rw [verifyFinalBalances, hbalances, ok_bind]
  refine forM_eq_ok.mpr fun e he => ?_
  obtain ⟨id, balance⟩ := e
  have hlookup := Assoc.lookup_of_mem (hkeys ▸ hnodup) he
  rw [(finalBalances_eq_ok hbalances).2, Option.map_eq_some_iff] at hlookup
  obtain ⟨account, haccount, rfl⟩ := hlookup
  rw [checkPolicy, haccount]
  exact if_pos (hpolicies _ (Assoc.mem_of_lookup haccount))

end

end

end PgLedger
