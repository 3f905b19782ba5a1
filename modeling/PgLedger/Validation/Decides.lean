import Mathlib.Data.List.Perm.Subperm
import PgLedger.Posting.RoundTrip
import PgLedger.Validation

/-!
# PgLedger.Validation.Decides

What the integrity queries decide.  Every query alone looks at less than its
rule says: the versions of an account are only counted and bounded, a balance
is only compared with the balance one row before, and a reversal is compared
by groups.  Together with the constraints of the schema they find nothing
exactly when the ledger is sound (`ledgerValidate_decides`).
-/

namespace PgLedger

open Sql

/-- What the integrity queries look for. -/
structure Tables.LedgerInvariant (t : Tables) : Prop where
  balanced : t.Balanced
  historiesHold : t.HistoriesHold
  reversalsExact : t.ReversalsExact

/-- Every stored number of units fits into a `numeric`. -/
structure Tables.UnitsInRange (t : Tables) : Prop where
  balances : ∀ a ∈ t.accounts, InNumericRange a.balance.units
  amounts : ∀ e ∈ t.entries, InNumericRange e.amount.units

variable {t : Tables}

/-! ## numbers -/

/-- `ledger_amount_units` of a number in range gives that number. -/
theorem ledgerAmountUnits_ok {value : LedgerAmount} (h : InNumericRange value.units) :
    ledgerAmountUnits value = .ok value.units := by
  rw [ledgerAmountUnits, if_pos h]

/-- A number with few digits is in range. -/
theorem inNumericRange_of_lt {units : Int} {k : Nat} (hk : k ≤ numericDigits)
    (h : units.natAbs < 10 ^ k) : InNumericRange units :=
  Nat.lt_of_lt_of_le h (Nat.pow_le_pow_right (by decide) hk)

/-- Zero is in range. -/
theorem inNumericRange_zero : InNumericRange 0 :=
  inNumericRange_of_lt (Nat.zero_le numericDigits) (by decide)

/-- A sum, with zero for no rows, is what the numbers add up to, if that fits. -/
theorem sumUnits_eq_ok {entries : List EntryRow} (h : ∀ e ∈ entries, InNumericRange e.amount.units)
    {total : Option Int} : sumUnits entries = .ok total ↔
      (entries = [] ∧ total = none) ∨
        (entries ≠ [] ∧ InNumericRange (entries.map (·.amount.units)).sum ∧
          total = some (entries.map (·.amount.units)).sum) := by
  have hunits : entries.mapM (fun e => ledgerAmountUnits e.amount) =
      .ok (entries.map (·.amount.units)) := mapM_ok fun e he => ledgerAmountUnits_ok (h e he)
  rw [sumUnits, hunits, ok_bind, sumNumeric]
  by_cases hempty : entries = []
  · simp [hempty, eq_comm]
  · have hmap : entries.map (·.amount.units) ≠ [] := by simpa using hempty
    rw [if_neg hmap]
    by_cases hrange : InNumericRange (entries.map (·.amount.units)).sum
    · simp [hempty, hrange, eq_comm]
    · simp [hempty, hrange]

/-- The entries of an account are those that name it. -/
theorem mem_accountEntries {id : Uuid} {e : EntryRow} :
    e ∈ t.accountEntries id ↔ e ∈ t.entries ∧ e.accountId = id := by
  simp [Tables.accountEntries]

/-- The entries of a transaction are those that name it. -/
theorem mem_transactionEntries {id : Uuid} {e : EntryRow} :
    e ∈ t.transactionEntries id ↔ e ∈ t.entries ∧ e.transactionId = id := by
  simp [Tables.transactionEntries]

/-! ## transactions -/

/-- The sum of a group is zero, or the group is empty. -/
theorem sumUnits_ne_zero_iff {entries : List EntryRow}
    (h : ∀ e ∈ entries, InNumericRange e.amount.units) :
    (∃ c, (do
      let total ← sumUnits entries
      .ok (ne total (some 0)) : Except PgError Truth) = .ok c ∧ c ≠ some true) ↔
      (entries.map (·.amount.units)).sum = 0 := by
  constructor
  · intro hpass
    obtain ⟨c, hc, hfalse⟩ := hpass
    obtain ⟨total, htotal, hcond⟩ := bind_eq_ok.mp hc
    obtain rfl := Except.ok.inj hcond
    rcases (sumUnits_eq_ok h).mp htotal with ⟨rfl, -⟩ | ⟨-, -, rfl⟩
    · rfl
    · simpa using hfalse
  · intro hzero
    by_cases hempty : entries = []
    · have htotal := (sumUnits_eq_ok h).mpr (.inl ⟨hempty, rfl⟩)
      rw [htotal]
      exact ⟨_, rfl, by simp⟩
    · have hrange : InNumericRange (entries.map (·.amount.units)).sum := by
        rw [hzero]
        exact inNumericRange_zero
      have htotal := (sumUnits_eq_ok h).mpr (.inr ⟨hempty, hrange, rfl⟩)
      rw [htotal]
      exact ⟨_, rfl, by simp [hzero]⟩

/-- `transaction_balance` counts zero exactly when every transaction moves zero
of every asset. -/
theorem transactionBalance_iff (hrange : t.UnitsInRange) :
    transactionBalance t = .ok 0 ↔ ∀ id asset, t.netUnits id asset = 0 := by
  rw [transactionBalance, countWhere_eq_zero, forall_groupBy]
  have hgroup (id : Uuid) (asset : LedgerAsset) :
      t.entries.filter (fun e => (e.transactionId, e.amount.asset) = (id, asset)) =
        (t.transactionEntries id).filter (fun e => e.amount.asset = asset) := by
    rw [Tables.transactionEntries, List.filter_filter]
    refine List.filter_congr fun e _ => ?_
    simp [and_comm]
  have hsmall (id : Uuid) (asset : LedgerAsset) :
      ∀ e ∈ (t.transactionEntries id).filter (fun e => e.amount.asset = asset),
        InNumericRange e.amount.units := by
    intro e he
    exact hrange.amounts e (mem_transactionEntries.mp (List.mem_of_mem_filter he)).1
  constructor
  · intro h id asset
    cases hentries : (t.transactionEntries id).filter (fun e => e.amount.asset = asset) with
    | nil => rw [Tables.netUnits, hentries, List.map_nil, List.sum_nil]
    | cons e es =>
        have he : e ∈ (t.transactionEntries id).filter (fun e => e.amount.asset = asset) := by
          rw [hentries]
          exact List.mem_cons_self
        obtain ⟨hmem, hasset⟩ := List.mem_filter.mp he
        obtain ⟨hentry, rfl⟩ := mem_transactionEntries.mp hmem
        obtain rfl : e.amount.asset = asset := by simpa using hasset
        have hpass := h e hentry
        rw [hgroup] at hpass
        exact (sumUnits_ne_zero_iff (hsmall _ _)).mp hpass
  · intro h e _
    rw [hgroup]
    exact (sumUnits_ne_zero_iff (hsmall _ _)).mpr (h e.transactionId e.amount.asset)

/-- `minimum_entries` counts zero exactly when every transaction has two
entries. -/
theorem minimumEntries_iff (hconstrained : t.Constrained) :
    minimumEntries t = .ok 0 ↔ ∀ id ∈ t.transactionIds, 2 ≤ (t.transactionEntries id).length := by
  rw [minimumEntries, countWhere_eq_zero_of_ok fun _ _ => rfl, forall_groupBy]
  have hgroup (row : TransactionRow) (hrow : row ∈ t.transactions) :
      ((leftJoin (fun row e => e.transactionId = row.id) t.transactions t.entries).filter
        fun p => p.1.id = row.id).filterMap (·.2) = t.transactionEntries row.id :=
    filterMap_leftJoin hconstrained.transactionIds hrow
  constructor
  · intro h id hid
    obtain ⟨row, hrow, rfl⟩ := List.mem_map.mp hid
    have hkept : ∃ p ∈ leftJoin (fun row e => e.transactionId = row.id) t.transactions t.entries,
        p.1 = row := leftJoin_keeps hrow
    obtain ⟨p, hp, rfl⟩ := hkept
    have hcount := h p hp
    rw [hgroup p.1 hrow] at hcount
    exact not_lt.mp (mt Truth.of_eq_true.mpr hcount)
  · intro h p hp
    have hrow := fst_mem_of_leftJoin hp
    rw [hgroup p.1 hrow]
    have htwo := h p.1.id (List.mem_map_of_mem hrow)
    exact mt Truth.of_eq_true.mp (not_lt.mpr htwo)

/-- Two of the queries together decide whether the transactions balance. -/
theorem balanced_iff (hconstrained : t.Constrained) (hrange : t.UnitsInRange) :
    t.Balanced ↔ transactionBalance t = .ok 0 ∧ minimumEntries t = .ok 0 := by
  rw [transactionBalance_iff hrange, minimumEntries_iff hconstrained]
  constructor
  · intro h
    refine ⟨fun id asset => ?_, fun id hid => (h id hid).twoEntries⟩
    by_cases hid : id ∈ t.transactionIds
    · exact (h id hid).balanced asset
    · have hnone : t.transactionEntries id = [] := by
        rw [Tables.transactionEntries, List.filter_eq_nil_iff]
        intro e he
        have hne : e.transactionId ≠ id := fun heq =>
          hid (heq ▸ hconstrained.entryTransactions e he)
        simpa using hne
      rw [Tables.netUnits, hnone, List.filter_nil, List.map_nil, List.sum_nil]
  · intro h id hid
    exact ⟨h.2 id hid, h.1 id⟩

/-! ## accounts -/

/-- `cached_balances` counts zero exactly when every balance is the sum of the
entries. -/
theorem cachedBalances_iff (hrange : t.UnitsInRange) : cachedBalances t = .ok 0 ↔
    ∀ a ∈ t.accounts, a.balance.units = ((t.accountEntries a.id).map (·.amount.units)).sum := by
  rw [cachedBalances, countWhere_eq_zero]
  refine forall₂_congr fun a ha => ?_
  have hsmall : ∀ e ∈ t.accountEntries a.id, InNumericRange e.amount.units := fun e he =>
    hrange.amounts e (mem_accountEntries.mp he).1
  rw [ledgerAmountUnits_ok (hrange.balances a ha), ok_bind]
  constructor
  · intro hpass
    obtain ⟨c, hc, hfalse⟩ := hpass
    obtain ⟨total, htotal, hcond⟩ := bind_eq_ok.mp hc
    obtain rfl := Except.ok.inj hcond
    rcases (sumUnits_eq_ok hsmall).mp htotal with ⟨hempty, rfl⟩ | ⟨-, -, rfl⟩
    · rw [hempty]
      simpa using hfalse
    · simpa using hfalse
  · intro hsum
    by_cases hempty : t.accountEntries a.id = []
    · have htotal := (sumUnits_eq_ok hsmall).mpr (.inl ⟨hempty, rfl⟩)
      rw [hempty] at hsum
      rw [htotal]
      exact ⟨_, rfl, by simpa using hsum⟩
    · have hfits : InNumericRange ((t.accountEntries a.id).map (·.amount.units)).sum := by
        rw [← hsum]
        exact hrange.balances a ha
      have htotal := (sumUnits_eq_ok hsmall).mpr (.inr ⟨hempty, hfits, rfl⟩)
      rw [htotal]
      exact ⟨_, rfl, by simpa using hsum⟩

/-- Counting and bounding distinct positive versions is enough: there are as
many of them as the version says, and none of them is above it. -/
theorem versionViolation_iff {version : Int} {versions : List Int} (hnodup : versions.Nodup)
    (hpositive : ∀ v ∈ versions, 0 < v) : versionViolation version versions ≠ some true ↔
      version = versions.length ∧
        versions.Perm ((List.range versions.length).map fun i : Nat => (i : Int) + 1) := by
  have hgroups : ¬ ∃ g ∈ groupBy id versions, 1 < g.2.length := by
    intro h
    obtain ⟨g, hg, hmany⟩ := h
    have hone := length_of_mem_groupBy (by simpa using hnodup) hg
    omega
  have hrange (v : Int) : v ∈ (List.range versions.length).map (fun i : Nat => (i : Int) + 1) ↔
      0 < v ∧ v ≤ versions.length := by
    rw [List.mem_map]
    constructor
    · intro h
      obtain ⟨i, hi, rfl⟩ := h
      have hlt := List.mem_range.mp hi
      omega
    · intro h
      refine ⟨(v - 1).toNat, List.mem_range.mpr ?_, ?_⟩
      · omega
      · omega
  simp only [versionViolation, ne_eq, Truth.or_eq_true, Truth.and_eq_true, Truth.of_eq_true,
    ne_eq_true, hgroups, or_false, not_or, not_and, not_exists, Option.some.injEq, not_not]
  constructor
  · intro h
    obtain ⟨hcount, hbounds⟩ := h
    have hcount' : version = versions.length := hcount version _ rfl rfl
    refine ⟨hcount', ?_⟩
    have hsubset : versions ⊆ (List.range versions.length).map fun i : Nat => (i : Int) + 1 := by
      intro v hv
      have hlen : 0 < versions.length := List.length_pos_of_mem hv
      obtain ⟨highest, hhighest⟩ := Option.isSome_iff_exists.mp (List.isSome_max?_of_mem hv)
      have hsame : highest = version := (hbounds (by omega)).2 highest version hhighest rfl
      have hle := (List.max?_eq_some_iff.mp hhighest).2 v hv
      exact (hrange v).mpr ⟨hpositive v hv, by omega⟩
    exact (List.subperm_of_subset hnodup hsubset).perm_of_length_le (by simp)
  · intro h
    obtain ⟨hcount, hperm⟩ := h
    have hmem (v : Int) : v ∈ versions ↔ 0 < v ∧ v ≤ versions.length := by
      rw [hperm.mem_iff, hrange]
    refine ⟨fun a b ha hb => by omega, fun hpos =>
      ⟨fun a b hlowest hb => ?_, fun a b hhighest hb => ?_⟩⟩
    · obtain ⟨hin, hle⟩ := List.min?_eq_some_iff.mp hlowest
      have hone := hle 1 ((hmem 1).mpr (by omega))
      have hpos' := (hmem a).mp hin
      omega
    · obtain ⟨hin, hle⟩ := List.max?_eq_some_iff.mp hhighest
      have hlast := hle version ((hmem version).mpr (by omega))
      have hbound := (hmem a).mp hin
      omega

/-- The versions of the entries of an account, each once. -/
def Tables.VersionsHold (t : Tables) (a : AccountRow) : Prop :=
  a.version.toInt = (t.accountEntries a.id).length ∧
    ((t.accountEntries a.id).map (·.accountVersion.toInt)).Perm
      ((List.range (t.accountEntries a.id).length).map fun i : Nat => (i : Int) + 1)

/-- By the unique constraint no version occurs twice in the entries of an
account. -/
theorem nodup_versions_of_constrained (h : t.Constrained) (id : Uuid) :
    ((t.accountEntries id).map (·.accountVersion.toInt)).Nodup := by
  refine List.Nodup.map_on ?_ ?_
  · intro d hd e he heq
    obtain ⟨hdin, hdid⟩ := mem_accountEntries.mp hd
    obtain ⟨hein, heid⟩ := mem_accountEntries.mp he
    have hversion : d.accountVersion = e.accountVersion := Int64.toInt_inj.mp heq
    exact List.inj_on_of_nodup_map h.entryVersions hdin hein (by rw [hdid, heid, hversion])
  · exact (List.Nodup.of_map _ h.entryVersions).filter _

/-- `version_sequence` counts zero exactly when the entries of every account
have the versions from one to the version of the account. -/
theorem versionSequence_iff (hconstrained : t.Constrained) :
    versionSequence t = .ok 0 ↔ ∀ a ∈ t.accounts, t.VersionsHold a := by
  rw [versionSequence, countWhere_eq_zero_of_ok fun _ _ => rfl]
  refine forall₂_congr fun a _ => ?_
  have hpositive : ∀ v ∈ (t.accountEntries a.id).map (·.accountVersion.toInt), 0 < v := by
    intro v hv
    obtain ⟨e, -, rfl⟩ := List.mem_map.mp hv
    exact e.versionCheck
  rw [versionViolation_iff (nodup_versions_of_constrained hconstrained a.id) hpositive,
    List.length_map]
  rfl

/-- The condition of `balance_chain` for one entry, read as two-valued: the
first entry starts at zero, any other where the one before it ended. -/
theorem chainViolation_ok (e : EntryRow) (prior : Option LedgerAmount) :
    ∃ c, chainViolation e prior = .ok c ∧ (c ≠ some true ↔
      (e.accountVersion.toInt = 1 → e.previousBalance.units = 0) ∧
        (1 < e.accountVersion.toInt → prior = some e.previousBalance)) := by
  have hsum :
      (e.previousBalance.checkedAdd e.amount).mapError failParameter = .ok e.currentBalance :=
    mapError_eq_ok.mpr e.sumCheck
  refine ⟨_, by rw [chainViolation, hsum]; rfl, ?_⟩
  simp only [ne_eq, Truth.or_eq_true, Truth.and_eq_true, Truth.of_eq_true, isDistinctFrom_eq_true,
    not_true, or_false, not_or, not_and, not_not]

/-- The entry one version below, in the same account. -/
def Tables.Below (t : Tables) (e below : EntryRow) : Prop :=
  below ∈ t.entries ∧ below.accountId = e.accountId ∧
    below.accountVersion.toInt + 1 = e.accountVersion.toInt

/-- `balance_chain` counts zero exactly when every entry starts where the entry
with the version before ended; that there is one takes `version_sequence`. -/
theorem balanceChain_iff (hconstrained : t.Constrained)
    (hversions : ∀ a ∈ t.accounts, t.VersionsHold a) :
    balanceChain t = .ok 0 ↔ ∀ e ∈ t.entries,
      (e.accountVersion.toInt = 1 → e.previousBalance.units = 0) ∧
        (1 < e.accountVersion.toInt →
          ∃ below, t.Below e below ∧ e.previousBalance = below.currentBalance) := by
  have hlag (p : EntryRow × Option LedgerAmount)
      (hp : p ∈ lag (·.accountId) (·.accountVersion.toInt) (·.currentBalance) t.entries)
      (he : p.1 ∈ t.entries) (hlater : 1 < p.1.accountVersion.toInt) :
      ∃ below, t.Below p.1 below ∧ p.2 = some below.currentBalance := by
    obtain ⟨a, ha, hid⟩ := List.mem_map.mp (hconstrained.entryAccounts p.1 he)
    have hperm := (hversions a ha).2
    rw [hid] at hperm
    rcases lag_spec hp hperm with ⟨hone, -⟩ | ⟨below, hin, hkey, horder, hvalue⟩
    · omega
    · exact ⟨below, ⟨hin, hkey, horder⟩, hvalue⟩
  rw [balanceChain, countWhere_eq_zero]
  constructor
  · intro h e he
    have hkept : ∃ prior,
        (e, prior) ∈ lag (·.accountId) (·.accountVersion.toInt) (·.currentBalance) t.entries :=
      lag_keeps he
    obtain ⟨prior, hprior⟩ := hkept
    obtain ⟨c, hc, hfalse⟩ := h _ hprior
    obtain ⟨c', hc', hiff⟩ := chainViolation_ok e prior
    obtain rfl : c = c' := Except.ok.inj (hc.symm.trans hc')
    obtain ⟨hone, hlater⟩ := hiff.mp hfalse
    refine ⟨hone, fun hversion => ?_⟩
    obtain ⟨below, hbelow, hvalue⟩ := hlag _ hprior he hversion
    rw [hlater hversion] at hvalue
    exact ⟨below, hbelow, Option.some.inj hvalue⟩
  · intro h p hp
    have he : p.1 ∈ t.entries := (mem_window.mp (fst_mem_of_lagFrom (mem_lag.mp hp))).1
    obtain ⟨c, hc, hiff⟩ := chainViolation_ok p.1 p.2
    refine ⟨c, hc, hiff.mpr ⟨(h p.1 he).1, fun hversion => ?_⟩⟩
    obtain ⟨below, ⟨hin, hkey, horder⟩, hvalue⟩ := hlag p hp he hversion
    obtain ⟨below', ⟨hin', hkey', horder'⟩, hprevious⟩ := (h p.1 he).2 hversion
    have hversion' : below.accountVersion = below'.accountVersion :=
      Int64.toInt_inj.mp (by omega)
    have hsame : below = below' :=
      List.inj_on_of_nodup_map hconstrained.entryVersions hin hin' (by rw [hkey, hkey', hversion'])
    rw [hvalue, hprevious, hsame]

/-- `asset_consistency` counts zero exactly when every entry is in the asset of
its account. -/
theorem assetConsistency_iff : assetConsistency t = .ok 0 ↔
    ∀ a ∈ t.accounts, ∀ e ∈ t.accountEntries a.id, e.amount.asset = a.asset := by
  rw [assetConsistency, countWhere_eq_zero_of_ok fun _ _ => rfl]
  constructor
  · intro h a ha e he
    obtain ⟨hin, hid⟩ := mem_accountEntries.mp he
    have hmem : (e, a) ∈ join (fun e a => a.id = e.accountId) t.entries t.accounts :=
      mem_join.mpr ⟨hin, ha, hid.symm⟩
    simpa using h (e, a) hmem
  · intro h p hp
    obtain ⟨hin, ha, hid⟩ := mem_join.mp hp
    have hasset := h p.2 ha p.1 (mem_accountEntries.mpr ⟨hin, hid.symm⟩)
    simpa using hasset

/-- **Histories**: four of the queries together. -/
theorem historiesHold_iff (hconstrained : t.Constrained) (hrange : t.UnitsInRange) :
    t.HistoriesHold ↔ cachedBalances t = .ok 0 ∧ versionSequence t = .ok 0 ∧
      balanceChain t = .ok 0 ∧ assetConsistency t = .ok 0 := by
  rw [cachedBalances_iff hrange, versionSequence_iff hconstrained, assetConsistency_iff]
  constructor
  · intro h
    have hversions : ∀ a ∈ t.accounts, t.VersionsHold a := fun a ha =>
      ⟨(h a ha).version, (h a ha).versions⟩
    refine ⟨fun a ha => ?_, hversions, (balanceChain_iff hconstrained hversions).mpr fun e he => ?_,
      fun a ha e he => ((h a ha).assets e he).1⟩
    · rw [(h a ha).balanceSum]
    · obtain ⟨a, ha, hid⟩ := List.mem_map.mp (hconstrained.entryAccounts e he)
      have hmem : e ∈ t.accountEntries a.id := mem_accountEntries.mpr ⟨he, hid.symm⟩
      constructor
      · intro hone
        rw [(h a ha).first e hmem hone]
        rfl
      · intro hlater
        obtain ⟨below, hbelow, horder, hprevious⟩ := (h a ha).later e hmem hlater
        obtain ⟨hin, hbelowid⟩ := mem_accountEntries.mp hbelow
        exact ⟨below, ⟨hin, hbelowid.trans hid, horder⟩, hprevious⟩
  · intro h a ha
    obtain ⟨hsums, hversions, hchain, hassets⟩ := h
    have hchained := (balanceChain_iff hconstrained hversions).mp hchain
    have hjournal : t.AccountJournal a := by
      refine ⟨Journal.of_chain ?_ ?_ ?_ ?_ ?_ ?_, hassets a ha⟩
      · rw [List.length_map]
        exact (hversions a ha).1
      · rw [List.map_map, List.length_map]
        exact (hversions a ha).2
      · intro m hm hone
        obtain ⟨e, he, rfl⟩ := List.mem_map.mp hm
        exact (hchained e (mem_accountEntries.mp he).1).1 hone
      · intro m hm hlater
        obtain ⟨e, he, rfl⟩ := List.mem_map.mp hm
        obtain ⟨hin, hid⟩ := mem_accountEntries.mp he
        obtain ⟨below, ⟨hbelow, hbelowid, horder⟩, hprevious⟩ := (hchained e hin).2 hlater
        refine ⟨below.movement,
          List.mem_map_of_mem (mem_accountEntries.mpr ⟨hbelow, hbelowid.trans hid⟩), horder, ?_⟩
        exact congrArg LedgerAmount.units hprevious
      · intro m hm
        obtain ⟨e, -, rfl⟩ := List.mem_map.mp hm
        exact e.units_current
      · rw [List.map_map]
        exact hsums a ha
    exact hjournal.history

/-! ## reversals -/

/-- What `reversal_consistency` groups by. -/
def LedgerPosting.moved (posting : LedgerPosting) : Uuid × LedgerAsset × Int :=
  (posting.accountId, posting.amount.asset, posting.amount.units)

/-- A posting is determined by the columns that `reversal_consistency`
compares. -/
theorem moved_injective : Function.Injective LedgerPosting.moved := by
  intro p q h
  obtain ⟨account, asset, units⟩ := p
  obtain ⟨account', asset', units'⟩ := q
  simpa [LedgerPosting.moved] using h

/-- The subqueries of `reversal_consistency` count how often a transaction
moves the same. -/
theorem movedCopies_ok (hrange : t.UnitsInRange) (id : Uuid) (sign : Int → Int) :
    movedCopies (t.transactionEntries id) sign = .ok
      (counted ((t.transactionEntries id).map fun e =>
      (e.accountId, e.amount.asset, sign e.amount.units))) := by
  have hkeys : (t.transactionEntries id).mapM (fun e => do
      let units ← ledgerAmountUnits e.amount
      .ok (e.accountId, e.amount.asset, sign units) : EntryRow → Except PgError _) =
      .ok ((t.transactionEntries id).map fun e =>
        (e.accountId, e.amount.asset, sign e.amount.units)) := by
    refine mapM_ok fun e he => ?_
    rw [ledgerAmountUnits_ok (hrange.amounts e (mem_transactionEntries.mp he).1), ok_bind]
  rw [movedCopies, hkeys, ok_bind]

/-- If one list reverses another, the other reverses the one. -/
theorem negate_perm_comm {ps qs : List LedgerPosting} (h : ps.Perm (qs.map (·.negate))) :
    qs.Perm (ps.map (·.negate)) := by
  have hnegated := h.map (·.negate)
  have hself : (qs.map (·.negate)).map (·.negate) = qs := by
    rw [List.map_map]
    exact (List.map_congr_left fun p _ => p.negate_negate).trans (List.map_id qs)
  rw [hself] at hnegated
  exact hnegated.symm

/-- `reversal_consistency` counts zero exactly when every reversal moves back
what its original moved. -/
theorem reversalConsistency_iff (hrange : t.UnitsInRange) :
    reversalConsistency t = .ok 0 ↔ t.ReversalsExact := by
  rw [reversalConsistency, countWhere_eq_zero, Tables.ReversalsExact]
  refine forall₂_congr fun r _ => ?_
  cases r.reversesTransactionId with
  | none => simp
  | some original =>
      have hkeys : ((t.transactionEntries original).map fun e =>
          (e.accountId, e.amount.asset, e.amount.units)) = (t.moves original).map (·.moved) := by
        rw [Tables.moves, List.map_map]
        rfl
      have hkeys' : ((t.transactionEntries r.id).map fun e =>
          (e.accountId, e.amount.asset, -e.amount.units)) =
            ((t.moves r.id).map (·.negate)).map (·.moved) := by
        rw [Tables.moves, List.map_map, List.map_map]
        rfl
      dsimp only
      rw [movedCopies_ok hrange, movedCopies_ok hrange, ok_bind, ok_bind, hkeys, hkeys']
      have hmatched : (∀ p ∈ fullJoin (counted ((t.moves original).map (·.moved)))
          (counted (((t.moves r.id).map (·.negate)).map (·.moved))), p.1.isSome ∧ p.2.isSome) ↔
          (t.moves original).Perm ((t.moves r.id).map (·.negate)) := by
        rw [fullJoin_matched, counted_same_iff, List.map_perm_map_iff moved_injective]
      have hcond :
          (∀ id, some original = some id → (t.moves r.id).Perm ((t.moves id).map (·.negate))) ↔
          (t.moves original).Perm ((t.moves r.id).map (·.negate)) := by
        constructor
        · intro h
          exact negate_perm_comm (h original rfl)
        · intro h id hid
          obtain rfl := Option.some.inj hid
          exact negate_perm_comm h
      rw [hcond, ← hmatched]
      simp [Option.isSome_iff_ne_none]

/-! ## the report -/

/-- The seven queries all count zero exactly when the invariant holds. -/
theorem checks_iff (hconstrained : t.Constrained) (hrange : t.UnitsInRange) :
    (∀ check ∈ checks, check.2 t = .ok 0) ↔ t.LedgerInvariant := by
  have hall : (∀ check ∈ checks, check.2 t = .ok 0) ↔
      (transactionBalance t = .ok 0 ∧ minimumEntries t = .ok 0) ∧
        (cachedBalances t = .ok 0 ∧ versionSequence t = .ok 0 ∧ balanceChain t = .ok 0 ∧
          assetConsistency t = .ok 0) ∧ reversalConsistency t = .ok 0 := by
    simp only [checks, List.forall_mem_cons, List.not_mem_nil, false_imp_iff, forall_const,
      and_true]
    constructor
    · intro h
      obtain ⟨htransactions, hcached, hversions, hchain, hminimum, hassets, hreversals⟩ := h
      exact ⟨⟨htransactions, hminimum⟩, ⟨hcached, hversions, hchain, hassets⟩, hreversals⟩
    · intro h
      obtain ⟨⟨htransactions, hminimum⟩, ⟨hcached, hversions, hchain, hassets⟩, hreversals⟩ := h
      exact ⟨htransactions, hcached, hversions, hchain, hminimum, hassets, hreversals⟩
  rw [hall, ← balanced_iff hconstrained hrange, ← historiesHold_iff hconstrained hrange,
    reversalConsistency_iff hrange]
  constructor
  · intro h
    exact ⟨h.1, h.2.1, h.2.2⟩
  · intro h
    exact ⟨h.balanced, h.historiesHold, h.reversalsExact⟩

/-- A line says `OK` when its query counts nothing. -/
theorem runCheck_status {check : String × (Tables → Except PgError Int)} :
    (∃ line, runCheck t check = .ok line ∧ line.status = "OK") ↔ check.2 t = .ok 0 := by
  constructor
  · intro h
    obtain ⟨line, hline, hstatus⟩ := h
    obtain ⟨violations, hcount, hlast⟩ := bind_eq_ok.mp hline
    obtain rfl := Except.ok.inj hlast
    by_cases hzero : violations = 0
    · rw [hcount, hzero]
    · simp [hzero] at hstatus
  · intro h
    refine ⟨⟨check.1, "OK", 0⟩, ?_, rfl⟩
    rw [runCheck, h]
    rfl

/-- The report is `OK` in every line exactly when every query counts zero. -/
theorem ledgerValidate_status : (∃ report, ledgerValidate t = .ok report ∧
    ∀ line ∈ report, line.status = "OK") ↔ ∀ check ∈ checks, check.2 t = .ok 0 := by
  have hlines :
      (∃ lines, checks.mapM (runCheck t) = .ok lines ∧ ∀ line ∈ lines, line.status = "OK") ↔
      ∀ check ∈ checks, check.2 t = .ok 0 := by
    rw [exists_mapM_ok]
    exact forall₂_congr fun check _ => runCheck_status
  rw [← hlines]
  constructor
  · intro h
    obtain ⟨report, hreport, hok⟩ := h
    obtain ⟨lines, hmap, hlast⟩ := bind_eq_ok.mp hreport
    obtain rfl := Except.ok.inj hlast
    exact ⟨lines, hmap, fun line hline => hok line (List.mem_insertionSort _ |>.mpr hline)⟩
  · intro h
    obtain ⟨lines, hmap, hok⟩ := h
    refine ⟨lines.insertionSort fun left right => left.checkName ≤ right.checkName, ?_, ?_⟩
    · rw [ledgerValidate, hmap, ok_bind]
    · intro line hline
      exact hok line ((List.mem_insertionSort _).mp hline)

/-- **Validation decides the ledger invariant**: whatever the tables hold
within the constraints of the schema, all seven queries count no violation,
and the report says so, exactly when the invariant holds. -/
theorem ledgerValidate_decides (hconstrained : t.Constrained) (hrange : t.UnitsInRange) :
    ((∀ check ∈ checks, check.2 t = .ok 0) ↔ t.LedgerInvariant) ∧
      ((∃ report, ledgerValidate t = .ok report ∧ ∀ line ∈ report, line.status = "OK") ↔
        t.LedgerInvariant) := by
  constructor
  · exact checks_iff hconstrained hrange
  · rw [ledgerValidate_status]
    exact checks_iff hconstrained hrange

/-- The tables of the recorded fixture: a transfer of 25 dollars. -/
def fixtureTables : Tables where
  accounts :=
    [{ name := "fixture:legacy:source".toList, asset := usd, balance := ⟨usd, -2500⟩,
       balancePolicy := .any, metadata := none, id := 0x101#128, version := 1,
       createdAt := 631152000000000, updatedAt := 631152000000000, nameCheck := by decide,
       versionCheck := by decide, balanceCheck := rfl },
      { name := "fixture:legacy:destination".toList, asset := usd, balance := ⟨usd, 2500⟩,
        balancePolicy := .nonNegative, metadata := none, id := 0x102#128, version := 1,
        createdAt := 631152000000000, updatedAt := 631152000000000, nameCheck := by decide,
        versionCheck := by decide, balanceCheck := rfl }]
  transactions :=
    [{ eventAt := 631152000000000, reference := some "legacy-fixture".toList,
       idempotencyKey := some "legacy-fixture:1".toList,
       payloadHash := "f90f6f74ba4d2e983285031bcd0d107addd726e126a91c1a1b775498d65c91d2".toList,
       reversesTransactionId := none,
       metadata := some (.object [("fixture".toList, .string "legacy-v0".toList)]),
       createdAt := 631152001000000, id := 0x201#128 }]
  entries :=
    [{ transactionId := 0x201#128, accountId := 0x101#128, amount := ⟨usd, -2500⟩,
       accountVersion := 1, previousBalance := ⟨usd, 0⟩, currentBalance := ⟨usd, -2500⟩,
       createdAt := 631152001000000, id := 0x301#128, versionCheck := by decide,
       amountCheck := by decide, previousCheck := rfl, currentCheck := rfl, sumCheck := by decide },
      { transactionId := 0x201#128, accountId := 0x102#128, amount := ⟨usd, 2500⟩,
        accountVersion := 1, previousBalance := ⟨usd, 0⟩, currentBalance := ⟨usd, 2500⟩,
        createdAt := 631152001000000, id := 0x302#128, versionCheck := by decide,
        amountCheck := by decide, previousCheck := rfl, currentCheck := rfl,
        sumCheck := by decide }]

theorem ledgerValidate_decides_fixture :
    ((∀ check ∈ checks, check.2 fixtureTables = .ok 0) ↔ fixtureTables.LedgerInvariant) ∧
      ((∃ report, ledgerValidate fixtureTables = .ok report ∧ ∀ line ∈ report, line.status = "OK") ↔
        fixtureTables.LedgerInvariant) := by
  have hsmall (units : Int) (h : units.natAbs < 10 ^ 4) : InNumericRange units :=
    inNumericRange_of_lt (by decide) h
  refine ledgerValidate_decides ?_ ?_
  · constructor <;>
      simp [fixtureTables, Tables.accountIds, Tables.accountNames, Tables.transactionIds,
      Tables.idempotencyKeys, Tables.reversedIds, Tables.entryIds, Tables.entryVersions]
  · constructor
    · intro a ha
      exact hsmall _
        ((by decide : ∀ a ∈ fixtureTables.accounts, a.balance.units.natAbs < 10 ^ 4) a ha)
    · intro e he
      exact hsmall _
        ((by decide : ∀ e ∈ fixtureTables.entries, e.amount.units.natAbs < 10 ^ 4) e he)

end PgLedger
