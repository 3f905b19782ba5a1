import PgLedger.Journal
import PgLedger.Transaction

/-!
# PgLedger.Ledger

What the three tables mean together.  An account is the running total of its
entries (`AccountJournal`), a transaction moves nothing in total
(`TransactionBalanced`), a reversal moves back what its original moved
(`ReversalsExact`), and balances stay within their policies.  None of this is
enforced by a constraint of the schema; the posting engine maintains it.
-/

namespace PgLedger

def EntryRow.movement (e : EntryRow) : Movement Int where
  version := e.accountVersion.toInt
  previous := e.previousBalance.units
  amount := e.amount.units
  current := e.currentBalance.units

namespace Tables

variable (t : Tables)

/-- The account is the running total of its entries, all of its asset. -/
structure AccountJournal (a : AccountRow) : Prop where
  journal : Journal ((t.accountEntries a.id).map (·.movement)) a.version.toInt a.balance.units
  assets : ∀ e ∈ t.accountEntries a.id, e.amount.asset = a.asset

def Journaled : Prop := ∀ a ∈ t.accounts, t.AccountJournal a

/-- The same in the words of the tables: the versions of the entries are
1, 2, … up to the version of the account, each once; the entries are chained
from zero to the balance; and everything is of the asset of the account. -/
structure AccountHistory (a : AccountRow) : Prop where
  version : a.version.toInt = (t.accountEntries a.id).length
  versions : ((t.accountEntries a.id).map (·.accountVersion.toInt)).Perm
    ((List.range (t.accountEntries a.id).length).map fun i : Nat => (i : Int) + 1)
  first : ∀ e ∈ t.accountEntries a.id, e.accountVersion.toInt = 1 →
    e.previousBalance = .zero a.asset
  later : ∀ e ∈ t.accountEntries a.id, 1 < e.accountVersion.toInt →
    ∃ e' ∈ t.accountEntries a.id, e'.accountVersion.toInt + 1 = e.accountVersion.toInt ∧
      e.previousBalance = e'.currentBalance
  moved : ∀ e ∈ t.accountEntries a.id, e.amount.units ≠ 0 ∧
    e.currentBalance = ⟨a.asset, e.previousBalance.units + e.amount.units⟩
  assets : ∀ e ∈ t.accountEntries a.id, e.amount.asset = a.asset ∧
    e.previousBalance.asset = a.asset ∧ e.currentBalance.asset = a.asset
  balanceSum : a.balance = ⟨a.asset, ((t.accountEntries a.id).map (·.amount.units)).sum⟩
  balanceLast : ∀ e ∈ t.accountEntries a.id, e.accountVersion.toInt = a.version.toInt →
    e.currentBalance = a.balance

/-- Every account has the history its entries tell. -/
def HistoriesHold : Prop := ∀ a ∈ t.accounts, t.AccountHistory a

/-- The units of an asset that a transaction moves in total. -/
def netUnits (id : Uuid) (asset : LedgerAsset) : Int :=
  (((t.transactionEntries id).filter (·.amount.asset = asset)).map (·.amount.units)).sum

structure TransactionBalanced (id : Uuid) : Prop where
  twoEntries : 2 ≤ (t.transactionEntries id).length
  balanced : ∀ asset, t.netUnits id asset = 0

def Balanced : Prop := ∀ id ∈ t.transactionIds, t.TransactionBalanced id

/-- The balances of every asset cancel out over all accounts. -/
def Conserved : Prop :=
  ∀ asset, ((t.accounts.filter (·.asset = asset)).map (·.balance.units)).sum = 0

def PoliciesHold : Prop := ∀ a ∈ t.accounts, a.balancePolicy.Admits a.balance.units

/-- What a transaction moved, entry by entry. -/
def moves (id : Uuid) : List LedgerPosting := (t.transactionEntries id).map (·.posting)

/-- A reversal moves back what its original moved. -/
def ReversalsExact : Prop :=
  ∀ r ∈ t.transactions, ∀ original, r.reversesTransactionId = some original →
    (t.moves r.id).Perm ((t.moves original).map (·.negate))

variable {t : Tables}

theorem amount_ext {x y : LedgerAmount} (hasset : x.asset = y.asset) (hunits : x.units = y.units) :
    x = y := by
  obtain ⟨asset, units⟩ := x
  obtain ⟨asset', units'⟩ := y
  obtain rfl : asset = asset' := hasset
  obtain rfl : units = units' := hunits
  rfl

theorem AccountJournal.history {a : AccountRow} (h : t.AccountJournal a) : t.AccountHistory a := by
  obtain ⟨hjournal, hassets⟩ := h
  have hmap {P : Movement Int → Prop}
      (hP : ∀ m ∈ (t.accountEntries a.id).map (·.movement), P m) (e : EntryRow)
      (he : e ∈ t.accountEntries a.id) : P e.movement := hP _ (List.mem_map_of_mem he)
  have hprevious (e : EntryRow) (he : e ∈ t.accountEntries a.id) :
      e.previousBalance.asset = a.asset := by
    rw [← e.previousCheck, hassets e he]
  have hcurrent (e : EntryRow) (he : e ∈ t.accountEntries a.id) :
      e.currentBalance.asset = a.asset := by
    rw [← e.currentCheck, hassets e he]
  constructor
  · rw [hjournal.versionCount, List.length_map]
  · have hversions := hjournal.versions
    rw [List.map_map, List.length_map] at hversions
    exact hversions
  · intro e he hone
    exact amount_ext (hprevious e he) (hmap hjournal.first e he hone)
  · intro e he hlater
    obtain ⟨m, hm, hversion, hunits⟩ := hmap hjournal.later e he hlater
    obtain ⟨e', he', rfl⟩ := List.mem_map.mp hm
    refine ⟨e', he', hversion, amount_ext ?_ hunits⟩
    rw [hprevious e he, hcurrent e' he']
  · intro e he
    exact ⟨e.amountCheck, amount_ext (hcurrent e he) (hmap hjournal.moved e he)⟩
  · intro e he
    exact ⟨hassets e he, hprevious e he, hcurrent e he⟩
  · have hsum := hjournal.balanceSum
    rw [List.map_map] at hsum
    exact amount_ext a.balanceCheck hsum
  · intro e he hlast
    refine amount_ext ?_ (hmap hjournal.balanceLast e he hlast)
    rw [hcurrent e he, a.balanceCheck]

/-- The units of an asset in all entries, added up by transaction. -/
theorem sum_entries_eq_zero (h : t.Constrained) (hbalanced : t.Balanced) (asset : LedgerAsset) :
    ((t.entries.filter (·.amount.asset = asset)).map (·.amount.units)).sum = 0 := by
  have hclasses := sum_classes (·.transactionId) (fun e : EntryRow => e.amount.units)
    h.transactionIds (t.entries.filter (·.amount.asset = asset))
    fun e he => h.entryTransactions e (List.mem_of_mem_filter he)
  have hzero : (t.transactionIds.map fun id =>
      (((t.entries.filter (·.amount.asset = asset)).filter fun e => e.transactionId = id).map
        fun e : EntryRow => e.amount.units).sum) = t.transactionIds.map fun _ => 0 := by
    refine List.map_congr_left fun id hid => ?_
    have hnet := (hbalanced id hid).balanced asset
    rw [netUnits, transactionEntries, List.filter_comm] at hnet
    exact hnet
  rw [← hclasses, hzero]
  simp

/-- **Conservation**: the balances are the sums of the entries by account, and
the entries cancel out by transaction. -/
theorem conserved (h : t.Constrained) (hjournaled : t.Journaled) (hbalanced : t.Balanced) :
    t.Conserved := by
  intro asset
  have hkeys : ((t.accounts.filter (·.asset = asset)).map (·.id)).Nodup :=
    h.accountIds.sublist (List.filter_sublist.map _)
  have hmem : ∀ e ∈ t.entries.filter (·.amount.asset = asset),
      e.accountId ∈ (t.accounts.filter (·.asset = asset)).map (·.id) := by
    intro e he
    obtain ⟨hentry, hasset⟩ := List.mem_filter.mp he
    obtain ⟨a, ha, hid⟩ := List.mem_map.mp (h.entryAccounts e hentry)
    have hae : e ∈ t.accountEntries a.id := List.mem_filter.mpr ⟨hentry, by simpa using hid.symm⟩
    have haa : a.asset = asset := by
      rw [← (hjournaled a ha).assets e hae]
      simpa using hasset
    exact List.mem_map.mpr ⟨a, List.mem_filter.mpr ⟨ha, by simpa using haa⟩, hid⟩
  have hclasses := sum_classes (·.accountId) (fun e : EntryRow => e.amount.units) hkeys _ hmem
  rw [sum_entries_eq_zero h hbalanced asset, List.map_map] at hclasses
  rw [← hclasses]
  refine congrArg List.sum (List.map_congr_left fun a ha => ?_)
  obtain ⟨hacc, hasset⟩ := List.mem_filter.mp ha
  have hsame : (t.entries.filter (·.amount.asset = asset)).filter (fun e => e.accountId = a.id) =
      t.accountEntries a.id := by
    rw [List.filter_comm, ← accountEntries, List.filter_eq_self]
    intro e he
    rw [(hjournaled a hacc).assets e he]
    exact hasset
  rw [Function.comp_apply, hsame, (hjournaled a hacc).journal.balanceSum, List.map_map]
  rfl

end Tables

end PgLedger
