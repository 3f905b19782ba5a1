import PgLedger.Book
import PgLedger.Reversal.Accepts
import PgLedger.Runs.Recorded

/-!
# PgLedger.Book.Tables

The book that the tables keep.  An account of the book is what the row says
without its balance and version, and a record is what a transaction and its
entries say without the running totals.  Cached balances are the balances of
the book (`balance_book`), and what the engine checks of postings is what the
book asks of their lines (`admits_book_iff`).

A stored hash stands for the documents that it is a fingerprint of.  Those of
linked requests are left out: clients cannot send one to the engine but by
`ledger_reverse`.
-/

namespace PgLedger

variable {crates : Crates} {env : Env} {t t' : Tables} {b b' : Backend}

abbrev LedgerBook := Book Uuid Str LedgerAsset Int Json

abbrev LedgerCommand := Book.Command Uuid Str LedgerAsset Int Json

def LedgerPosting.line (posting : LedgerPosting) : Book.Line Uuid LedgerAsset Int :=
  ⟨posting.accountId, posting.amount.asset, posting.amount.units⟩

/-- Postings as lines, whose order does not matter. -/
def linesOf (postings : List LedgerPosting) : Multiset (Book.Line Uuid LedgerAsset Int) :=
  postings.map (·.line)

def AccountRow.account (row : AccountRow) : Book.Account Str LedgerAsset Int :=
  ⟨row.name, row.asset, row.balancePolicy.Admits⟩

section
variable (crates : Crates)

/-- The documents of requests for which a hash is stored. -/
def answersOf (payloadHash : Str) (document : Json) : Prop :=
  ∃ request : PostRequest, request.reversesTransactionId = none ∧
    IsFingerprint crates request payloadHash ∧ payload crates request = document

def Tables.record (t : Tables) (row : TransactionRow) :
    Book.Record Uuid Str LedgerAsset Int Json :=
  ⟨row.id, row.idempotencyKey, row.reversesTransactionId, linesOf (t.moves row.id),
    answersOf crates row.payloadHash⟩

/-- The book that the tables keep. -/
def Tables.book (t : Tables) : LedgerBook where
  account id := (t.account? id).map (·.account)
  records := t.transactions.map (t.record crates)

end

/-! ## lines -/

/-- What lines come to on an account is what their postings move. -/
theorem onAccount_linesOf (postings : List LedgerPosting) (id : Uuid) :
    Book.onAccount (linesOf postings) id = movedUnits postings id := by
  rw [Book.onAccount, linesOf, Multiset.filter_coe, Multiset.map_coe, Multiset.sum_coe,
    List.filter_map, List.map_map]
  rfl

/-- What lines come to in a currency is the total of their postings in the
asset. -/
theorem inCurrency_linesOf (postings : List LedgerPosting) (asset : LedgerAsset) :
    Book.inCurrency (linesOf postings) asset =
      ((postings.filter (·.amount.asset = asset)).map (·.amount.units)).sum := by
  rw [Book.inCurrency, linesOf, Multiset.filter_coe, Multiset.map_coe, Multiset.sum_coe,
    List.filter_map, List.map_map]
  rfl

theorem forall_linesOf {postings : List LedgerPosting} {P : Book.Line Uuid LedgerAsset Int → Prop} :
    (∀ line ∈ linesOf postings, P line) ↔ ∀ p ∈ postings, P p.line := by
  simp [linesOf]

/-- Validation accepts the postings of proper transactions. -/
theorem proper_linesOf_iff {postings : List LedgerPosting} :
    Book.Proper (linesOf postings) ↔ validatePostings postings = .ok () := by
  constructor
  · intro h
    refine validatePostings_ok ?_ (forall_linesOf.mp h.nonzero) fun asset => ?_
    · have htwo := h.twoLines
      rw [linesOf, Multiset.coe_card, List.length_map] at htwo
      exact htwo
    · rw [← inCurrency_linesOf]
      exact h.balanced asset
  · intro h
    obtain ⟨htwo, hnonzero, hbalanced⟩ := validatePostings_eq_ok h
    refine ⟨?_, forall_linesOf.mpr hnonzero, fun asset => ?_⟩
    · rw [linesOf, Multiset.coe_card, List.length_map]
      exact htwo
    · rw [inCurrency_linesOf]
      exact hbalanced asset

/-- The order of the postings does not show in the lines. -/
theorem linesOf_perm {ps qs : List LedgerPosting} (h : ps.Perm qs) : linesOf ps = linesOf qs :=
  Multiset.coe_eq_coe.mpr (h.map _)

/-- Negated postings have reversed lines. -/
theorem linesOf_negate (postings : List LedgerPosting) :
    linesOf (postings.map (·.negate)) = (linesOf postings).map Book.Line.negate := by
  rw [linesOf, linesOf, Multiset.map_coe, List.map_map, List.map_map]
  rfl

/-! ## balances -/

/-- **Cached balances** are the balances of the book. -/
theorem Tables.Sound.balance_book (h : t.Sound) {a : AccountRow} (ha : a ∈ t.accounts) :
    (t.book crates).balance a.id = a.balance.units := by
  have hclasses := sum_classes (·.transactionId) (fun e : EntryRow => e.amount.units)
    h.constrained.transactionIds (t.accountEntries a.id)
    fun e he => h.constrained.entryTransactions e (List.mem_of_mem_filter he)
  rw [(h.journaled a ha).journal.balanceSum, List.map_map]
  refine Eq.trans ?_ hclasses
  rw [Book.balance, book, List.map_map, transactionIds, List.map_map]
  refine congrArg List.sum (List.map_congr_left fun row _ => ?_)
  show Book.onAccount (linesOf (t.moves row.id)) a.id = _
  rw [onAccount_linesOf, movedUnits, moves, List.filter_map, List.map_map, transactionEntries,
    accountEntries, Function.comp_apply, List.filter_comm]
  rfl

/-! ## what the book asks -/

theorem Tables.book_account (crates : Crates) (t : Tables) (id : Uuid) :
    (t.book crates).account id = (t.account? id).map (·.account) := rfl

/-- The book asks of lines what the engine checks of postings. -/
theorem Tables.Sound.admits_book_iff (h : t.Sound) (crates : Crates)
    {postings : List LedgerPosting} :
    Book.Proper (linesOf postings) ∧ (t.book crates).Admits (linesOf postings) ↔
      t.Admits postings := by
  constructor
  · intro hbook
    obtain ⟨hproper, haccounts, hallowed⟩ := hbook
    obtain ⟨htwo, hnonzero, hbalanced⟩ := validatePostings_eq_ok (proper_linesOf_iff.mp hproper)
    refine ⟨htwo, hnonzero, hbalanced, fun p hp => ?_, fun a ha hnamed => ?_⟩
    · obtain ⟨account, haccount, hasset⟩ := forall_linesOf.mp haccounts p hp
      obtain ⟨a, ha, rfl⟩ := Option.map_eq_some_iff.mp haccount
      exact ⟨a, Tables.mem_of_account? ha, Tables.id_of_account? ha, hasset⟩
    · obtain ⟨p, hp, hid⟩ := hnamed
      have hallows := forall_linesOf.mp hallowed p hp a.account
      rw [show p.line.account = a.id from hid, book_account,
        Tables.account?_of_mem h.constrained ha, h.balance_book ha, onAccount_linesOf] at hallows
      exact hallows rfl
  · intro hadmits
    refine ⟨proper_linesOf_iff.mpr
      (validatePostings_ok hadmits.twoPostings hadmits.nonzero hadmits.balanced), ?_, ?_⟩
    · refine forall_linesOf.mpr fun p hp => ?_
      obtain ⟨a, ha, hid, hasset⟩ := hadmits.accounts p hp
      refine ⟨a.account, ?_, hasset⟩
      rw [book_account, show p.line.account = a.id from hid.symm,
        Tables.account?_of_mem h.constrained ha]
      rfl
    · refine forall_linesOf.mpr fun p hp account haccount => ?_
      obtain ⟨a, ha, rfl⟩ := Option.map_eq_some_iff.mp haccount
      have hid : a.id = p.line.account := Tables.id_of_account? ha
      have hrow := Tables.mem_of_account? ha
      rw [← hid, h.balance_book hrow, onAccount_linesOf]
      exact hadmits.policies a hrow ⟨p, hp, hid.symm⟩

/-- A key is unused in the book exactly when it is in the tables. -/
theorem Tables.unused_book_iff {key : Option Str} :
    (t.book crates).Unused key ↔ ∀ k, key = some k → k ∉ t.idempotencyKeys := by
  simp only [Tables.not_mem_idempotencyKeys]
  constructor
  · intro h k hk row hrow
    exact h (t.record crates row) (List.mem_map_of_mem hrow) k hk
  · intro h record hrecord k hk
    obtain ⟨row, hrow, rfl⟩ := List.mem_map.mp hrecord
    exact h k hk row hrow

/-- A transaction is recorded exactly when it is in the table. -/
theorem Tables.recorded_book_iff {id : Uuid} :
    (t.book crates).Recorded id ↔ id ∈ t.transactionIds := by
  simp [Book.Recorded, Tables.book, Tables.record, Tables.transactionIds]

/-- An unlinked request has a stored hash as its fingerprint exactly when its
document is answered. -/
theorem answersOf_iff (hdigests : crates.Digests) {request : PostRequest} {payloadHash : Str}
    (hlink : request.reversesTransactionId = none) :
    answersOf crates payloadHash (payload crates request) ↔
      IsFingerprint crates request payloadHash := by
  constructor
  · intro h
    obtain ⟨other, -, hother, hsame⟩ := h
    exact (isFingerprint_iff hdigests hother).mpr hsame
  · exact fun h => ⟨request, hlink, h, rfl⟩

/-! ## what a call records -/

/-- Moving an account keeps what the book says of it. -/
theorem AccountMoved.account {postings : List LedgerPosting} {a a' : AccountRow}
    (h : AccountMoved postings a a') : a'.account = a.account := by
  rw [AccountRow.account, h.values]
  rfl

/-- Moving accounts leaves what the book knows of them. -/
theorem account?_forall₂ {postings : List LedgerPosting} {as as' : List AccountRow}
    (h : List.Forall₂ (AccountMoved postings) as as') (id : Uuid) :
    (as'.find? (·.id = id)).map (·.account) = (as.find? (·.id = id)).map (·.account) := by
  induction h with
  | nil => rfl
  | @cons a a' as as' hmoved _ ih =>
      rw [List.find?_cons, List.find?_cons, hmoved.id]
      split
      · exact congrArg some hmoved.account
      · exact ih

/-- **A created transaction** is a new record at the end of the book. -/
theorem Created.book {request : PostRequest} {hashes : PayloadHashes} {row : TransactionRow}
    (h : Created crates t t' request hashes row)
    (haccounts : List.Forall₂ (AccountMoved request.postings) t.accounts t'.accounts) :
    t'.book crates = (t.book crates).record (t'.record crates row) := by
  have hold : t.transactions.map (t'.record crates) = t.transactions.map (t.record crates) := by
    refine List.map_congr_left fun r hr => ?_
    have hne : r.id ≠ row.id := by
      intro heq
      exact h.takes.id (heq ▸ List.mem_map_of_mem hr)
    rw [Tables.record, h.moves_old hne]
    rfl
  have haccount : (t'.book crates).account = (t.book crates).account :=
    funext fun id => account?_forall₂ haccounts id
  rw [Book.record, ← haccount]
  refine congrArg (Book.mk _) ?_
  rw [h.transactions, List.map_append, hold]
  rfl

/-- An opened account is the only one that changes. -/
theorem Tables.book_insertAccount {row : AccountRow} (hid : row.id ∉ t.accountIds) :
    (t.apply (.insertAccount row)).book crates =
      { t.book crates with
        account := Function.update (t.book crates).account row.id (some row.account) } := by
  refine congrArg (Book.mk · _) (funext fun id => ?_)
  show ((t.accounts ++ [row]).find? (·.id = id)).map (·.account) = _
  rw [List.find?_append]
  by_cases heq : id = row.id
  · subst heq
    rw [Function.update_self, show t.accounts.find? _ = none from account?_eq_none.mpr hid]
    simp
  · rw [Function.update_of_ne heq, book_account, account?]
    simp [Ne.symm heq]

end PgLedger
