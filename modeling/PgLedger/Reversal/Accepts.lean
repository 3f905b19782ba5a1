import PgLedger.Reversal.Exact
import PgLedger.Transaction.Order

/-!
# PgLedger.Reversal.Accepts

When a transaction can be reversed.  What a ledger holds about a transaction
answers everything the engine asks of the postings of its reversal: there are
two at least, none is zero, they balance, and their accounts are still there
with the same assets.  What is left is the balances after the reversal, which
the policies must admit (`Tables.Sound.reversalDecided`).
-/

namespace PgLedger

variable {crates : Crates} {env : Env} {t t' : Tables} {b b' : Backend}

/-! ## the postings of a reversal -/

theorem mem_moves {id : Uuid} {p : LedgerPosting} :
    p ∈ t.moves id ↔ ∃ e ∈ t.transactionEntries id, e.posting = p := List.mem_map

namespace Tables.Sound

variable {id : Uuid}

/-- The postings of a reversal are valid. -/
theorem validate_reversal (h : t.Sound) (hid : id ∈ t.transactionIds) :
    validatePostings (t.reversalPostings id) = .ok () := by
  refine validatePostings_perm (t.reversalPostings_perm id).symm ?_
  obtain ⟨htwo, hbalanced⟩ := h.balanced id hid
  apply validatePostings_ok
  · rw [List.length_map, moves, List.length_map]
    exact htwo
  · intro p hp
    obtain ⟨q, hq, rfl⟩ := List.mem_map.mp hp
    obtain ⟨e, -, rfl⟩ := mem_moves.mp hq
    rw [LedgerPosting.amount_negate, LedgerAmount.units_negate]
    exact Int.neg_ne_zero.mpr e.amountCheck
  · intro asset
    have hnet := hbalanced asset
    rw [netUnits_eq] at hnet
    rw [sum_filter_negate (fun _ => rfl), hnet]
    rfl

end Tables.Sound

/-! ## reversing -/

/-- Without a reversal, the original is reversed by posting its negation. -/
theorem ledgerReverse_run_none {original : Uuid} {options : PostOptions}
    (hmem : original ∈ t.transactionIds) (hnone : t.reversal? original = none) :
    (ledgerReverse crates original options).run env t b =
      (post crates (reversalRequest crates original options
        (t.reversalPostings original))).run env t b := by
  rw [ledgerReverse, Spi.run_bind, findExisting_run, if_pos hmem, hnone, Option.map_none, ok_bind]
  dsimp only
  rw [Spi.run_bind, Spi.run_reversalPostings, ok_bind]
  rfl

/-- The reversal that exists is returned. -/
theorem ledgerReverse_run_existing {original : Uuid} {options : PostOptions} {row : TransactionRow}
    (hmem : original ∈ t.transactionIds) (hrow : t.reversal? original = some row) :
    (ledgerReverse crates original options).run env t b = .ok (row.id, t, b) := by
  rw [ledgerReverse, Spi.run_bind, findExisting_run, if_pos hmem, hrow, Option.map_some, ok_bind]
  rfl

/-- The key a reversal claims. -/
def reversalKey (crates : Crates) (original : Uuid) (options : PostOptions) : Option Str :=
  (reversalRequest crates original options []).idempotencyKey

theorem unclaimed_reversal {original : Uuid} {options : PostOptions}
    (hmem : original ∈ t.transactionIds) (hnone : t.reversal? original = none)
    (hkey : ∀ key, reversalKey crates original options = some key → key ∉ t.idempotencyKeys)
    (postings : List LedgerPosting) :
    t.Unclaimed (reversalRequest crates original options postings) where
  key := hkey
  link other hother := by
    obtain rfl : original = other := Option.some.inj hother
    exact ⟨hmem, Tables.reversal?_eq_none_iff.mp hnone⟩

end PgLedger
