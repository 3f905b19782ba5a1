import PgLedger.Reversal
import PgLedger.Transaction.Post

/-!
# PgLedger.Reversal.Spec

What a successful reversal has done: it was given the reversal that exists,
or it has posted the negation of what the original moved.
-/

namespace PgLedger

variable {crates : Crates} {env : Env} {t t' : Tables} {b b' : Backend}

/-- The postings of a reversal, as the query lists them. -/
def Tables.reversalPostings (t : Tables) (transactionId : Uuid) : List LedgerPosting :=
  ((t.transactionEntries transactionId).insertionSort reversalOrder).map (·.posting.negate)

/-- They are the negation of what the original moved, in some order. -/
theorem Tables.reversalPostings_perm (t : Tables) (transactionId : Uuid) :
    (t.reversalPostings transactionId).Perm ((t.moves transactionId).map (·.negate)) := by
  rw [moves, List.map_map]
  exact (List.perm_insertionSort reversalOrder _).map _

/-- The lookup of a reversal returns the one that exists, and it fails only
without the original. -/
theorem findExisting_run (transactionId : Uuid) :
    (findExisting crates transactionId).run env t b =
      if transactionId ∈ t.transactionIds then
        .ok ((t.reversal? transactionId).map (·.id), t, b)
      else .error (failForeignKey ("ledger transaction " ++
        String.ofList (crates.pgUuidToString transactionId) ++ " does not exist")) := by
  rw [findExisting, Spi.run_bind, Spi.run_lockTransaction, ok_bind]
  by_cases hmem : transactionId ∈ t.transactionIds
  · simp only [hmem, decide_true, if_true]
    exact Spi.run_findReversal transactionId
  · simp only [hmem, decide_false, Bool.false_eq_true, if_false]
    exact Spi.run_fail _

/-- A lookup that succeeds has found the original and changed nothing. -/
theorem findExisting_run_ok {transactionId : Uuid} {existing : Option Uuid}
    (h : (findExisting crates transactionId).run env t b = .ok (existing, t', b')) :
    transactionId ∈ t.transactionIds ∧ t' = t ∧ b' = b ∧
      existing = (t.reversal? transactionId).map (·.id) := by
  rw [findExisting_run] at h
  split at h
  · next hmem =>
    obtain ⟨rfl, rfl, rfl⟩ : _ = existing ∧ t = t' ∧ b = b' := by simpa using Except.ok.inj h
    exact ⟨hmem, rfl, rfl, rfl⟩
  · contradiction

/-- A reversal that succeeds returned the one that exists and changed
nothing, or there was none and it posted its request. -/
theorem ledgerReverse_run_ok {transactionId id : Uuid} {options : PostOptions}
    (h : (ledgerReverse crates transactionId options).run env t b = .ok (id, t', b')) :
    transactionId ∈ t.transactionIds ∧
      ((∃ row, t.reversal? transactionId = some row ∧
          id = row.id ∧ t' = t) ∨
        (t.reversal? transactionId = none ∧
          (post crates (reversalRequest crates transactionId options
            (t.reversalPostings transactionId))).run env t b = .ok (id, t', b'))) := by
  simp only [ledgerReverse] at h
  obtain ⟨existing, t₁, b₁, hfind, hrest⟩ := Spi.run_bind_eq_ok.mp h
  obtain ⟨hmem, rfl, rfl, hexisting⟩ := findExisting_run_ok hfind
  refine ⟨hmem, ?_⟩
  cases hrow : t₁.reversal? transactionId with
  | some row =>
      rw [hrow, Option.map_some] at hexisting
      rw [hexisting] at hrest
      obtain ⟨rfl, rfl, -⟩ : row.id = id ∧ t₁ = t' ∧ b₁ = b' := by simpa using hrest
      exact .inl ⟨row, rfl, rfl, rfl⟩
  | none =>
      rw [hrow, Option.map_none] at hexisting
      rw [hexisting] at hrest
      dsimp only at hrest
      rw [Spi.run_bind, Spi.run_reversalPostings, ok_bind] at hrest
      exact .inr ⟨rfl, hrest⟩

end PgLedger
