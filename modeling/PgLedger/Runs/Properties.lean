import PgLedger.Runs.Sound

/-!
# PgLedger.Runs.Properties

What clients can rely on in every ledger that calls can lead to, successful
or not, in any order.
-/

namespace PgLedger

/-- **Journals**: every account is at all times what its entries say. -/
theorem accountHistories (crates : Crates) (events : List Event) :
    (runLedger crates events).HistoriesHold := by
  intro a ha
  have hjournal := (runLedger_sound crates events).journaled a ha
  exact hjournal.history

/-- **Double entry**: every transaction has at least two entries that cancel
out for every asset, and so the balances of all accounts cancel out. -/
theorem doubleEntry (crates : Crates) (events : List Event) :
    (runLedger crates events).Balanced ∧ (runLedger crates events).Conserved := by
  have hsound := runLedger_sound crates events
  constructor
  · exact hsound.balanced
  · exact Tables.conserved hsound.constrained hsound.journaled hsound.balanced

/-- **Policies**: every balance is within its policy, and the balances that
are checked against the policies are those that are written. -/
theorem policiesKept (crates : Crates) (events : List Event) :
    (runLedger crates events).PoliciesHold ∧ FinalBalancesWritten crates := by
  constructor
  · exact (runLedger_sound crates events).policiesHold
  · exact finalBalances_written crates

end PgLedger
