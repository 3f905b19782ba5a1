import PgLedger.Guard.Serialisable
import PgLedger.Validation.Clean

/-!
# PgLedger.Guard.Properties

What holds of the ledger while clients mix the public functions with `UPDATE`s
and `DELETE`s of single rows, in transactions of several commands and with
`pg_ledger.internal_posting` off: the books are in order, as they are committed
and as every transaction sees them between two commands.

Of the properties of `PgLedger.Runs.Properties` only the policies are missing:
a direct statement may give an account a policy that its balance does not
satisfy.
-/

namespace PgLedger

/-- The books are in order: the constraints hold, every account is what its
entries say, every transaction balances, the balances cancel out, every
reversal moves back exactly what the transaction moved that it is linked to,
and the links form no circle. -/
structure Tables.InOrder (t : Tables) : Prop where
  constrained : t.Constrained
  historiesHold : t.HistoriesHold
  balanced : t.Balanced
  conserved : t.Conserved
  reversalsExact : t.ReversalsExact
  acyclic : t.Acyclic

variable {t : Tables}

/-- The invariant says that the books are in order. -/
theorem Tables.Books.inOrder (h : t.Books) : t.InOrder where
  constrained := h.constrained
  historiesHold a ha := (h.journaled a ha).history
  balanced := h.balanced
  conserved := Tables.conserved h.constrained h.journaled h.balanced
  reversalsExact := h.reversalsExact
  acyclic := h.acyclic

/-- Nothing is to be reported of books in order. -/
theorem Tables.InOrder.validatesClean (h : t.InOrder) : t.ValidatesClean :=
  LedgerInvariant.validatesClean h.constrained ⟨h.balanced, h.historiesHold, h.reversalsExact⟩

section
variable {ι : Type} (crates : Crates) (clients : ι → Client) [Fintype ι] [DecidableEq ι]

/-- The invariant holds of the committed tables and of what a transaction sees. -/
theorem runGuarded_books (schedule : List (ι × Serial.Action)) :
    (runGuarded crates clients schedule).store.tables.Books ∧
    ∀ i l, (runGuarded crates clients schedule).sessions i = .running l → l.call = none →
      (l.view (runGuarded crates clients schedule).store).Books := by
  have hempty : Tables.empty.Books := Tables.sound_empty.books
  obtain ⟨⟨done, -, hguarded, hexec⟩, hfollows⟩ := runGuarded_serially crates clients schedule
  have hbooks : (runGuarded crates clients schedule).store.tables.Books := by
    refine execDeeds_books hexec (fun deed hdeed => ?_) hempty
    obtain ⟨deeds, hmem, hdeed⟩ := List.mem_flatten.mp hdeed
    exact hguarded deeds hmem deed hdeed
  refine ⟨hbooks, fun i l hl hcall => ?_⟩
  obtain ⟨-, before, hretraced⟩ := hfollows i l hl
  obtain ⟨deeds, -, hretraces⟩ := hretraced.idle hcall
  rw [ClientState.view_eq]
  exact execDeeds_books hretraces.exec hretraces.guarded hbooks

/-- **Books**: at every moment the committed books are in order, and so are
those that a running transaction sees between two of its commands. -/
theorem booksInOrder (schedule : List (ι × Serial.Action)) :
    (runGuarded crates clients schedule).store.tables.InOrder ∧
    ∀ i l, (runGuarded crates clients schedule).sessions i = .running l → l.call = none →
      (l.view (runGuarded crates clients schedule).store).InOrder := by
  obtain ⟨hstore, hviews⟩ := runGuarded_books crates clients schedule
  exact ⟨hstore.inOrder, fun i l hl hcall => (hviews i l hl hcall).inOrder⟩

/-- **Validation never raises a false alarm**: `ledger_validate`, called at any
moment or by a transaction between two of its commands, reports no violation.
It can fail only when a number is too large for `numeric`. -/
theorem validationQuiet (schedule : List (ι × Serial.Action)) :
    (runGuarded crates clients schedule).store.tables.ValidatesClean ∧
    ∀ i l, (runGuarded crates clients schedule).sessions i = .running l → l.call = none →
      (l.view (runGuarded crates clients schedule).store).ValidatesClean := by
  obtain ⟨hstore, hviews⟩ := runGuarded_books crates clients schedule
  exact ⟨hstore.inOrder.validatesClean,
    fun i l hl hcall => (hviews i l hl hcall).inOrder.validatesClean⟩

end

end PgLedger
