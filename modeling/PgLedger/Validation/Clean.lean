import PgLedger.Validation.Decides

/-!
# PgLedger.Validation.Clean

What `ledger_validate` reports of a ledger whose invariant holds: a clean
report, or an error when a number does not fit into a `numeric`.  Nothing has
to be assumed about the numbers, since the query `cached_balances` looks at all
of them: if it succeeds, they all fit.
-/

namespace PgLedger

open Sql

variable {t : Tables}

/-- The report without violations, in the order of the names. -/
def cleanReport : List CheckResult :=
  (checks.map fun check => ⟨check.1, "OK", 0⟩).insertionSort
    fun left right => left.checkName ≤ right.checkName

/-- Whatever is reported is clean, and there is a report when the numbers fit. -/
structure Tables.ValidatesClean (t : Tables) : Prop where
  quiet : ∀ report, ledgerValidate t = .ok report → report = cleanReport
  answers : t.UnitsInRange → ledgerValidate t = .ok cleanReport

/-! ## queries that succeed -/

/-- A query that succeeds has computed its condition for every row. -/
theorem countWhere_condition {ρ ε : Type} {p : ρ → Except ε Truth} {rows : List ρ} {n : Int}
    (h : countWhere p rows = .ok n) : ∀ row ∈ rows, ∃ c, p row = .ok c := by
  induction rows generalizing n with
  | nil => exact fun _ hrow => absurd hrow List.not_mem_nil
  | cons row rows ih =>
      obtain ⟨c, hc, hrest⟩ := bind_eq_ok.mp h
      obtain ⟨m, hm, -⟩ := bind_eq_ok.mp hrest
      rw [List.forall_mem_cons]
      exact ⟨⟨c, hc⟩, ih hm⟩

/-- What succeeds for a list succeeds for every element. -/
theorem mapM_condition {α β ε : Type} {f : α → Except ε β} {as : List α} {bs : List β}
    (h : as.mapM f = .ok bs) : ∀ a ∈ as, ∃ b, f a = .ok b := by
  have hall : ∃ bs, as.mapM f = .ok bs ∧ ∀ b ∈ bs, True := ⟨bs, h, fun _ _ => trivial⟩
  intro a ha
  obtain ⟨b, hb, -⟩ := exists_mapM_ok.mp hall a ha
  exact ⟨b, hb⟩

theorem inNumericRange_of_units {value : LedgerAmount} {units : Int}
    (h : ledgerAmountUnits value = .ok units) : InNumericRange value.units := by
  by_contra hlarge
  rw [ledgerAmountUnits, if_neg hlarge] at h
  contradiction

/-- `cached_balances` meets every number. -/
theorem unitsInRange_of_cachedBalances (hconstrained : t.Constrained) {n : Int}
    (h : cachedBalances t = .ok n) : t.UnitsInRange := by
  have hcondition := countWhere_condition h
  constructor
  · intro a ha
    obtain ⟨c, hc⟩ := hcondition a ha
    obtain ⟨balance, hbalance, -⟩ := bind_eq_ok.mp hc
    exact inNumericRange_of_units hbalance
  · intro e he
    obtain ⟨a, ha, hid⟩ := List.mem_map.mp (hconstrained.entryAccounts e he)
    obtain ⟨c, hc⟩ := hcondition a ha
    obtain ⟨balance, -, hrest⟩ := bind_eq_ok.mp hc
    obtain ⟨total, htotal, -⟩ := bind_eq_ok.mp hrest
    obtain ⟨units, hunits, -⟩ := bind_eq_ok.mp htotal
    obtain ⟨u, hu⟩ := mapM_condition hunits e (mem_accountEntries.mpr ⟨he, hid.symm⟩)
    exact inNumericRange_of_units hu

/-! ## the report -/

theorem mapM_runCheck {selected : List (String × (Tables → Except PgError Int))}
    (h : ∀ check ∈ selected, check.2 t = .ok 0) :
    selected.mapM (runCheck t) = .ok (selected.map fun check => ⟨check.1, "OK", 0⟩) := by
  refine mapM_ok fun check hcheck => ?_
  rw [runCheck, h check hcheck]
  rfl

namespace Tables.LedgerInvariant

/-- With the numbers in range the report is clean. -/
theorem report (h : t.LedgerInvariant) (hconstrained : t.Constrained) (hrange : t.UnitsInRange) :
    ledgerValidate t = .ok cleanReport := by
  have hpass := (checks_iff hconstrained hrange).mpr h
  rw [ledgerValidate, mapM_runCheck hpass]
  rfl

/-- Whatever is reported of a ledger whose invariant holds is clean. -/
theorem validatesClean (hconstrained : t.Constrained) (h : t.LedgerInvariant) :
    t.ValidatesClean where
  quiet result hresult := by
    obtain ⟨results, hresults, -⟩ := bind_eq_ok.mp hresult
    have hcached : ("cached_balances", cachedBalances) ∈ checks := by
      simp [checks]
    obtain ⟨line, hline⟩ := mapM_condition hresults _ hcached
    obtain ⟨n, hn, -⟩ := bind_eq_ok.mp hline
    rw [h.report hconstrained (unitsInRange_of_cachedBalances hconstrained hn)] at hresult
    exact (Except.ok.inj hresult).symm
  answers := h.report hconstrained

end Tables.LedgerInvariant

end PgLedger
