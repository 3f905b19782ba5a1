import Mathlib.Data.List.Chain
import Mathlib.Data.List.Dedup
import Mathlib.Data.List.Forall2
import Mathlib.Data.List.Range
import Mathlib.Data.List.Sort
import PgLedger.Result

/-!
# PgLedger.Sql

The relational part of SQL on lists of rows: conditions with three truth
values, `WHERE`, `GROUP BY`, the joins, and the window function `lag`.  A
condition may fail, so a query may end with an error.

A query that looks for violations counts the rows that pass its condition;
`countWhere_eq_zero` says when it counts none, and the lemmas beside every
operator say which rows it lets the condition see.
-/

namespace PgLedger

namespace Sql

variable {ρ σ κ ν ε : Type}

/-! ## conditions -/

/-- A truth value; `none` is `NULL`. -/
abbrev Truth := Option Bool

/-- A condition that is never `NULL`. -/
def Truth.of (p : Prop) [Decidable p] : Truth := some p

/-- `OR` -/
def Truth.or : Truth → Truth → Truth
  | some true, _ => some true
  | _, some true => some true
  | some false, some false => some false
  | _, _ => none

/-- `AND` -/
def Truth.and : Truth → Truth → Truth
  | some false, _ => some false
  | _, some false => some false
  | some true, some true => some true
  | _, _ => none

/-- A condition without `NULL` is true when it holds. -/
@[simp] theorem Truth.of_eq_true {p : Prop} [Decidable p] : of p = some true ↔ p := by
  simp [of]

/-- `OR` is true when one side is, whatever the other. -/
@[simp] theorem Truth.or_eq_true {p q : Truth} :
    p.or q = some true ↔ p = some true ∨ q = some true := by
  cases p with
  | none => cases q with
    | none => simp [or]
    | some y => cases y <;> simp [or]
  | some x => cases x <;> cases q with
    | none => simp [or]
    | some y => cases y <;> simp [or]

/-- `AND` is true when both sides are. -/
@[simp] theorem Truth.and_eq_true {p q : Truth} :
    p.and q = some true ↔ p = some true ∧ q = some true := by
  cases p with
  | none => cases q with
    | none => simp [and]
    | some y => cases y <;> simp [and]
  | some x => cases x <;> cases q with
    | none => simp [and]
    | some y => cases y <;> simp [and]

section
variable [DecidableEq ν]

/-- `<>` -/
def ne : Option ν → Option ν → Truth
  | some x, some y => .of (x ≠ y)
  | _, _ => none

/-- `IS DISTINCT FROM` -/
def isDistinctFrom (x y : Option ν) : Truth := .of (x ≠ y)

/-- `<>` is true of two values that differ, and never of `NULL`. -/
@[simp] theorem ne_eq_true {x y : Option ν} :
    ne x y = some true ↔ ∃ a b, x = some a ∧ y = some b ∧ a ≠ b := by
  cases x with
  | none => simp [ne]
  | some a =>
      cases y with
      | none => simp [ne]
      | some b => simp [ne]

/-- `IS DISTINCT FROM` takes `NULL` for a value like others. -/
@[simp] theorem isDistinctFrom_eq_true {x y : Option ν} :
    isDistinctFrom x y = some true ↔ x ≠ y := by
  simp [isDistinctFrom]

end

/-! ## counting -/

/-- `SELECT count(*) … WHERE …`: a row counts when the condition is true, not
when it is `NULL`. -/
def countWhere (p : ρ → Except ε Truth) : List ρ → Except ε Int
  | [] => .ok 0
  | row :: rows => do
      let c ← p row
      let n ← countWhere p rows
      .ok (if c = some true then n + 1 else n)

section
variable {p : ρ → Except ε Truth} {rows : List ρ}

/-- A count is not negative. -/
theorem countWhere_nonneg {n : Int} (h : countWhere p rows = .ok n) : 0 ≤ n := by
  induction rows generalizing n with
  | nil =>
      have hn : 0 = n := Except.ok.inj h
      omega
  | cons row rows ih =>
      obtain ⟨c, -, hrest⟩ := bind_eq_ok.mp h
      obtain ⟨m, hm, hlast⟩ := bind_eq_ok.mp hrest
      have hnonneg := ih hm
      have hn : (if c = some true then m + 1 else m) = n := Except.ok.inj hlast
      split at hn
      · omega
      · omega

/-- Nothing is counted exactly when no row passes. -/
theorem countWhere_eq_zero : countWhere p rows = .ok 0 ↔
    ∀ row ∈ rows, ∃ c, p row = .ok c ∧ c ≠ some true := by
  induction rows with
  | nil => simp [countWhere]
  | cons row rows ih =>
      rw [List.forall_mem_cons, ← ih, countWhere, bind_eq_ok]
      constructor
      · intro h
        obtain ⟨c, hc, hrest⟩ := h
        obtain ⟨m, hm, hlast⟩ := bind_eq_ok.mp hrest
        have hnonneg := countWhere_nonneg hm
        have hzero : (if c = some true then m + 1 else m) = 0 := Except.ok.inj hlast
        split at hzero
        · omega
        · next hc' =>
          rw [hzero] at hm
          exact ⟨⟨c, hc, hc'⟩, hm⟩
      · intro h
        obtain ⟨⟨c, hc, hc'⟩, hm⟩ := h
        refine ⟨c, hc, ?_⟩
        rw [hm, ok_bind, if_neg hc']

/-- The form for conditions that do not fail on these rows. -/
theorem countWhere_eq_zero_of_ok {c : ρ → Truth} (h : ∀ row ∈ rows, p row = .ok (c row)) :
    countWhere p rows = .ok 0 ↔ ∀ row ∈ rows, c row ≠ some true := by
  rw [countWhere_eq_zero]
  refine forall₂_congr fun row hrow => ?_
  rw [h row hrow]
  simp

/-- Rows on which two conditions agree are counted alike. -/
theorem countWhere_congr {q : σ → Except ε Truth} {rows' : List σ}
    (h : List.Forall₂ (fun row row' => p row = q row') rows rows') :
    countWhere p rows = countWhere q rows' := by
  induction h with
  | nil => rfl
  | cons hrow _ ih => rw [countWhere, countWhere, hrow, ih]

end

/-! ## grouping -/

section
variable [DecidableEq κ]

/-- `GROUP BY`: the keys that occur, each with its rows. -/
def groupBy (key : ρ → κ) (rows : List ρ) : List (κ × List ρ) :=
  (rows.map key).dedup.map fun k => (k, rows.filter (key · = k))

/-- The groups are the rows with one key, for every key that occurs. -/
theorem mem_groupBy {key : ρ → κ} {rows : List ρ} {g : κ × List ρ} : g ∈ groupBy key rows ↔
    (∃ row ∈ rows, key row = g.1) ∧ g.2 = rows.filter (key · = g.1) := by
  obtain ⟨k, members⟩ := g
  rw [groupBy, List.mem_map]
  constructor
  · intro h
    obtain ⟨k', hk', heq⟩ := h
    obtain ⟨rfl, rfl⟩ := Prod.mk.inj heq
    rw [List.mem_dedup, List.mem_map] at hk'
    exact ⟨hk', rfl⟩
  · intro h
    obtain ⟨hk, hmembers⟩ := h
    exact ⟨k, List.mem_dedup.mpr (List.mem_map.mpr hk), Prod.ext rfl hmembers.symm⟩

/-- What holds of every group holds of the group of every row. -/
theorem forall_groupBy {key : ρ → κ} {rows : List ρ} {P : κ × List ρ → Prop} :
    (∀ g ∈ groupBy key rows, P g) ↔
      ∀ row ∈ rows, P (key row, rows.filter (key · = key row)) := by
  constructor
  · intro h row hrow
    exact h _ (mem_groupBy.mpr ⟨⟨row, hrow, rfl⟩, rfl⟩)
  · intro h g hg
    obtain ⟨⟨row, hrow, hkey⟩, hmembers⟩ := mem_groupBy.mp hg
    have hgroup : (key row, rows.filter (key · = key row)) = g := by
      rw [hkey, ← hmembers]
    rw [← hgroup]
    exact h row hrow

/-- Rows that correspond and have the same keys fall into groups that correspond. -/
theorem groupBy_rel {R : ρ → σ → Prop} {key : ρ → κ} {key' : σ → κ} {rows : List ρ}
    {rows' : List σ} (hkey : ∀ row row', R row row' → key row = key' row')
    (h : List.Forall₂ R rows rows') :
    List.Forall₂ (fun g g' => g.1 = g'.1 ∧ List.Forall₂ R g.2 g'.2) (groupBy key rows)
      (groupBy key' rows') := by
  have hkeys : rows.map key = rows'.map key' := by
    rw [← List.forall₂_eq_eq_eq]
    exact List.rel_map (fun row row' hrow => hkey row row' hrow) h
  rw [groupBy, groupBy, hkeys, List.forall₂_map_left_iff, List.forall₂_map_right_iff,
    List.forall₂_same]
  intro k _
  refine ⟨rfl, List.rel_filter (fun row row' hrow => ?_) h⟩
  dsimp only
  rw [hkey row row' hrow]

/-- Without repetitions, every group is a single row. -/
theorem length_of_mem_groupBy {key : ρ → κ} {rows : List ρ} (h : (rows.map key).Nodup)
    {g : κ × List ρ} (hg : g ∈ groupBy key rows) : g.2.length ≤ 1 := by
  obtain ⟨-, hmembers⟩ := mem_groupBy.mp hg
  have hcount : g.2.length = (rows.map key).count g.1 := by
    rw [hmembers, List.count_eq_countP, List.countP_map, List.countP_eq_length_filter]
    rfl
  rw [hcount]
  exact List.nodup_iff_count_le_one.mp h g.1

/-- `SELECT …, count(*) … GROUP BY …`, for rows that are their own key. -/
def counted (keys : List κ) : List (κ × Nat) := (groupBy id keys).map fun g => (g.1, g.2.length)

/-- The counts of the keys that occur. -/
theorem mem_counted {keys : List κ} {k : κ} {n : Nat} :
    (k, n) ∈ counted keys ↔ k ∈ keys ∧ keys.count k = n := by
  have hlength (k : κ) : (keys.filter fun k' => id k' = k).length = keys.count k := by
    rw [List.count_eq_countP, List.countP_eq_length_filter]
    rfl
  rw [counted, List.mem_map]
  constructor
  · intro h
    obtain ⟨g, hg, heq⟩ := h
    obtain ⟨⟨k', hk', hkey⟩, hmembers⟩ := mem_groupBy.mp hg
    obtain ⟨rfl, rfl⟩ := Prod.mk.inj heq
    refine ⟨hkey ▸ hk', ?_⟩
    rw [hmembers, hlength]
  · intro h
    obtain ⟨hk, rfl⟩ := h
    refine ⟨(k, keys.filter fun k' => id k' = k), mem_groupBy.mpr ⟨⟨k, hk, rfl⟩, rfl⟩, ?_⟩
    rw [hlength]

/-- Counted keys are the keys up to their order. -/
theorem counted_same_iff {keys keys' : List κ} :
    (∀ x, x ∈ counted keys ↔ x ∈ counted keys') ↔ keys.Perm keys' := by
  constructor
  · intro h
    rw [List.perm_iff_count]
    intro k
    have hcount := h (k, keys.count k)
    have hcount' := h (k, keys'.count k)
    rw [mem_counted, mem_counted] at hcount hcount'
    by_cases hk : k ∈ keys
    · exact (hcount.mp ⟨hk, rfl⟩).2.symm
    · have hk' : k ∉ keys' := fun hmem => hk (hcount'.mpr ⟨hmem, rfl⟩).1
      rw [List.count_eq_zero_of_not_mem hk, List.count_eq_zero_of_not_mem hk']
  · intro h x
    obtain ⟨k, n⟩ := x
    rw [mem_counted, mem_counted, h.mem_iff, h.count_eq]

end

/-! ## joins -/

section
variable (on : ρ → σ → Prop) [∀ r s, Decidable (on r s)]

/-- `JOIN` -/
def join (rows : List ρ) (others : List σ) : List (ρ × σ) :=
  rows.flatMap fun row => (others.filter (on row)).map fun other => (row, other)

/-- `LEFT JOIN` -/
def leftJoin (rows : List ρ) (others : List σ) : List (ρ × Option σ) :=
  rows.flatMap fun row => match others.filter (on row) with
    | [] => [(row, none)]
    | matching => matching.map fun other => (row, some other)

variable {on}

/-- A join pairs the rows that its condition holds of. -/
theorem mem_join {rows : List ρ} {others : List σ} {p : ρ × σ} :
    p ∈ join on rows others ↔ p.1 ∈ rows ∧ p.2 ∈ others ∧ on p.1 p.2 := by
  obtain ⟨row, other⟩ := p
  simp [join]

/-- A left join takes its left rows from the table. -/
theorem fst_mem_of_leftJoin {rows : List ρ} {others : List σ} {p : ρ × Option σ}
    (h : p ∈ leftJoin on rows others) : p.1 ∈ rows := by
  obtain ⟨row, hrow, hmem⟩ := List.mem_flatMap.mp h
  split at hmem
  · rw [List.mem_singleton.mp hmem]
    exact hrow
  · obtain ⟨other, -, rfl⟩ := List.mem_map.mp hmem
    exact hrow

/-- Rows that correspond and have the same matches are joined to the same rows. -/
theorem leftJoin_rel {R : ρ → ρ → Prop} {rows rows' : List ρ}
    (hon : ∀ row row', R row row' → ∀ other, on row other ↔ on row' other)
    (h : List.Forall₂ R rows rows') (others : List σ) :
    List.Forall₂ (fun p p' => R p.1 p'.1 ∧ p.2 = p'.2) (leftJoin on rows others)
      (leftJoin on rows' others) := by
  refine List.rel_flatMap h fun row row' hrow => ?_
  have hmatches : others.filter (on row) = others.filter (on row') :=
    List.filter_congr fun other _ => by simp only [hon row row' hrow other]
  rw [hmatches]
  cases others.filter (on row') with
  | nil => exact .cons ⟨hrow, rfl⟩ .nil
  | cons other matching =>
      dsimp only
      rw [List.forall₂_map_left_iff, List.forall₂_map_right_iff, List.forall₂_same]
      exact fun _ _ => ⟨hrow, rfl⟩

/-- Every row keeps a place in the `LEFT JOIN`. -/
theorem leftJoin_keeps {rows : List ρ} {others : List σ} {row : ρ} (h : row ∈ rows) :
    ∃ p ∈ leftJoin on rows others, p.1 = row := by
  cases hfilter : others.filter (on row) with
  | nil =>
      refine ⟨(row, none), List.mem_flatMap.mpr ⟨row, h, ?_⟩, rfl⟩
      rw [hfilter]
      exact List.mem_singleton_self _
  | cons other matching =>
      refine ⟨(row, some other), List.mem_flatMap.mpr ⟨row, h, ?_⟩, rfl⟩
      rw [hfilter]
      exact List.mem_cons_self

/-- The matches of one row: those that stand beside its key. -/
theorem filterMap_leftJoin [DecidableEq κ] {key : ρ → κ} {rows : List ρ} {others : List σ}
    (hkeys : (rows.map key).Nodup) {row : ρ} (h : row ∈ rows) :
    ((leftJoin on rows others).filter (fun p => key p.1 = key row)).filterMap (·.2) =
      others.filter (on row) := by
  induction rows with
  | nil => exact absurd h List.not_mem_nil
  | cons first rows ih =>
      rw [List.map_cons, List.nodup_cons] at hkeys
      have hsplit : leftJoin on (first :: rows) others =
          leftJoin on [first] others ++ leftJoin on rows others := by
        rw [leftJoin, leftJoin, leftJoin, ← List.flatMap_append, List.singleton_append]
      have hkeyed (key' : κ) (rows' : List ρ) (hother : ∀ r ∈ rows', key r ≠ key') :
          (leftJoin on rows' others).filter (fun p => key p.1 = key') = [] := by
        rw [List.filter_eq_nil_iff]
        intro p hp
        simpa using hother p.1 (fst_mem_of_leftJoin hp)
      rw [hsplit, List.filter_append, List.filterMap_append]
      by_cases hfirst : row = first
      · subst hfirst
        have hself : (leftJoin on [row] others).filter (fun p => key p.1 = key row) =
            leftJoin on [row] others := by
          rw [List.filter_eq_self]
          intro p hp
          have hp' : p.1 = row := by simpa using fst_mem_of_leftJoin hp
          simp [hp']
        have hne : ∀ r ∈ rows, key r ≠ key row := by
          intro r hr heq
          exact hkeys.1 (heq ▸ List.mem_map_of_mem hr)
        rw [hself, hkeyed _ rows hne]
        rw [leftJoin, List.flatMap_singleton, List.filterMap_nil, List.append_nil]
        cases hfilter : others.filter (on row) with
        | nil => rfl
        | cons other matching => simp [List.filterMap_map]
      · have hrow : row ∈ rows := (List.mem_cons.mp h).resolve_left hfirst
        have hne : ∀ r ∈ [first], key r ≠ key row := by
          intro r hr heq
          rw [List.mem_singleton.mp hr] at heq
          exact hkeys.1 (heq ▸ List.mem_map_of_mem hrow)
        rw [hkeyed _ [first] hne, List.filterMap_nil, List.nil_append, ih hkeys.2 hrow]

end

/-- `FULL JOIN … USING` all columns. -/
def fullJoin [DecidableEq κ] (rows others : List κ) : List (Option κ × Option κ) :=
  (rows.flatMap fun row => match others.filter (· = row) with
    | [] => [(some row, none)]
    | matching => matching.map fun other => (some row, some other)) ++
  (others.filter (· ∉ rows)).map fun other => (none, some other)

/-- Nothing is left over on either side exactly when the same rows occur. -/
theorem fullJoin_matched [DecidableEq κ] {rows others : List κ} :
    (∀ p ∈ fullJoin rows others, p.1.isSome ∧ p.2.isSome) ↔ ∀ x, x ∈ rows ↔ x ∈ others := by
  constructor
  · intro h x
    constructor
    · intro hx
      by_contra hno
      have hnone : others.filter (· = x) = [] := by
        rw [List.filter_eq_nil_iff]
        intro y hy
        have hne : y ≠ x := fun heq => hno (heq ▸ hy)
        simpa using hne
      have hmem : (some x, none) ∈ fullJoin rows others := by
        refine List.mem_append_left _ (List.mem_flatMap.mpr ⟨x, hx, ?_⟩)
        rw [hnone]
        exact List.mem_singleton_self _
      have hsome := (h _ hmem).2
      contradiction
    · intro hx
      by_contra hno
      have hmem : (none, some x) ∈ fullJoin rows others :=
        List.mem_append_right _
          (List.mem_map.mpr ⟨x, List.mem_filter.mpr ⟨hx, by simpa using hno⟩, rfl⟩)
      have hsome := (h _ hmem).1
      contradiction
  · intro h p hp
    cases List.mem_append.mp hp with
    | inl hleft =>
        obtain ⟨row, hrow, hmem⟩ := List.mem_flatMap.mp hleft
        split at hmem
        · next hnone =>
          have hother : row ∈ others.filter (· = row) :=
            List.mem_filter.mpr ⟨(h row).mp hrow, by simp⟩
          simp only [hnone] at hother
          contradiction
        · obtain ⟨other, -, rfl⟩ := List.mem_map.mp hmem
          exact ⟨rfl, rfl⟩
    | inr hright =>
        obtain ⟨other, hother, -⟩ := List.mem_map.mp hright
        obtain ⟨hmem, hno⟩ := List.mem_filter.mp hother
        have hrow := (h other).mpr hmem
        simp [hrow] at hno

/-! ## windows -/

/-- Every row with the value of the row before it. -/
def lagFrom (value : ρ → ν) : Option ν → List ρ → List (ρ × Option ν)
  | _, [] => []
  | prior, row :: rows => (row, prior) :: lagFrom value (some (value row)) rows

section
variable [DecidableEq κ] (partitionBy : ρ → κ) (orderBy : ρ → Int) (value : ρ → ν)

/-- The rows of a partition in its order. -/
def window (rows : List ρ) (k : κ) : List ρ :=
  (rows.filter (partitionBy · = k)).insertionSort fun r s => orderBy r ≤ orderBy s

/-- `lag(value) OVER (PARTITION BY … ORDER BY …)`, beside its row. -/
def lag (rows : List ρ) : List (ρ × Option ν) :=
  (groupBy partitionBy rows).flatMap fun g =>
    lagFrom value none (g.2.insertionSort fun r s => orderBy r ≤ orderBy s)

variable {partitionBy orderBy value} {rows : List ρ}

/-- A window with `lag` returns rows that it was given. -/
theorem fst_mem_of_lagFrom {prior : Option ν} {p : ρ × Option ν}
    (h : p ∈ lagFrom value prior rows) :
    p.1 ∈ rows := by
  induction rows generalizing prior with
  | nil => exact absurd h List.not_mem_nil
  | cons row rows ih =>
      rcases List.mem_cons.mp h with rfl | hrest
      · exact List.mem_cons_self
      · exact List.mem_cons_of_mem _ (ih hrest)

/-- A window with `lag` returns every row that it was given. -/
theorem lagFrom_keeps (prior : Option ν) {row : ρ} (h : row ∈ rows) :
    ∃ p ∈ lagFrom value prior rows, p.1 = row := by
  induction rows generalizing prior with
  | nil => exact absurd h List.not_mem_nil
  | cons first rows ih =>
      rcases List.mem_cons.mp h with rfl | hrest
      · exact ⟨_, List.mem_cons_self, rfl⟩
      · obtain ⟨p, hp, hfst⟩ := ih (some (value first)) hrest
        exact ⟨p, List.mem_cons_of_mem _ hp, hfst⟩

/-- The window of a key holds the rows with that key. -/
theorem mem_window {k : κ} {row : ρ} :
    row ∈ window partitionBy orderBy rows k ↔ row ∈ rows ∧ partitionBy row = k := by
  rw [window, List.mem_insertionSort, List.mem_filter, decide_eq_true_eq]

/-- A row and its lag stand in the window of the row. -/
theorem mem_lag {p : ρ × Option ν} : p ∈ lag partitionBy orderBy value rows ↔
    p ∈ lagFrom value none (window partitionBy orderBy rows (partitionBy p.1)) := by
  rw [lag, List.mem_flatMap]
  constructor
  · intro h
    obtain ⟨g, hg, hp⟩ := h
    obtain ⟨-, hmembers⟩ := mem_groupBy.mp hg
    rw [hmembers] at hp
    obtain ⟨-, hkey⟩ := mem_window.mp (fst_mem_of_lagFrom hp)
    rw [hkey]
    exact hp
  · intro h
    obtain ⟨hrow, -⟩ := mem_window.mp (fst_mem_of_lagFrom h)
    refine ⟨(partitionBy p.1, rows.filter (partitionBy · = partitionBy p.1)), ?_, h⟩
    exact mem_groupBy.mpr ⟨⟨p.1, hrow, rfl⟩, rfl⟩

/-- Every row stands beside its lag. -/
theorem lag_keeps {row : ρ} (h : row ∈ rows) :
    ∃ prior, (row, prior) ∈ lag partitionBy orderBy value rows := by
  have hrow : row ∈ window partitionBy orderBy rows (partitionBy row) := mem_window.mpr ⟨h, rfl⟩
  have hkept : ∃ p ∈ lagFrom value none (window partitionBy orderBy rows (partitionBy row)),
      p.1 = row := lagFrom_keeps none hrow
  obtain ⟨p, hp, rfl⟩ := hkept
  exact ⟨p.2, mem_lag.mpr hp⟩

/-- After a row, in an order without gaps, the lag is the value of the row
one below. -/
theorem lagFrom_isChain {before : ρ}
    (hchain : (before :: rows).IsChain fun r s => orderBy s = orderBy r + 1) {p : ρ × Option ν}
    (h : p ∈ lagFrom value (some (value before)) rows) :
    ∃ row ∈ before :: rows, orderBy p.1 = orderBy row + 1 ∧ p.2 = some (value row) := by
  induction rows generalizing before with
  | nil => exact absurd h List.not_mem_nil
  | cons row rows ih =>
      rw [List.isChain_cons_cons] at hchain
      rcases List.mem_cons.mp h with rfl | hrest
      · exact ⟨before, List.mem_cons_self, hchain.1, rfl⟩
      · obtain ⟨r, hr, horder, hvalue⟩ := ih hchain.2 hrest
        exact ⟨r, List.mem_cons_of_mem _ hr, horder, hvalue⟩

/-- A window whose order values are 1, 2, … without gap or repetition. -/
theorem window_map {k : κ} {n : Nat}
    (h : ((rows.filter (partitionBy · = k)).map orderBy).Perm
      ((List.range n).map fun i : Nat => (i : Int) + 1)) :
    (window partitionBy orderBy rows k).map orderBy =
      (List.range n).map fun i : Nat => (i : Int) + 1 := by
  have hsorted : ((window partitionBy orderBy rows k).map orderBy).Pairwise (· ≤ ·) := by
    have : Std.Total fun r s : ρ => orderBy r ≤ orderBy s := ⟨fun r s => le_total _ _⟩
    have : IsTrans ρ fun r s => orderBy r ≤ orderBy s := ⟨fun r s t hrs hst => le_trans hrs hst⟩
    exact List.pairwise_map.mpr (List.pairwise_insertionSort _ _)
  have hrange : ((List.range n).map fun i : Nat => (i : Int) + 1).Pairwise (· ≤ ·) := by
    rw [List.pairwise_map]
    refine List.pairwise_le_range.imp fun hij => ?_
    omega
  have hperm := ((List.perm_insertionSort (fun r s => orderBy r ≤ orderBy s)
    (rows.filter (partitionBy · = k))).map orderBy).trans h
  exact hperm.eq_of_pairwise' hsorted hrange

/-- **Lag**: in such a window, the row with the order value 1 has no lag, and
the lag of every other row is the value of the row one below. -/
theorem lag_spec {p : ρ × Option ν} {n : Nat} (hp : p ∈ lag partitionBy orderBy value rows)
    (h : ((rows.filter (partitionBy · = partitionBy p.1)).map orderBy).Perm
      ((List.range n).map fun i : Nat => (i : Int) + 1)) :
    (orderBy p.1 = 1 ∧ p.2 = none) ∨
      ∃ row ∈ rows, partitionBy row = partitionBy p.1 ∧ orderBy row + 1 = orderBy p.1 ∧
        p.2 = some (value row) := by
  have hmap := window_map h
  have hmem := mem_lag.mp hp
  have hrows (row : ρ) : row ∈ window partitionBy orderBy rows (partitionBy p.1) ↔
      row ∈ rows ∧ partitionBy row = partitionBy p.1 := mem_window
  generalize window partitionBy orderBy rows (partitionBy p.1) = ordered at hmap hmem hrows
  cases ordered with
  | nil => exact absurd hmem List.not_mem_nil
  | cons first others =>
      have hlast : (((first :: others).map orderBy).IsChain fun i j => j = i + 1) := by
        rw [hmap, List.isChain_map]
        refine (List.isChain_range _ n).mpr fun i _ => ?_
        omega
      rw [List.isChain_map] at hlast
      cases List.mem_cons.mp hmem with
      | inl heq =>
          left
          cases n with
          | zero => simp at hmap
          | succ n =>
              rw [List.range_succ_eq_map, List.map_cons, List.map_cons] at hmap
              obtain ⟨hfirst, -⟩ := List.cons.inj hmap
              rw [heq]
              exact ⟨by simpa using hfirst, rfl⟩
      | inr hrest =>
          right
          obtain ⟨row, hrow, horder, hvalue⟩ := lagFrom_isChain hlast hrest
          obtain ⟨hin, hkey⟩ := (hrows row).mp hrow
          exact ⟨row, hin, hkey, horder.symm, hvalue⟩

end

end Sql

end PgLedger
