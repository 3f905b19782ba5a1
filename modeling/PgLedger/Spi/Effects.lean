import PgLedger.Spi

/-!
# PgLedger.Spi.Effects

What each statement can do, said once: an inversion lemma for every
statement that writes, and the constraints of the schema, which no statement
breaks (`Stmt.eval_constrained`) and hence no program (`Spi.run_constrained`).
-/

namespace PgLedger

/-! ## rows that pass their checks -/

/-- An updated account row differs in balance, version and time of update. -/
theorem AccountRow.withBalance_eq_ok {row row' : AccountRow} {balance : LedgerAmount}
    {version : Int64} {updatedAt : Timestamp}
    (h : row.withBalance balance version updatedAt = .ok row') :
    row'.toAccountValues = { row.toAccountValues with balance } ∧ row'.id = row.id ∧
      row'.version = version ∧ row'.createdAt = row.createdAt ∧ row'.updatedAt = updatedAt := by
  simp only [withBalance] at h
  split at h
  · split at h
    · obtain rfl := Except.ok.inj h
      exact ⟨rfl, rfl, rfl, rfl, rfl⟩
    · contradiction
  · contradiction

/-- A new account starts with the given columns, at version zero. -/
theorem AccountValues.check_eq_ok {v : AccountValues} {id : Uuid} {created updated : Timestamp}
    {row : AccountRow} (h : v.check id created updated = .ok row) :
    row.toAccountValues = v ∧ row.id = id ∧ row.version = 0 := by
  simp only [check] at h
  split at h
  · split at h
    · obtain rfl := Except.ok.inj h
      exact ⟨rfl, rfl, rfl⟩
    · contradiction
  · contradiction

/-- A row that passes its checks holds the values it was made of. -/
theorem EntryValues.check_eq_ok {v : EntryValues} {id : Uuid} {row : EntryRow}
    (h : v.check id = .ok row) : row.toEntryValues = v ∧ row.id = id := by
  simp only [check] at h
  split at h
  · split at h
    · split at h
      · split at h
        · split at h
          · obtain rfl := Except.ok.inj h
            exact ⟨rfl, rfl⟩
          · contradiction
        · contradiction
      · contradiction
    · contradiction
  · contradiction

/-- The rows are exactly what their checks let in. -/
theorem EntryRow.check_self (row : EntryRow) : row.toEntryValues.check row.id = .ok row := by
  rw [EntryValues.check, dif_pos row.versionCheck, dif_pos row.amountCheck,
    dif_pos row.previousCheck,
    dif_pos row.currentCheck, dif_pos row.sumCheck]

/-! ## statements that write -/

/-- The keys and references of the schema let a transaction row in. -/
structure Tables.TakesTransaction (t : Tables) (row : TransactionRow) : Prop where
  key : taken t.idempotencyKeys row.idempotencyKey = false
  id : row.id ∉ t.transactionIds
  link : taken t.reversedIds row.reversesTransactionId = false
  original : ∀ original, row.reversesTransactionId = some original →
    original ∈ row.id :: t.transactionIds

/-- The keys and references of the schema let an entry row in. -/
structure Tables.TakesEntry (t : Tables) (row : EntryRow) : Prop where
  id : row.id ∉ t.entryIds
  version : (row.accountId, row.accountVersion) ∉ t.entryVersions
  transaction : row.transactionId ∈ t.transactionIds
  account : row.accountId ∈ t.accountIds

namespace Stmt

variable {env : Env} {t : Tables} {b : Backend}

/-- The insert of a transaction row either finds the key taken and does
nothing, or finds everything free and adds the row. -/
theorem evalInsertTransaction_eq_ok {v : TransactionValues} {eff : Effect (Option Uuid)}
    (h : evalInsertTransaction env t b v = .ok eff) :
    (taken t.idempotencyKeys v.idempotencyKey = true ∧ eff = ⟨none, [], b.drawUuid⟩) ∨
    ∃ row : TransactionRow, row.toTransactionValues = v ∧ row.id = env.uuidv7 b.uuidsDrawn ∧
      t.TakesTransaction row ∧ eff = ⟨some row.id, [.insertTransaction row], b.drawUuid⟩ := by
  simp only [evalInsertTransaction] at h
  split at h
  · next hkey => exact .inl ⟨hkey, (Except.ok.inj h).symm⟩
  · next hkey =>
    obtain ⟨hid, h⟩ := guard_eq_ok.mp h
    obtain ⟨hlink, h⟩ := guard_eq_ok.mp h
    obtain ⟨hforeign, h⟩ := guard_eq_ok.mp h
    refine .inr ⟨{ v with id := env.uuidv7 b.uuidsDrawn }, rfl, rfl,
      ⟨by simpa using hkey, hid, by simpa using hlink, ?_⟩, (Except.ok.inj h).symm⟩
    intro original horiginal
    have hsome : v.reversesTransactionId = some original := horiginal
    rw [hsome] at hforeign
    rw [List.mem_cons, or_iff_not_imp_left]
    simpa using hforeign

/-- The insert of a transaction row with a taken key does nothing. -/
theorem evalInsertTransaction_of_taken {v : TransactionValues}
    (h : taken t.idempotencyKeys v.idempotencyKey = true) :
    evalInsertTransaction env t b v = .ok ⟨none, [], b.drawUuid⟩ := by
  rw [evalInsertTransaction, if_pos h]

/-- The insert of a transaction row that the schema lets in succeeds. -/
theorem evalInsertTransaction_of_takes {v : TransactionValues} {row : TransactionRow}
    (hvalues : row.toTransactionValues = v) (hid : row.id = env.uuidv7 b.uuidsDrawn)
    (h : t.TakesTransaction row) :
    evalInsertTransaction env t b v = .ok ⟨some row.id, [.insertTransaction row], b.drawUuid⟩ := by
  subst hvalues
  have horiginal : (row.reversesTransactionId.any fun original =>
      original ∉ env.uuidv7 b.uuidsDrawn :: t.transactionIds) = false := by
    cases hlink : row.reversesTransactionId with
    | none => rfl
    | some original =>
        have hmem := h.original original hlink
        rw [hid, List.mem_cons, or_iff_not_imp_left] at hmem
        simpa using hmem
  rw [evalInsertTransaction, h.key, if_neg Bool.false_ne_true, ← hid, if_neg h.id, h.link,
    if_neg Bool.false_ne_true, hid, horiginal, if_neg Bool.false_ne_true]
  rw [← hid]

/-- An update of an account that succeeds finds no row, or writes the one row
that has passed the checks and the trigger. -/
theorem evalUpdateAccount_eq_ok {balance : LedgerAmount} {version : Int64} {id : Uuid}
    {eff : Effect Unit} (h : evalUpdateAccount env t b balance version id = .ok eff) :
    (t.account? id = none ∧ eff = ⟨(), [], b⟩) ∨
    ∃ row row', t.account? id = some row ∧
      row.withBalance balance version (env.clock b.clockReads) = .ok row' ∧
      eff = ⟨(), [.updateAccount row'], b.readClock⟩ := by
  simp only [evalUpdateAccount] at h
  split at h
  · next hnone => exact .inl ⟨hnone, (Except.ok.inj h).symm⟩
  · next row hrow =>
    obtain ⟨_, -, h⟩ := bind_eq_ok.mp h
    obtain ⟨row', hrow', h⟩ := bind_eq_ok.mp h
    exact .inr ⟨row, row', hrow, hrow', (Except.ok.inj h).symm⟩

/-- With the guard open, an update that passes the checks succeeds. -/
theorem evalUpdateAccount_of_open {row : AccountRow} {balance : LedgerAmount} {version : Int64}
    {id : Uuid} (hrow : t.account? id = some row) (hopen : b.internalPosting = some "on".toList)
    (hb : balance.asset = row.asset) (hv : 0 ≤ version.toInt) :
    ∃ row' : AccountRow, row'.id = row.id ∧
      evalUpdateAccount env t b balance version id =
        .ok ⟨(), [.updateAccount row'], b.readClock⟩ := by
  have hguard : balanceGuard b row balance version = .ok () := by
    rw [balanceGuard, if_neg fun h => h.1 hopen]
  refine ⟨{ row with
    balance, version, updatedAt := env.clock b.clockReads, balanceCheck := hb, versionCheck := hv },
    rfl, ?_⟩
  simp only [evalUpdateAccount, hrow, hguard, ok_bind, AccountRow.withBalance, dif_pos hb,
    dif_pos hv]

/-- An insert of an entry that succeeds writes one row, under the drawn
identifier. -/
theorem evalInsertEntry_eq_ok {v : EntryValues} {eff : Effect Unit}
    (h : evalInsertEntry env t b v = .ok eff) :
    ∃ row : EntryRow, row.toEntryValues = v ∧ row.id = env.uuidv7 b.uuidsDrawn ∧
      t.TakesEntry row ∧ eff = ⟨(), [.insertEntry row], b.drawUuid⟩ := by
  simp only [evalInsertEntry] at h
  obtain ⟨row, hrow, hrest⟩ := bind_eq_ok.mp h
  obtain ⟨rfl, hdrawn⟩ := EntryValues.check_eq_ok hrow
  obtain ⟨hid, hrest⟩ := guard_eq_ok.mp hrest
  obtain ⟨hversion, hrest⟩ := guard_eq_ok.mp hrest
  obtain ⟨htransaction, hrest⟩ := guard_eq_ok.mp hrest
  obtain ⟨haccount, hrest⟩ := guard_eq_ok.mp hrest
  exact ⟨row, rfl, hdrawn, ⟨hid, hversion, not_not.mp htransaction, not_not.mp haccount⟩,
    (Except.ok.inj hrest).symm⟩

/-- The insert of an entry row that the schema lets in succeeds. -/
theorem evalInsertEntry_of_takes {v : EntryValues} {row : EntryRow}
    (hvalues : row.toEntryValues = v)
    (hid : row.id = env.uuidv7 b.uuidsDrawn) (h : t.TakesEntry row) :
    evalInsertEntry env t b v = .ok ⟨(), [.insertEntry row], b.drawUuid⟩ := by
  subst hvalues
  rw [evalInsertEntry, ← hid, row.check_self, ok_bind, if_neg h.id, if_neg h.version,
    if_neg (not_not.mpr h.transaction), if_neg (not_not.mpr h.account)]

/-- An insert of an account that succeeds writes one row of version zero, with
an identifier and a name that were not in use. -/
theorem evalInsertAccount_eq_ok {v : AccountValues} {eff : Effect Uuid}
    (h : evalInsertAccount env t b v = .ok eff) :
    ∃ row : AccountRow, row.toAccountValues = v ∧ row.version = 0 ∧ row.id ∉ t.accountIds ∧
      row.name ∉ t.accountNames ∧
      eff = ⟨row.id, [.insertAccount row], b.drawUuid.readClock.readClock⟩ := by
  simp only [evalInsertAccount] at h
  obtain ⟨row, hrow, h⟩ := bind_eq_ok.mp h
  obtain ⟨hid, h⟩ := guard_eq_ok.mp h
  obtain ⟨hname, h⟩ := guard_eq_ok.mp h
  obtain ⟨hvalues, -, hversion⟩ := AccountValues.check_eq_ok hrow
  exact ⟨row, hvalues, hversion, hid, by simpa [taken] using hname, (Except.ok.inj h).symm⟩

end Stmt

/-! ## columns -/

namespace Tables

variable {t : Tables}

/-- One row gives at most one value of a column. -/
theorem filterMap_singleton {α β : Type} (f : α → Option β) (a : α) :
    [a].filterMap f = (f a).toList := by
  cases h : f a <;> simp [h]

/-- A new value at the end of a list without repetitions. -/
theorem nodup_concat {α : Type} {l : List α} {a : α} (hl : l.Nodup) (ha : a ∉ l) :
    (l ++ [a]).Nodup := by
  rw [List.nodup_append]
  refine ⟨hl, List.nodup_singleton a, ?_⟩
  intro x hx y hy
  rw [List.mem_singleton.mp hy]
  rintro rfl
  exact ha hx

/-- A value is free when it is `NULL` or not in the column. -/
theorem taken_eq_false {α : Type} [DecidableEq α] {column : List α} {value : Option α} :
    taken column value = false ↔ ∀ v, value = some v → v ∉ column := by
  cases value with
  | none => simp [taken]
  | some v => simp [taken]

/-- A value is taken when it is given and in the column. -/
theorem taken_eq_true {α : Type} [DecidableEq α] {column : List α} {value : Option α} :
    taken column value = true ↔ ∃ v, value = some v ∧ v ∈ column := by
  cases value with
  | none => simp [taken]
  | some v => simp [taken]

/-- A column stays unique when a free value is added. -/
theorem nodup_append_toList {α : Type} [DecidableEq α] {l : List α} {v : Option α} (hl : l.Nodup)
    (h : taken l v = false) : (l ++ v.toList).Nodup := by
  cases v with
  | none => simpa using hl
  | some v => exact nodup_concat hl (taken_eq_false.mp h v rfl)

section
variable (row : TransactionRow)

/-- A new transaction adds its identifier. -/
@[simp] theorem transactionIds_insertTransaction :
    (t.apply (.insertTransaction row)).transactionIds = t.transactionIds ++ [row.id] :=
  List.map_append

/-- A new transaction adds its key, if it has one. -/
@[simp] theorem idempotencyKeys_insertTransaction :
    (t.apply (.insertTransaction row)).idempotencyKeys =
      t.idempotencyKeys ++ row.idempotencyKey.toList := by
  rw [← filterMap_singleton]
  exact List.filterMap_append

/-- A new transaction adds the one it reverses, if there is one. -/
@[simp] theorem reversedIds_insertTransaction :
    (t.apply (.insertTransaction row)).reversedIds =
      t.reversedIds ++ row.reversesTransactionId.toList := by
  rw [← filterMap_singleton]
  exact List.filterMap_append

end

/-- An update keeps a column that the new version of the row keeps. -/
theorem map_updateAccount {α : Type} (f : AccountRow → α) {row row' : AccountRow}
    (ht : t.accountIds.Nodup) (hrow : t.account? row'.id = some row) (hf : f row' = f row) :
    (t.apply (.updateAccount row')).accounts.map f = t.accounts.map f := by
  have hid : row.id = row'.id := by simpa using List.find?_some hrow
  have hmem : row ∈ t.accounts := List.mem_of_find?_eq_some hrow
  show (t.accounts.map fun a => if a.id = row'.id then row' else a).map f = _
  rw [List.map_map]
  refine List.map_congr_left fun a ha => ?_
  by_cases h : a.id = row'.id
  · have hsame : a = row := List.inj_on_of_nodup_map ht ha hmem (by rw [h, hid])
    rw [Function.comp_apply, if_pos h, hf, hsame]
  · rw [Function.comp_apply, if_neg h]

end Tables

/-! ## constraints -/

section
variable {env : Env} {t : Tables} {b : Backend}

/-- The checks of the insert keep the constraints. -/
theorem Tables.Constrained.insertTransaction {row : TransactionRow} (h : t.Constrained)
    (htakes : t.TakesTransaction row) : (t.apply (.insertTransaction row)).Constrained where
  accountIds := h.accountIds
  accountNames := h.accountNames
  transactionIds := by
    rw [transactionIds_insertTransaction]
    exact nodup_concat h.transactionIds htakes.id
  idempotencyKeys := by
    rw [idempotencyKeys_insertTransaction]
    exact nodup_append_toList h.idempotencyKeys htakes.key
  reversedIds := by
    rw [reversedIds_insertTransaction]
    exact nodup_append_toList h.reversedIds htakes.link
  reversedExist := by
    intro id hmem
    rw [reversedIds_insertTransaction, List.mem_append, Option.mem_toList] at hmem
    rw [transactionIds_insertTransaction, List.mem_append, List.mem_singleton]
    cases hmem with
    | inl hold => exact .inl (h.reversedExist id hold)
    | inr hnew => exact (List.mem_cons.mp (htakes.original id hnew)).symm
  entryIds := h.entryIds
  entryVersions := h.entryVersions
  entryTransactions := by
    intro e he
    rw [transactionIds_insertTransaction]
    exact List.mem_append_left _ (h.entryTransactions e he)
  entryAccounts := h.entryAccounts

/-- The checks of the insert keep the constraints. -/
theorem Tables.Constrained.insertEntry {row : EntryRow} (h : t.Constrained)
    (htakes : t.TakesEntry row) : (t.apply (.insertEntry row)).Constrained where
  accountIds := h.accountIds
  accountNames := h.accountNames
  transactionIds := h.transactionIds
  idempotencyKeys := h.idempotencyKeys
  reversedIds := h.reversedIds
  reversedExist := h.reversedExist
  entryIds := by
    have hcolumn : (t.apply (.insertEntry row)).entryIds = t.entryIds ++ [row.id] :=
      List.map_append
    rw [hcolumn]
    exact nodup_concat h.entryIds htakes.id
  entryVersions := by
    have hcolumn : (t.apply (.insertEntry row)).entryVersions =
        t.entryVersions ++ [(row.accountId, row.accountVersion)] := List.map_append
    rw [hcolumn]
    exact nodup_concat h.entryVersions htakes.version
  entryTransactions := by
    intro e he
    cases List.mem_append.mp he with
    | inl hold => exact h.entryTransactions e hold
    | inr hnew =>
        rw [List.mem_singleton.mp hnew]
        exact htakes.transaction
  entryAccounts := by
    intro e he
    cases List.mem_append.mp he with
    | inl hold => exact h.entryAccounts e hold
    | inr hnew =>
        rw [List.mem_singleton.mp hnew]
        exact htakes.account

/-- A new identifier and a new name keep the constraints. -/
theorem Tables.Constrained.insertAccount {row : AccountRow} (h : t.Constrained)
    (hid : row.id ∉ t.accountIds) (hname : row.name ∉ t.accountNames) :
    (t.apply (.insertAccount row)).Constrained where
  accountIds := by
    have hcolumn : (t.apply (.insertAccount row)).accountIds = t.accountIds ++ [row.id] :=
      List.map_append
    rw [hcolumn]
    exact nodup_concat h.accountIds hid
  accountNames := by
    have hcolumn : (t.apply (.insertAccount row)).accountNames = t.accountNames ++ [row.name] :=
      List.map_append
    rw [hcolumn]
    exact nodup_concat h.accountNames hname
  transactionIds := h.transactionIds
  idempotencyKeys := h.idempotencyKeys
  reversedIds := h.reversedIds
  reversedExist := h.reversedExist
  entryIds := h.entryIds
  entryVersions := h.entryVersions
  entryTransactions := h.entryTransactions
  entryAccounts := by
    intro e he
    have hcolumn : (t.apply (.insertAccount row)).accountIds = t.accountIds ++ [row.id] :=
      List.map_append
    rw [hcolumn]
    exact List.mem_append_left _ (h.entryAccounts e he)

/-- An update that leaves identifier and name keeps the constraints. -/
theorem Tables.Constrained.updateAccount {row row' : AccountRow} (h : t.Constrained)
    (hrow : t.account? row'.id = some row) (hname : row'.name = row.name) :
    (t.apply (.updateAccount row')).Constrained := by
  have hid : row'.id = row.id := by
    have hfound : row.id = row'.id := by simpa using List.find?_some hrow
    rw [hfound]
  have hids : (t.apply (.updateAccount row')).accountIds = t.accountIds :=
    Tables.map_updateAccount (·.id) h.accountIds hrow hid
  have hnames : (t.apply (.updateAccount row')).accountNames = t.accountNames :=
    Tables.map_updateAccount (·.name) h.accountIds hrow hname
  exact { h with
    accountIds := by rw [hids]; exact h.accountIds
    accountNames := by rw [hnames]; exact h.accountNames
    entryAccounts := by rw [hids]; exact h.entryAccounts }

/-- No statement breaks a constraint of the schema. -/
theorem Stmt.eval_constrained {s : Stmt} {eff : Effect s.Result} (h : s.eval env t b = .ok eff)
    (ht : t.Constrained) : (t.applyAll eff.writes).Constrained := by
  cases s with
  | insertTransaction v =>
      rcases evalInsertTransaction_eq_ok h with ⟨-, rfl⟩ | ⟨row, -, -, htakes, rfl⟩
      · exact ht
      · exact ht.insertTransaction htakes
  | updateAccount balance version id =>
      rcases evalUpdateAccount_eq_ok h with ⟨-, rfl⟩ | ⟨row, row', hrow, hrow', rfl⟩
      · exact ht
      · obtain ⟨hvalues, hid, -⟩ := AccountRow.withBalance_eq_ok hrow'
        have hname : row'.name = row.name := by rw [hvalues]
        have hfound : row.id = id := by simpa using List.find?_some hrow
        refine ht.updateAccount ?_ hname
        rw [hid, hfound]
        exact hrow
  | insertEntry v =>
      obtain ⟨row, -, -, htakes, rfl⟩ := evalInsertEntry_eq_ok h
      exact ht.insertEntry htakes
  | insertAccount v =>
      obtain ⟨row, -, -, hid, hname, rfl⟩ := evalInsertAccount_eq_ok h
      exact ht.insertAccount hid hname
  | clockTimestamp | lockTransaction id | findReversal id | reversalPostings id | resolveKey key
  | lockAccount id | setInternalPosting value =>
      obtain rfl := Except.ok.inj h
      exact ht

/-! ## programs -/

/-- All statements a program can send are of a kind. -/
def Spi.All (P : Stmt → Prop) {α : Type} : Spi α → Prop
  | .pure _ => True
  | .fail _ => True
  | .stmt s k => P s ∧ ∀ r, (k r).All P

/-- All statements of a sequence are in a class when those of its parts are. -/
theorem Spi.All.bind {P : Stmt → Prop} {α β : Type} {x : Spi α} {f : α → Spi β} (hx : x.All P)
    (hf : ∀ a, (f a).All P) : (x >>= f).All P := by
  induction x with
  | pure a => exact hf a
  | fail e => trivial
  | stmt s k ih => exact ⟨hx.1, fun r => ih r (hx.2 r)⟩

/-- A single statement of the class. -/
theorem Spi.All.send {P : Stmt → Prop} {s : Stmt} (hs : P s) : (Spi.send s).All P :=
  ⟨hs, fun _ => trivial⟩

/-- A computation sends no statement. -/
theorem Spi.All.ofExcept {P : Stmt → Prop} {α : Type} (x : Except PgError α) :
    (Spi.ofExcept x).All P := by
  cases x with
  | error e => trivial
  | ok a => trivial

/-- A smaller class of statements is part of a larger one. -/
theorem Spi.All.mono {P Q : Stmt → Prop} {α : Type} {x : Spi α} (hx : x.All P)
    (hPQ : ∀ s, P s → Q s) : x.All Q := by
  induction x with
  | pure a => trivial
  | fail e => trivial
  | stmt s k ih => exact ⟨hPQ s hx.1, fun r => ih r (hx.2 r)⟩

/-- What every statement keeps, every program keeps. -/
theorem Spi.run_invariant {P : Tables → Prop} (env : Env)
    (hstep : ∀ (s : Stmt) (t : Tables) (b : Backend) (eff : Effect s.Result),
      s.eval env t b = .ok eff → P t → P (t.applyAll eff.writes))
    {α : Type} (x : Spi α) {a : α} {t t' : Tables} {b b' : Backend}
    (h : x.run env t b = .ok (a, t', b')) (ht : P t) : P t' := by
  induction x generalizing t b with
  | pure a₁ =>
      obtain ⟨-, rfl, -⟩ : a₁ = a ∧ t = t' ∧ b = b' := by simpa [Spi.run] using h
      exact ht
  | fail e => contradiction
  | stmt s k ih =>
      obtain ⟨eff, heff, hrest⟩ := bind_eq_ok.mp h
      exact ih eff.result hrest (hstep s t b eff heff ht)

/-- No program can break a constraint. -/
theorem Spi.run_constrained {α : Type} {x : Spi α} {a : α} {t' : Tables} {b' : Backend}
    (h : x.run env t b = .ok (a, t', b')) (ht : t.Constrained) : t'.Constrained :=
  Spi.run_invariant env (fun _ _ _ _ heff => Stmt.eval_constrained heff) x h ht

end

end PgLedger
