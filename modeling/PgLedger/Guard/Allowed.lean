import PgLedger.Amount.RoundTrip
import PgLedger.Concurrency.Frame
import PgLedger.Guard.Settings

/-!
# PgLedger.Guard.Allowed

What the statements that get through may do.  `Change.Allows` says what one
change may do to the row of an account, and `Allowed` that a sequence of
changes does no more, and only adds to the transactions and entries.

The statements of the public functions make allowed changes (`Stmt.eval_fits`),
and so do direct statements as long as the guard is up (`Direct.eval_fits`).
-/

namespace PgLedger

/-! ## allowed changes -/

/-- The asset of an account stays.  Its balance and version stay too, unless
this is an update by the posting engine. -/
def Change.Allows (d : Change) (a a' : AccountRow) : Prop :=
  a'.asset = a.asset ∧ (a'.balance = a.balance ∧ a'.version = a.version ∨
    ∃ row, d = .posting (.updateAccount row) ∧ row.id = a.id)

theorem Change.Allows.refl (d : Change) (a : AccountRow) : d.Allows a a :=
  ⟨rfl, .inl ⟨rfl, rfl⟩⟩

/-- The change leaves all transactions and entries that there are alone. -/
structure Change.Appends (d : Change) : Prop where
  transactions : ∀ a, transactionChanges.onRow d a = some a
  entries : ∀ a, entryChanges.onRow d a = some a

structure Allowed (slots : Slots AccountRow) (ds : List Change) : Prop where
  respects : accountChanges.Respects Change.Allows ds slots
  distinct : accountChanges.Distinct (accountChanges.applyAll ds slots)
  appends : ∀ d ∈ ds, d.Appends

/-- Allowed changes of a session that holds `claims`. -/
structure Fits (slots : Slots AccountRow) (ds : List Change) (claims : List Claim) : Prop
    extends Allowed slots ds where
  claimed : ∀ id ∈ accountChanges.touched ds, .account id ∈ claims

section
variable {slots : Slots AccountRow} {d : Change} {ds es : List Change}
variable {claims claims' : List Claim}

/-- Allowed changes one after another. -/
theorem Allowed.append (h : Allowed slots ds) (h' : Allowed (accountChanges.applyAll ds slots) es) :
    Allowed slots (ds ++ es) where
  respects := Changes.respects_append.mpr ⟨h.respects, h'.respects⟩
  distinct := by
    rw [Changes.applyAll_append]
    exact h'.distinct
  appends d hd := (List.mem_append.mp hd).elim (h.appends d) (h'.appends d)

/-- The later changes are allowed where the earlier ones have led. -/
theorem Allowed.right (h : Allowed slots (ds ++ es)) :
    Allowed (accountChanges.applyAll ds slots) es where
  respects := (Changes.respects_append.mp h.respects).2
  distinct := by
    rw [← Changes.applyAll_append]
    exact h.distinct
  appends d hd := h.appends d (List.mem_append_right _ hd)

theorem Fits.nil (h : accountChanges.Distinct slots) : Fits slots [] claims where
  respects := trivial
  distinct := h
  appends _ hd := absurd hd List.not_mem_nil
  claimed _ hid := absurd hid List.not_mem_nil

theorem Fits.more (h : Fits slots ds claims) (hsub : claims ⊆ claims') :
    Fits slots ds claims' where
  toAllowed := h.toAllowed
  claimed id hid := hsub (h.claimed id hid)

/-- Changes that fit, one after another. -/
theorem Fits.append (h : Fits slots ds claims)
    (h' : Fits (accountChanges.applyAll ds slots) es claims') :
    Fits slots (ds ++ es) (claims ++ claims') where
  toAllowed := h.toAllowed.append h'.toAllowed
  claimed id hid := by
    rw [Changes.touched, List.flatMap_append, List.mem_append] at hid
    rw [List.mem_append]
    exact hid.imp (h.claimed id) (h'.claimed id)

/-- The changes of another session, with claims of its own, do not matter. -/
theorem Fits.publish (h : Fits slots ds claims) (h' : Fits slots es claims')
    (hclaims : ∀ c ∈ claims, c ∉ claims') : Fits (accountChanges.applyAll es slots) ds claims := by
  have hdisjoint (id : Uuid) (hid : id ∈ accountChanges.touched ds) :
      id ∉ accountChanges.touched es := fun hid' =>
    hclaims _ (h.claimed id hid) (h'.claimed id hid')
  refine { h with respects := ?_, distinct := ?_ }
  · refine h.respects.transfer Change.Allows.refl fun a ha => ?_
    exact (Changes.mem_applyAll ha).imp_right fun hmem hmem' => hdisjoint _ hmem' hmem
  · exact Changes.Distinct.disjoint h'.distinct h.distinct hdisjoint

/-! ## single changes -/

theorem Fits.single (hrows : ∀ a, some a ∈ slots → ∀ a' ∈ accountChanges.onRow d a, d.Allows a a')
    (hdistinct : accountChanges.Distinct (accountChanges.apply d slots)) (happends : d.Appends)
    (hclaimed : ∀ id ∈ accountChanges.touches d, .account id ∈ claims) : Fits slots [d] claims where
  respects := ⟨hrows, trivial⟩
  distinct := hdistinct
  appends d' hd' := by
    rw [List.mem_singleton.mp hd']
    exact happends
  claimed id hid := by
    rw [Changes.touched, List.flatMap_singleton] at hid
    exact hclaimed id hid

/-- A change that has nothing to do with accounts. -/
theorem Fits.other (h : accountChanges.Distinct slots) (hkind : d.toAccounts = .other)
    (happends : d.Appends) : Fits slots [d] claims := by
  refine .single ?_ (Changes.Distinct.keep h (.inr hkind)) happends ?_
  · intro a _ a' ha'
    rw [accountChanges, Changes.onRow_ofKind, hkind] at ha'
    obtain rfl := Option.some.inj ha'
    exact .refl d a
  · intro id hid
    change id ∈ d.toAccounts.touches (·.id) at hid
    rw [hkind] at hid
    exact absurd hid List.not_mem_nil

/-- A new account, under an identifier that is free. -/
theorem Fits.insert {row : AccountRow} (h : accountChanges.Distinct slots)
    (hnew : ∀ a, some a ∈ slots → a.id ≠ row.id) (hclaim : .account row.id ∈ claims) :
    Fits slots [.posting (.insertAccount row)] claims := by
  refine .single ?_ (Changes.Distinct.insert h rfl hnew) ⟨fun _ => rfl, fun _ => rfl⟩ ?_
  · intro a _ a' ha'
    obtain rfl := Option.some.inj ha'
    exact .refl _ a
  · intro id hid
    rw [List.mem_singleton.mp hid]
    exact hclaim

/-- A new version of the account that has the identifier. -/
theorem Fits.replace {id : Uuid} {old row : AccountRow} (h : accountChanges.Distinct slots)
    (hkind : d.toAccounts = .replace id row) (happends : d.Appends) (hold : some old ∈ slots)
    (hid : old.id = id) (hallows : d.Allows old row)
    (hfree : row.id = id ∨ ∀ a, some a ∈ slots → a.id ≠ row.id)
    (hclaims : .account id ∈ claims ∧ .account row.id ∈ claims) : Fits slots [d] claims := by
  refine .single ?_ (Changes.Distinct.replace h hkind hfree) happends ?_
  · intro a ha a' ha'
    rw [accountChanges, Changes.onRow_ofKind, hkind, RowChange.onRow, Option.mem_def,
      Option.some.injEq] at ha'
    split at ha'
    · next haid =>
      obtain rfl := ha'
      obtain rfl : a = old := h.eq ha hold (haid.trans hid.symm)
      exact hallows
    · obtain rfl := ha'
      exact .refl d a
  · intro id' hid'
    change id' ∈ d.toAccounts.touches (·.id) at hid'
    rw [hkind, RowChange.touches, List.mem_cons, List.mem_singleton] at hid'
    rcases hid' with rfl | rfl
    · exact hclaims.1
    · exact hclaims.2

theorem Fits.delete {id : Uuid} (h : accountChanges.Distinct slots)
    (hclaim : .account id ∈ claims) : Fits slots [.deleteAccount id] claims := by
  refine .single ?_ (Changes.Distinct.keep h (.inl ⟨id, rfl⟩)) ⟨fun _ => rfl, fun _ => rfl⟩ ?_
  · intro a _ a' ha'
    change (if a.id = id then none else some a) = some a' at ha'
    split at ha'
    · contradiction
    · obtain rfl := Option.some.inj ha'
      exact .refl _ a
  · intro id' hid'
    rw [List.mem_singleton.mp hid']
    exact hclaim

end

/-! ## statements -/

section
variable {env : Env} {t : Tables} {b : Backend} {slots : Slots AccountRow}

theorem mem_slots (ht : t.accounts = slots.reduceOption) {a : AccountRow} :
    a ∈ t.accounts ↔ some a ∈ slots := by
  rw [ht, List.reduceOption_mem_iff]

/-- An identifier without a row. -/
theorem free_slots (ht : t.accounts = slots.reduceOption) {id : Uuid} (h : id ∉ t.accountIds) :
    ∀ a, some a ∈ slots → a.id ≠ id := by
  rintro a ha rfl
  exact h (List.mem_map_of_mem ((mem_slots ht).mpr ha))

/-- A statement of a public function makes allowed changes. -/
theorem Stmt.eval_fits (ht : t.accounts = slots.reduceOption)
    (hdistinct : accountChanges.Distinct slots) {s : Stmt} {effect : Effect s.Result}
    (h : s.eval env t b = .ok effect) :
    Fits slots (effect.writes.map .posting) (effect.writes.flatMap (·.claims)) := by
  cases s with
  | insertTransaction v =>
      rcases evalInsertTransaction_eq_ok h with ⟨-, rfl⟩ | ⟨row, -, -, -, rfl⟩
      · exact .nil hdistinct
      · exact .other hdistinct rfl ⟨fun _ => rfl, fun _ => rfl⟩
  | insertEntry v =>
      obtain ⟨row, -, -, -, rfl⟩ := evalInsertEntry_eq_ok h
      exact .other hdistinct rfl ⟨fun _ => rfl, fun _ => rfl⟩
  | insertAccount v =>
      obtain ⟨row, -, -, hid, -, rfl⟩ := evalInsertAccount_eq_ok h
      exact .insert hdistinct (free_slots ht hid) List.mem_cons_self
  | updateAccount balance version id =>
      rcases evalUpdateAccount_eq_ok h with ⟨-, rfl⟩ | ⟨old, row, hold, hrow, rfl⟩
      · exact .nil hdistinct
      · obtain ⟨hvalues, hid, -⟩ := AccountRow.withBalance_eq_ok hrow
        have hasset : row.asset = old.asset := by rw [hvalues]
        have hmem : some old ∈ slots := (mem_slots ht).mp (Tables.mem_of_account? hold)
        exact .replace hdistinct rfl ⟨fun _ => rfl, fun _ => rfl⟩ hmem hid.symm
          ⟨hasset, .inr ⟨row, rfl, hid⟩⟩ (.inl rfl)
          ⟨List.mem_singleton_self _, List.mem_singleton_self _⟩
  | clockTimestamp | lockTransaction id | findReversal id | reversalPostings id | resolveKey key
  | lockAccount id | setInternalPosting value =>
      obtain rfl := Except.ok.inj h
      exact .nil hdistinct

/-- The guard compares balances by their texts, which differ when they do. -/
theorem ledgerAccountsBalanceGuard_eq_ok {now : Timestamp} {old : AccountRow}
    {set new : AccountColumns} (hup : GuardUp b.internalPosting)
    (h : ledgerAccountsBalanceGuard b now old set = .ok new) :
    new = { set with updatedAt := now } ∧ set.asset = old.asset ∧ set.balance = old.balance ∧
      set.version = old.version := by
  obtain ⟨_, hguard, h⟩ := bind_eq_ok.mp h
  obtain ⟨hasset, h⟩ := guard_eq_ok.mp h
  obtain ⟨hsame, -⟩ := guard_eq_ok.mp hguard
  have htexts : (set.balance.canonical, set.version) = (old.balance.canonical, old.version) := by
    by_contra hne
    exact hsame ⟨hup, hne⟩
  obtain ⟨hbalance, hversion⟩ := Prod.mk.inj htexts
  exact ⟨(Except.ok.inj h).symm, not_not.mp hasset, LedgerAmount.canonical_injective hbalance,
    hversion⟩

/-- A row that passes its checks holds the columns it was made of. -/
theorem AccountColumns.check_eq_ok {c : AccountColumns} {row : AccountRow}
    (h : c.check = .ok row) : row.columns = c := by
  simp only [check] at h
  split at h
  · split at h
    · split at h
      · obtain rfl := Except.ok.inj h
        rfl
      · contradiction
    · contradiction
  · contradiction

namespace Direct

variable {effect : DirectEffect}

/-- With the guard up, an update leaves asset, balance and version as they are. -/
theorem evalUpdateAccount_eq_ok {id : Uuid} {set : AccountRow → AccountColumns}
    (hup : GuardUp b.internalPosting) (h : evalUpdateAccount env t b id set = .ok effect) :
    (t.account? id = none ∧ effect = ⟨[], [], b⟩) ∨
    ∃ old row, t.account? id = some old ∧ row.asset = old.asset ∧ row.balance = old.balance ∧
      row.version = old.version ∧ (row.id = old.id ∨ row.id ∉ t.accountIds) ∧
      effect = ⟨[.replaceAccount id row],
        [.account old.id, .accountName old.name, .account row.id, .accountName row.name],
        b.readClock⟩ := by
  simp only [evalUpdateAccount] at h
  split at h
  · next hnone => exact .inl ⟨hnone, (Except.ok.inj h).symm⟩
  · next old hold =>
    obtain ⟨new, hguard, hrest⟩ := bind_eq_ok.mp h
    obtain ⟨row, hrow, hrest⟩ := bind_eq_ok.mp hrest
    obtain ⟨hid, hrest⟩ := guard_eq_ok.mp hrest
    obtain ⟨-, hrest⟩ := guard_eq_ok.mp hrest
    obtain ⟨-, hrest⟩ := guard_eq_ok.mp hrest
    obtain ⟨hnew, hasset, hbalance, hversion⟩ := ledgerAccountsBalanceGuard_eq_ok hup hguard
    have hcolumns : row.columns = { set old with updatedAt := env.clock b.clockReads } :=
      (AccountColumns.check_eq_ok hrow).trans hnew
    refine .inr ⟨old, row, hold, ?_, ?_, ?_, ?_, (Except.ok.inj hrest).symm⟩
    · rw [← hasset]
      exact congrArg (·.asset) hcolumns
    · rw [← hbalance]
      exact congrArg (·.balance) hcolumns
    · rw [← hversion]
      exact congrArg (·.version) hcolumns
    · rw [not_and_or, not_not] at hid
      refine hid.imp_right fun hfree => ?_
      simpa [taken] using hfree

/-- A deletion removes the account it has found. -/
theorem evalDeleteAccount_eq_ok {id : Uuid} (h : evalDeleteAccount t b id = .ok effect) :
    effect = ⟨[], [], b⟩ ∨ ∃ old, t.account? id = some old ∧
      effect = ⟨[.deleteAccount id], [.account old.id, .accountName old.name], b⟩ := by
  simp only [evalDeleteAccount] at h
  split at h
  · exact .inl (Except.ok.inj h).symm
  · next old hold =>
    obtain ⟨-, h⟩ := guard_eq_ok.mp h
    exact .inr ⟨old, hold, (Except.ok.inj h).symm⟩

/-- Where there is a row, the trigger rejects the statement. -/
theorem evalImmutable_eq_ok {ρ : Type} {table : String} {found : Option ρ} {change : ρ → Change}
    {claim : Claim} (h : evalImmutable b table found change claim = .ok effect) :
    effect = ⟨[], [], b⟩ := by
  cases found with
  | none => exact (Except.ok.inj h).symm
  | some old => contradiction

/-- A direct statement with the guard up makes allowed changes. -/
theorem eval_fits (ht : t.accounts = slots.reduceOption)
    (hdistinct : accountChanges.Distinct slots) (hup : GuardUp b.internalPosting)
    {statement : Direct} (h : statement.eval env t b = .ok effect) :
    Fits slots effect.changes effect.claims ∧
      effect.backend.internalPosting = b.internalPosting := by
  cases statement with
  | updateAccount id set =>
      rcases evalUpdateAccount_eq_ok hup h with ⟨-, rfl⟩ |
        ⟨old, row, hold, hasset, hbalance, hversion, hid, rfl⟩
      · exact ⟨.nil hdistinct, rfl⟩
      · have hmem : some old ∈ slots := (mem_slots ht).mp (Tables.mem_of_account? hold)
        have hfound := Tables.id_of_account? hold
        refine ⟨.replace hdistinct rfl ⟨fun _ => rfl, fun _ => rfl⟩ hmem hfound
          ⟨hasset, .inl ⟨hbalance, hversion⟩⟩ ?_ ?_, rfl⟩
        · rw [← hfound]
          exact hid.imp_right (free_slots ht)
        · rw [← hfound]
          simp
  | deleteAccount id =>
      rcases evalDeleteAccount_eq_ok h with rfl | ⟨old, hold, rfl⟩
      · exact ⟨.nil hdistinct, rfl⟩
      · refine ⟨.delete hdistinct ?_, rfl⟩
        rw [Tables.id_of_account? hold]
        exact List.mem_cons_self
  | updateTransaction id set | deleteTransaction id | updateEntry id set | deleteEntry id =>
      obtain rfl := evalImmutable_eq_ok h
      exact ⟨.nil hdistinct, rfl⟩

end Direct

end

end PgLedger
