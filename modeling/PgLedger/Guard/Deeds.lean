import PgLedger.Guard.Allowed
import PgLedger.Runs.Sound

/-!
# PgLedger.Guard.Deeds

Commands of clients, carried out one after another on the tables: what a
transaction of several calls and direct statements does when it is alone.

A deed is a command that succeeds.  It keeps the books of the ledger: the
calls do, and a direct statement that gets through gives an account another
name, policy or metadata, or it takes an account that has no entries.
-/

namespace PgLedger

/-! ## changes of tables -/

namespace Tables

def change (t : Tables) : Change → Tables
  | .posting w => t.apply w
  | .replaceAccount id row =>
      { t with accounts := t.accounts.map fun a => if a.id = id then row else a }
  | .deleteAccount id => { t with accounts := t.accounts.filter (·.id ≠ id) }
  | .replaceTransaction id row =>
      { t with transactions := t.transactions.map fun r => if r.id = id then row else r }
  | .deleteTransaction id => { t with transactions := t.transactions.filter (·.id ≠ id) }
  | .replaceEntry id row =>
      { t with entries := t.entries.map fun e => if e.id = id then row else e }
  | .deleteEntry id => { t with entries := t.entries.filter (·.id ≠ id) }

def changeAll (t : Tables) (ds : List Change) : Tables := ds.foldl change t

@[simp] theorem changeAll_nil (t : Tables) : t.changeAll [] = t := rfl

@[simp] theorem changeAll_singleton (t : Tables) (d : Change) : t.changeAll [d] = t.change d := rfl

/-- Changes one after another. -/
theorem changeAll_append (t : Tables) (ds es : List Change) :
    t.changeAll (ds ++ es) = (t.changeAll ds).changeAll es := List.foldl_append

/-- Changes by the public functions only are applied as writes. -/
@[simp] theorem changeAll_posting (t : Tables) (ws : List Write) :
    t.changeAll (ws.map .posting) = t.applyAll ws := by
  rw [changeAll, List.foldl_map]
  rfl

end Tables

/-- Changing the slots changes the rows that are there. -/
theorem Heap.tables_applyAll (h : Heap) (ds : List Change) :
    (h.applyAll ds).tables = h.tables.changeAll ds := by
  induction ds generalizing h with
  | nil => rfl
  | cons d ds ih =>
      have hfirst : (h.applyAll [d]).tables = h.tables.change d := by
        cases d with
        | posting w => exact h.tables_posting [w]
        | replaceAccount id row =>
            exact Tables.eq_of_rows (Changes.rows_replace rfl) (Changes.rows_other rfl)
              (Changes.rows_other rfl)
        | deleteAccount id =>
            exact Tables.eq_of_rows (Changes.rows_delete rfl) (Changes.rows_other rfl)
              (Changes.rows_other rfl)
        | replaceTransaction id row =>
            exact Tables.eq_of_rows (Changes.rows_other rfl) (Changes.rows_replace rfl)
              (Changes.rows_other rfl)
        | deleteTransaction id =>
            exact Tables.eq_of_rows (Changes.rows_other rfl) (Changes.rows_delete rfl)
              (Changes.rows_other rfl)
        | replaceEntry id row =>
            exact Tables.eq_of_rows (Changes.rows_other rfl) (Changes.rows_other rfl)
              (Changes.rows_replace rfl)
        | deleteEntry id =>
            exact Tables.eq_of_rows (Changes.rows_other rfl) (Changes.rows_other rfl)
              (Changes.rows_delete rfl)
      rw [← List.singleton_append, applyAll_append, ih, hfirst]
      rfl

/-! ## direct statements that get through -/

namespace Direct

variable {env : Env} {t : Tables} {b : Backend} {id : Uuid} {set : AccountRow → AccountColumns}

/-- An `UPDATE` of the account `old` that passes the trigger and every
constraint, and leaves `row` in its place. -/
structure Renews (env : Env) (t : Tables) (b : Backend) (id : Uuid)
    (set : AccountRow → AccountColumns) (old row : AccountRow) : Prop where
  found : t.account? id = some old
  passed : (ledgerAccountsBalanceGuard b (env.clock b.clockReads) old (set old) >>=
    AccountColumns.check) = .ok row
  freeId : row.id = old.id ∨ row.id ∉ t.accountIds
  freeName : row.name = old.name ∨ row.name ∉ t.accountNames
  unreferenced : row.id = old.id ∨ ∀ e ∈ t.entries, e.accountId ≠ old.id

def renewal (b : Backend) (id : Uuid) (old row : AccountRow) : DirectEffect :=
  ⟨[.replaceAccount id row],
    [.account old.id, .accountName old.name, .account row.id, .accountName row.name],
    b.readClock⟩

/-- Such an update succeeds and replaces the row. -/
theorem Renews.eval {old row : AccountRow} (h : Renews env t b id set old row) :
    evalUpdateAccount env t b id set = .ok (renewal b id old row) := by
  obtain ⟨new, hguard, hrow⟩ := bind_eq_ok.mp h.passed
  have hid : ¬ (row.id ≠ old.id ∧ taken t.accountIds (some row.id)) := by
    have hfree := h.freeId
    simp only [taken, Option.any_some, decide_eq_true_eq]
    tauto
  have hname : ¬ (row.name ≠ old.name ∧ taken t.accountNames (some row.name)) := by
    have hfree := h.freeName
    simp only [taken, Option.any_some, decide_eq_true_eq]
    tauto
  have hentries : ¬ (row.id ≠ old.id ∧ ∃ e ∈ t.entries, e.accountId = old.id) := by
    intro hreferenced
    obtain ⟨hne, e, he, heq⟩ := hreferenced
    exact (h.unreferenced.resolve_left hne) e he heq
  rw [evalUpdateAccount, h.found]
  dsimp only
  rw [hguard, ok_bind, hrow, ok_bind, if_neg hid, if_neg hname, if_neg hentries]
  rfl

/-- An update that succeeds has found no row, or has passed everything. -/
theorem evalUpdateAccount_cases {effect : DirectEffect}
    (h : evalUpdateAccount env t b id set = .ok effect) : effect = ⟨[], [], b⟩ ∨
      ∃ old row, Renews env t b id set old row ∧ effect = renewal b id old row := by
  simp only [evalUpdateAccount] at h
  split at h
  · exact .inl (Except.ok.inj h).symm
  · next old hold =>
    obtain ⟨new, hguard, hrest⟩ := bind_eq_ok.mp h
    obtain ⟨row, hrow, hrest⟩ := bind_eq_ok.mp hrest
    obtain ⟨hid, hrest⟩ := guard_eq_ok.mp hrest
    obtain ⟨hname, hrest⟩ := guard_eq_ok.mp hrest
    obtain ⟨hentries, hrest⟩ := guard_eq_ok.mp hrest
    refine .inr ⟨old, row, ⟨hold, bind_eq_ok.mpr ⟨new, hguard, hrow⟩, ?_, ?_, ?_⟩,
      (Except.ok.inj hrest).symm⟩
    · rw [not_and_or, not_not] at hid
      exact hid.imp_right fun hfree => by simpa [taken] using hfree
    · rw [not_and_or, not_not] at hname
      exact hname.imp_right fun hfree => by simpa [taken] using hfree
    · rw [not_and_or, not_not] at hentries
      exact hentries.imp_right fun hnone e he heq => hnone ⟨e, he, heq⟩

/-- With the guard up, the new row has the asset, the balance and the version
of the old one. -/
theorem Renews.kept {old row : AccountRow} (h : Renews env t b id set old row)
    (hup : GuardUp b.internalPosting) :
    row.asset = old.asset ∧ row.balance = old.balance ∧ row.version = old.version := by
  obtain ⟨new, hguard, hrow⟩ := bind_eq_ok.mp h.passed
  obtain ⟨rfl, hasset, hbalance, hversion⟩ := ledgerAccountsBalanceGuard_eq_ok hup hguard
  have hcolumns := AccountColumns.check_eq_ok hrow
  refine ⟨?_, ?_, ?_⟩
  · rw [← hasset]
    exact congrArg (·.asset) hcolumns
  · rw [← hbalance]
    exact congrArg (·.balance) hcolumns
  · rw [← hversion]
    exact congrArg (·.version) hcolumns

/-- A `DELETE` of an account that nothing refers to. -/
structure Removes (t : Tables) (id : Uuid) (old : AccountRow) : Prop where
  found : t.account? id = some old
  unreferenced : ∀ e ∈ t.entries, e.accountId ≠ old.id

def removal (b : Backend) (id : Uuid) (old : AccountRow) : DirectEffect :=
  ⟨[.deleteAccount id], [.account old.id, .accountName old.name], b⟩

/-- Such a deletion succeeds and removes the row. -/
theorem Removes.eval {old : AccountRow} (h : Removes t id old) :
    evalDeleteAccount t b id = .ok (removal b id old) := by
  have hentries : ¬ ∃ e ∈ t.entries, e.accountId = old.id := by
    intro hreferenced
    obtain ⟨e, he, heq⟩ := hreferenced
    exact h.unreferenced e he heq
  rw [evalDeleteAccount, h.found]
  dsimp only
  rw [if_neg hentries]
  rfl

/-- A deletion that succeeds has found no row, or one that nothing refers to. -/
theorem evalDeleteAccount_cases {effect : DirectEffect}
    (h : evalDeleteAccount t b id = .ok effect) :
    effect = ⟨[], [], b⟩ ∨ ∃ old, Removes t id old ∧ effect = removal b id old := by
  simp only [evalDeleteAccount] at h
  split at h
  · exact .inl (Except.ok.inj h).symm
  · next old hold =>
    obtain ⟨hentries, h⟩ := guard_eq_ok.mp h
    exact .inr ⟨old, ⟨hold, fun e he heq => hentries ⟨e, he, heq⟩⟩, (Except.ok.inj h).symm⟩

/-- A direct statement that gets through has changed nothing, or it has
updated or deleted one account. -/
theorem eval_cases {statement : Direct} {effect : DirectEffect}
    (h : statement.eval env t b = .ok effect) : effect = ⟨[], [], b⟩ ∨
      (∃ id set old row, statement = .updateAccount id set ∧ Renews env t b id set old row ∧
        effect = renewal b id old row) ∨
      ∃ id old, statement = .deleteAccount id ∧ Removes t id old ∧
        effect = removal b id old := by
  cases statement with
  | updateAccount id set =>
      rcases evalUpdateAccount_cases h with rfl | ⟨old, row, hrenews, rfl⟩
      · exact .inl rfl
      · exact .inr (.inl ⟨id, set, old, row, rfl, hrenews, rfl⟩)
  | deleteAccount id =>
      rcases evalDeleteAccount_cases h with rfl | ⟨old, hremoves, rfl⟩
      · exact .inl rfl
      · exact .inr (.inr ⟨id, old, rfl, hremoves, rfl⟩)
  | updateTransaction id set | deleteTransaction id | updateEntry id set | deleteEntry id =>
      exact .inl (evalImmutable_eq_ok h)

end Direct

/-! ## deeds -/

/-- A command that succeeds, with the state of the session it begins in. -/
inductive Deed where
  | call (made : Call) (env : Env) (b : Backend)
  | direct (statement : Direct) (env : Env) (b : Backend)

section
variable (crates : Crates)

/-- Carry out a command on the tables, alone. -/
def Deed.exec : Deed → Tables → Except PgError Tables
  | .call made env b, t => ((made.program crates).run env t b).map fun (_, t', _) => t'
  | .direct statement env b, t =>
      (statement.eval env t b).map fun effect => t.changeAll effect.changes

def execDeeds (deeds : List Deed) (t : Tables) : Except PgError Tables :=
  deeds.foldlM (fun t deed => deed.exec crates t) t

end

/-- Direct statements are made with the guard up. -/
def Deed.Guarded : Deed → Prop
  | .call _ _ _ => True
  | .direct _ _ b => GuardUp b.internalPosting

variable {crates : Crates} {env : Env} {t t' : Tables} {b : Backend}

/-- A call is carried out by its program. -/
theorem Deed.exec_call_eq_ok {made : Call} : (Deed.call made env b).exec crates t = .ok t' ↔
    ∃ id b', (made.program crates).run env t b = .ok (id, t', b') := by
  rw [exec]
  cases (made.program crates).run env t b with
  | error e => simp [Except.map]
  | ok result => simp [Except.map, Prod.ext_iff]

/-- A direct statement is carried out by its changes. -/
theorem Deed.exec_direct_eq_ok {statement : Direct} :
    (Deed.direct statement env b).exec crates t = .ok t' ↔
      ∃ effect, statement.eval env t b = .ok effect ∧ t.changeAll effect.changes = t' := by
  rw [exec]
  cases statement.eval env t b with
  | error e => simp [Except.map]
  | ok effect => simp [Except.map]

@[simp] theorem execDeeds_nil : execDeeds crates [] t = .ok t := rfl

/-- Deeds one after another. -/
theorem execDeeds_append {ds es : List Deed} : execDeeds crates (ds ++ es) t = .ok t' ↔
    ∃ u, execDeeds crates ds t = .ok u ∧ execDeeds crates es u = .ok t' := by
  rw [execDeeds, List.foldlM_append, bind_eq_ok]
  rfl

/-- A single deed. -/
theorem execDeeds_singleton {deed : Deed} :
    execDeeds crates [deed] t = deed.exec crates t := by
  rw [execDeeds, List.foldlM_cons]
  cases deed.exec crates t with
  | error e => rfl
  | ok u => rfl

/-! ## the books -/

/-- The one row with an identifier, among the others. -/
theorem Tables.exists_split {id : Uuid} {old : AccountRow} (h : t.accountIds.Nodup)
    (hold : t.account? id = some old) : ∃ before after,
      t.accounts = before ++ old :: after ∧ ∀ a ∈ before ++ after, a.id ≠ id := by
  obtain ⟨before, after, hsplit⟩ := List.append_of_mem (mem_of_account? hold)
  refine ⟨before, after, hsplit, fun a ha => ?_⟩
  rw [accountIds, hsplit, List.map_append, List.map_cons, List.nodup_middle, List.nodup_cons,
    ← List.map_append] at h
  rw [← id_of_account? hold]
  rintro heq
  exact h.1 (heq ▸ List.mem_map_of_mem ha)

/-- An account that no entry refers to has no entries. -/
theorem Tables.accountEntries_eq_nil {id : Uuid} (hnone : ∀ e ∈ t.entries, e.accountId ≠ id) :
    t.accountEntries id = [] := by
  rw [Tables.accountEntries, List.filter_eq_nil_iff]
  intro e he
  simpa using hnone e he

/-- A column of different values, with another value in one place. -/
theorem nodup_replace {α β : Type} {f : α → β} {before after : List α} {old new : α}
    (h : ((before ++ old :: after).map f).Nodup)
    (hfree : f new = f old ∨ f new ∉ (before ++ old :: after).map f) :
    ((before ++ new :: after).map f).Nodup := by
  rw [List.map_append, List.map_cons, List.nodup_middle, List.nodup_cons] at h ⊢
  refine ⟨?_, h.2⟩
  rcases hfree with heq | hfree
  · rw [heq]
    exact h.1
  · intro hmem
    refine hfree ?_
    rw [List.map_append, List.map_cons]
    rcases List.mem_append.mp hmem with hbefore | hafter
    · exact List.mem_append_left _ hbefore
    · exact List.mem_append_right _ (List.mem_cons_of_mem _ hafter)

/-- The journal of an account moves to the new version of its row. -/
theorem Direct.Renews.journal {id : Uuid} {set : AccountRow → AccountColumns} {old row : AccountRow}
    (h : Renews env t b id set old row) (hup : GuardUp b.internalPosting) (ht : t.Books) :
    t.AccountJournal row := by
  obtain ⟨hasset, hbalance, hversion⟩ := h.kept hup
  have hold := Tables.mem_of_account? h.found
  have hjournal := ht.journaled old hold
  rcases h.freeId with hsame | hfree
  · constructor
    · rw [hsame, hversion, hbalance]
      exact hjournal.journal
    · rw [hsame, hasset]
      exact hjournal.assets
  · -- under a new identifier there are no entries, and neither were there before
    have hne : row.id ≠ old.id := fun heq => hfree (heq ▸ List.mem_map_of_mem hold)
    have hnone := Tables.accountEntries_eq_nil (h.unreferenced.resolve_left hne)
    have hnew : t.accountEntries row.id = [] := by
      refine Tables.accountEntries_eq_nil fun e he heq => hfree ?_
      rw [← heq]
      exact ht.constrained.entryAccounts e he
    have hempty := hjournal.journal
    rw [hnone] at hempty
    constructor
    · rw [hnew, hversion, hbalance]
      exact hempty
    · rw [hnew]
      exact fun e he => absurd he List.not_mem_nil

/-- A direct `UPDATE` keeps the books. -/
theorem Direct.Renews.books {id : Uuid} {set : AccountRow → AccountColumns} {old row : AccountRow}
    (h : Renews env t b id set old row) (hup : GuardUp b.internalPosting) (ht : t.Books) :
    (t.change (.replaceAccount id row)).Books := by
  have hid := Tables.id_of_account? h.found
  obtain ⟨before, after, hsplit, hothers⟩ := Tables.exists_split ht.constrained.accountIds h.found
  have haccounts : (t.change (.replaceAccount id row)).accounts = before ++ row :: after := by
    have hkept (l : List AccountRow) (hl : l ⊆ before ++ after) :
        l.map (fun a => if a.id = id then row else a) = l := by
      rw [List.map_congr_left fun a ha => if_neg (hothers a (hl ha)), List.map_id']
    show t.accounts.map _ = _
    rw [hsplit, List.map_append, List.map_cons, if_pos hid,
      hkept before (List.subset_append_left _ _), hkept after (List.subset_append_right _ _)]
  have hids := ht.constrained.accountIds
  have hnames := ht.constrained.accountNames
  have hfreeId := h.freeId
  have hfreeName := h.freeName
  rw [Tables.accountIds, hsplit] at hids hfreeId
  rw [Tables.accountNames, hsplit] at hnames hfreeName
  refine ⟨{ ht.constrained with accountIds := ?_, accountNames := ?_, entryAccounts := ?_ },
    ?_, ?_, ht.reversalsExact, ht.acyclic⟩
  · rw [Tables.accountIds, haccounts]
    exact nodup_replace hids hfreeId
  · rw [Tables.accountNames, haccounts]
    exact nodup_replace hnames hfreeName
  · intro e he
    have hfound := ht.constrained.entryAccounts e he
    have hkept : e.accountId = old.id → e.accountId = row.id := fun heq =>
      heq.trans (h.unreferenced.resolve_right fun hnone => hnone e he heq).symm
    simp only [Tables.accountIds, hsplit, haccounts, List.map_append, List.map_cons,
      List.mem_append, List.mem_cons] at hfound ⊢
    tauto
  · intro a ha
    rw [haccounts, List.mem_append, List.mem_cons, or_left_comm, ← List.mem_append] at ha
    rcases ha with rfl | hother
    · have hjournal := h.journal hup ht
      exact ⟨hjournal.journal, hjournal.assets⟩
    · have hmem : a ∈ t.accounts := by
        simp only [hsplit, List.mem_append, List.mem_cons] at hother ⊢
        tauto
      have hjournal := ht.journaled a hmem
      exact ⟨hjournal.journal, hjournal.assets⟩
  · exact fun id hid => ⟨(ht.balanced id hid).twoEntries, (ht.balanced id hid).balanced⟩

/-- A direct `DELETE` keeps the books. -/
theorem Direct.Removes.books {id : Uuid} {old : AccountRow} (h : Removes t id old) (ht : t.Books) :
    (t.change (.deleteAccount id)).Books := by
  have hid := Tables.id_of_account? h.found
  have hsub : (t.change (.deleteAccount id)).accounts.Sublist t.accounts := List.filter_sublist
  refine ⟨{ ht.constrained with accountIds := ?_, accountNames := ?_, entryAccounts := ?_ },
    ?_, ?_, ht.reversalsExact, ht.acyclic⟩
  · exact ht.constrained.accountIds.sublist (hsub.map _)
  · exact ht.constrained.accountNames.sublist (hsub.map _)
  · intro e he
    obtain ⟨a, ha, haid⟩ := List.mem_map.mp (ht.constrained.entryAccounts e he)
    have hne : a.id ≠ id := by
      rw [haid, ← hid]
      exact h.unreferenced e he
    exact List.mem_map.mpr ⟨a, List.mem_filter.mpr ⟨ha, by simpa using hne⟩, haid⟩
  · intro a ha
    have hjournal := ht.journaled a (hsub.subset ha)
    exact ⟨hjournal.journal, hjournal.assets⟩
  · exact fun id hid => ⟨(ht.balanced id hid).twoEntries, (ht.balanced id hid).balanced⟩

/-- **The step lemma**: a deed keeps the books. -/
theorem Deed.books {deed : Deed} (h : deed.exec crates t = .ok t') (hup : deed.Guarded)
    (ht : t.Books) : t'.Books := by
  cases deed with
  | call made env b =>
      obtain ⟨id, b', hrun⟩ := exec_call_eq_ok.mp h
      exact made.books hrun ht
  | direct statement env b =>
      obtain ⟨effect, heval, rfl⟩ := exec_direct_eq_ok.mp h
      rcases Direct.eval_cases heval with rfl | ⟨id, set, old, row, -, hrenews, rfl⟩ |
        ⟨id, old, -, hremoves, rfl⟩
      · exact ht
      · exact hrenews.books hup ht
      · exact hremoves.books ht

/-- **The run lemma**: so does a sequence of them. -/
theorem execDeeds_books {deeds : List Deed} (h : execDeeds crates deeds t = .ok t')
    (hup : ∀ deed ∈ deeds, deed.Guarded) (ht : t.Books) : t'.Books := by
  induction deeds generalizing t with
  | nil =>
      obtain rfl := Except.ok.inj h
      exact ht
  | cons deed deeds ih =>
      rw [← List.singleton_append] at h
      obtain ⟨u, hfirst, hrest⟩ := execDeeds_append.mp h
      rw [execDeeds_singleton] at hfirst
      exact ih hrest (fun d hd => hup d (List.mem_cons_of_mem _ hd))
        (deed.books hfirst (hup deed List.mem_cons_self) ht)

end PgLedger
