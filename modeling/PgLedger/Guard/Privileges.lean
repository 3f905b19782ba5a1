import PgLedger.Guard.Serialisable
import PgLedger.Transaction.Accepts

/-!
# PgLedger.Guard.Privileges

Clients without privileges of their own.  `permissions.sql` leaves `PUBLIC`
the reading of the tables and the calls of the public functions, so none of
their direct statements is carried out.  What their transactions do, with any
number of calls in each, with savepoints, errors and interruptions, and in any
interleaving, is a run of single calls.  So all that holds of runs holds of it,
also what a direct statement could break: the policies.
-/

namespace PgLedger

/-! ## privileges -/

inductive Privilege where
  | select
  | insert
  | update
  | delete
  | truncate
deriving DecidableEq

/-- The tables and the views. -/
inductive Relname where
  | ledgerAccounts
  | ledgerTransactions
  | ledgerEntries
  | ledgerAccountBalances
  | ledgerTransactionSummary
deriving DecidableEq

/-- A `GRANT … TO PUBLIC` or a `REVOKE … FROM PUBLIC`. -/
inductive PublicGrant where
  | grant (privileges : List Privilege) (relations : List Relname)
  | revoke (privileges : List Privilege) (relations : List Relname)

/-- What `PUBLIC` may do with the relations.  On new relations it has no
privileges, and a `REVOKE` of columns takes nothing from a role that has none. -/
def PublicGrant.apply (has : Relname → Privilege → Bool) :
    PublicGrant → Relname → Privilege → Bool
  | .grant privileges relations, r, p => has r p || (r ∈ relations && p ∈ privileges)
  | .revoke privileges relations, r, p => has r p && !(r ∈ relations && p ∈ privileges)

/-- `permissions.sql`, on the relations. -/
def permissions : List PublicGrant :=
  [.revoke [.insert, .update, .delete, .truncate] [.ledgerEntries],
    .revoke [.insert, .update, .delete, .truncate] [.ledgerTransactions],
    .revoke [.insert, .delete, .truncate] [.ledgerAccounts],
    .grant [.select] [.ledgerAccounts, .ledgerTransactions, .ledgerEntries,
      .ledgerAccountBalances, .ledgerTransactionSummary]]

def publicHas : Relname → Privilege → Bool :=
  permissions.foldl PublicGrant.apply fun _ _ => false

/-- `PUBLIC` can read everything and write nothing. -/
theorem publicHas_iff {r : Relname} {p : Privilege} : publicHas r p = true ↔ p = .select := by
  cases r <;> cases p <;> decide

/-- The privilege that a direct statement needs. -/
def Direct.requires : Direct → Relname × Privilege
  | .updateAccount _ _ => (.ledgerAccounts, .update)
  | .deleteAccount _ => (.ledgerAccounts, .delete)
  | .updateTransaction _ _ => (.ledgerTransactions, .update)
  | .deleteTransaction _ => (.ledgerTransactions, .delete)
  | .updateEntry _ _ => (.ledgerEntries, .update)
  | .deleteEntry _ => (.ledgerEntries, .delete)

/-- A client whose role has the privileges of `PUBLIC` and no others. -/
def Client.Public (c : Client) : Prop :=
  ∀ permitted statement, .direct permitted statement ∈ c.script →
    permitted = publicHas statement.requires.1 statement.requires.2

/-- A client without privileges gets no direct statement through. -/
theorem Client.Public.not_permitted {c : Client} (h : c.Public) {permitted : Bool}
    {statement : Direct} (hmem : .direct permitted statement ∈ c.script) : permitted = false := by
  rw [h permitted statement hmem]
  cases statement <;> rfl

/-! ## a call in the middle of a transaction -/

variable {crates : Crates} {env : Env} {t t' : Tables} {b b' : Backend}

/-- What is left of the clock and the identifiers. -/
def Env.later (env : Env) (b : Backend) : Env where
  clock n := env.clock (b.clockReads + n)
  uuidv7 n := env.uuidv7 (b.uuidsDrawn + n)

/-- The state of a session, counted from an earlier one. -/
def Backend.after (b b' : Backend) : Backend :=
  ⟨b'.internalPosting, b.clockReads + b'.clockReads, b.uuidsDrawn + b'.uuidsDrawn⟩

/-- A statement in the middle of a transaction is one at the start, with what
is left of clock and identifiers. -/
theorem Stmt.eval_later (s : Stmt) : s.eval env t (b.after b') =
    (s.eval (env.later b) t b').map fun effect =>
      { effect with backend := b.after effect.backend } := by
  cases s with
  | clockTimestamp | lockTransaction id | findReversal id | reversalPostings id | resolveKey key
  | lockAccount id | setInternalPosting value => rfl
  | insertTransaction v =>
      simp only [eval, evalInsertTransaction]
      have hdrawn : env.uuidv7 (b.after b').uuidsDrawn = (env.later b).uuidv7 b'.uuidsDrawn := rfl
      rw [hdrawn]
      split_ifs <;> rfl
  | updateAccount balance version id =>
      simp only [eval, evalUpdateAccount]
      cases t.account? id with
      | none => rfl
      | some row =>
          have hguard : balanceGuard (b.after b') row balance version =
              balanceGuard b' row balance version := rfl
          have hclock : env.clock (b.after b').clockReads =
              (env.later b).clock b'.clockReads := rfl
          dsimp only
          rw [hguard, hclock]
          cases balanceGuard b' row balance version with
          | error e => rfl
          | ok u =>
              simp only [ok_bind]
              cases row.withBalance balance version ((env.later b).clock b'.clockReads) with
              | error e => rfl
              | ok row' => rfl
  | insertEntry v =>
      simp only [eval, evalInsertEntry]
      have hdrawn : env.uuidv7 (b.after b').uuidsDrawn = (env.later b).uuidv7 b'.uuidsDrawn := rfl
      rw [hdrawn]
      cases v.check ((env.later b).uuidv7 b'.uuidsDrawn) with
      | error e => rfl
      | ok row =>
          simp only [ok_bind]
          split_ifs <;> rfl
  | insertAccount v =>
      simp only [eval, evalInsertAccount]
      have hdrawn : env.uuidv7 (b.after b').uuidsDrawn = (env.later b).uuidv7 b'.uuidsDrawn := rfl
      have hclock : env.clock (b.after b').clockReads = (env.later b).clock b'.clockReads := rfl
      have hnext : env.clock ((b.after b').clockReads + 1) =
          (env.later b).clock (b'.clockReads + 1) := rfl
      rw [hdrawn, hclock, hnext]
      cases v.check ((env.later b).uuidv7 b'.uuidsDrawn) ((env.later b).clock b'.clockReads)
        ((env.later b).clock (b'.clockReads + 1)) with
      | error e => rfl
      | ok row =>
          simp only [ok_bind]
          split_ifs <;> rfl

/-- The same of programs. -/
theorem Spi.run_later {α : Type} (x : Spi α) : x.run env t (b.after b') =
    (x.run (env.later b) t b').map fun result =>
      (result.1, result.2.1, b.after result.2.2) := by
  induction x generalizing t b' with
  | pure a | fail e => rfl
  | stmt s k ih =>
      simp only [run]
      rw [s.eval_later]
      cases s.eval (env.later b) t b' with
      | error e => rfl
      | ok effect =>
          simp only [Except.map, ok_bind]
          exact ih effect.result

/-- The session of a call that is not the first of its transaction. -/
def Session.of (env : Env) (b : Backend) : Session := ⟨env.later b, b.internalPosting⟩

/-- A call does the same in the middle of a transaction as at its beginning. -/
theorem Deed.exec_call {made : Call} : (Deed.call made env b).exec crates t =
    (made.exec crates (.of env b) t).map Prod.snd := by
  have hb : b = b.after (Session.of env b).backend := rfl
  rw [exec, Call.exec, hb, Spi.run_later]
  show _ = ((((made.program crates).run (env.later b) t (Session.of env b).backend).map _).map _)
  cases (made.program crates).run (env.later b) t (Session.of env b).backend with
  | error e => rfl
  | ok result => rfl

/-! ## runs of calls -/

/-- The call of a deed, as an event of a run. -/
def Deed.event? : Deed → Option Event
  | .call made env b => some (.call made (.of env b))
  | .direct _ _ _ => none

def Event.made? : Event → Option Call
  | .call made _ => some made
  | .unversion _ _ => none

/-- The events are calls of the script, in its order, and without savepoints
all of its calls. -/
structure CallsOf (script : List Command) (events : List Event) : Prop where
  order : (events.map Event.made?).Sublist ((script.filterMap Command.made?).map some)
  all : (∀ name, .savepoint name ∉ script) →
    events.map Event.made? = (script.filterMap Command.made?).map some

theorem Deed.made?_event? (deed : Deed) :
    deed.event?.map Event.made? = deed.made?.map some := by
  cases deed with
  | call made env b => rfl
  | direct statement env b => rfl

/-- The deeds make some of the calls, in their order. -/
theorem made?_of_sublistForall₂ {deeds : List Deed} {commands : List Command}
    (h : List.SublistForall₂ (Deed.Of env) deeds commands) :
    (deeds.filterMap Deed.made?).Sublist (commands.filterMap Command.made?) := by
  induction h with
  | nil => exact List.nil_sublist _
  | cons hof _ ih =>
      cases hof with
      | call => exact ih.cons_cons _
      | direct => exact ih
  | @cons_right deeds command commands _ ih =>
      rw [List.filterMap_cons]
      split
      · exact ih
      · exact ih.cons _

/-- The calls among the deeds are calls of the commands. -/
theorem Deed.AllOf.callsOf {deeds : List Deed} {commands : List Command}
    (h : Deed.AllOf env deeds commands) : CallsOf commands (deeds.filterMap Deed.event?) := by
  have hmade : (deeds.filterMap Deed.event?).map Event.made? =
      (deeds.filterMap Deed.made?).map some := by
    rw [List.map_filterMap, List.map_filterMap]
    exact List.filterMap_congr fun deed _ => deed.made?_event?
  constructor
  · rw [hmade]
    exact (made?_of_sublistForall₂ h.order).map some
  · intro hnone
    rw [hmade, h.calls hnone]

/-- Deeds that are calls lead where the run of the calls leads. -/
theorem execDeeds_runLedger {deeds : List Deed} {events : List Event}
    (hcalls : ∀ deed ∈ deeds, ∃ made env b, deed = .call made env b)
    (h : execDeeds crates deeds (runLedger crates events) = .ok t) :
    t = runLedger crates (events ++ deeds.filterMap Deed.event?) := by
  induction deeds generalizing events with
  | nil =>
      obtain rfl := Except.ok.inj h
      rw [List.filterMap_nil, List.append_nil]
  | cons deed deeds ih =>
      rw [List.forall_mem_cons] at hcalls
      obtain ⟨⟨made, env, b, rfl⟩, hrest⟩ := hcalls
      rw [← List.singleton_append] at h
      obtain ⟨u, hfirst, hlater⟩ := execDeeds_append.mp h
      rw [execDeeds_singleton, Deed.exec_call] at hfirst
      have hu : u = runLedger crates (events ++ [.call made (.of env b)]) := by
        rw [runLedger_append]
        show u = made.after crates (.of env b) (runLedger crates events)
        rw [Call.after]
        cases hexec : made.exec crates (.of env b) (runLedger crates events) with
        | error e =>
            rw [hexec] at hfirst
            contradiction
        | ok result =>
            rw [hexec] at hfirst
            exact (Except.ok.inj hfirst).symm
      rw [hu] at hlater
      rw [ih hrest hlater, List.append_assoc]
      rfl

/-- The deeds of a client with the privileges of `PUBLIC` are calls. -/
theorem Client.Public.calls {c : Client} (h : c.Public) {deeds : List Deed}
    {commands : List Command} (hdeeds : Deed.AllOf env deeds commands)
    (hsub : commands ⊆ c.script) : ∀ deed ∈ deeds, ∃ made env b, deed = .call made env b := by
  intro deed hdeed
  obtain ⟨carried, hcarried, hsublist⟩ := List.sublistForall₂_iff.mp hdeeds.order
  obtain ⟨command, hcommand, hof⟩ := exists_of_forall₂ hcarried hdeed
  cases hof with
  | call => exact ⟨_, _, _, rfl⟩
  | direct =>
      have hfalse := h.not_permitted (hsub (hsublist.subset hcommand))
      contradiction

section
variable {ι : Type} (crates : Crates) (clients : ι → Client)

/-- What the clients have committed is a run of calls: a part for every
transaction, in the order of the commits; and what a running transaction sees
between two commands is what its own calls make of it. -/
structure RunsCalls (w : Serial.World ι Heap ClientState (List Change))
    (parts : List (List Event)) : Prop where
  transactions : List.Forall₂ (fun (commit : ι × List Change) events =>
    CallsOf (clients commit.1).script events) w.commits parts
  tables : w.store.tables = runLedger crates parts.flatten
  views : ∀ i l, w.sessions i = .running l → l.call = none →
    ∃ before events, (clients i).script = before ++ l.script ∧ CallsOf before events ∧
      l.view w.store = runLedger crates (parts.flatten ++ events)
  policiesHold : w.store.tables.PoliciesHold

variable [Fintype ι] [DecidableEq ι]

/-- **Privileges**: clients without privileges of their own, in transactions of
any length and in any interleaving, can lead the ledger only where single calls
lead it. -/
theorem publicRunsCalls (hpublic : ∀ i, (clients i).Public)
    (schedule : List (ι × Serial.Action)) :
    ∃ parts, RunsCalls crates clients (runGuarded crates clients schedule) parts := by
  obtain ⟨⟨done, hdone⟩, hfollows⟩ := runGuarded_serially crates clients schedule
  have hcalls : ∀ deed ∈ done.flatten, ∃ made env b, deed = .call made env b := by
    intro deed hdeed
    obtain ⟨deeds, hdeeds, hdeed⟩ := List.mem_flatten.mp hdeed
    obtain ⟨commit, -, hall⟩ := exists_of_forall₂ hdone.transactions.flip hdeeds
    exact (hpublic commit.1).calls hall (List.Subset.refl _) deed hdeed
  have hflatten : done.flatten.filterMap Deed.event? =
      (done.map (·.filterMap Deed.event?)).flatten := List.filterMap_flatten
  have htables : (runGuarded crates clients schedule).store.tables =
      runLedger crates (done.map (·.filterMap Deed.event?)).flatten := by
    have hrun : execDeeds crates done.flatten (runLedger crates []) = .ok _ := hdone.exec
    rw [execDeeds_runLedger hcalls hrun, hflatten]
    rfl
  refine ⟨done.map (·.filterMap Deed.event?), ?_, htables, ?_, ?_⟩
  · rw [List.forall₂_map_right_iff]
    exact hdone.transactions.imp fun _ _ hall => hall.callsOf
  · intro i l hl hcall
    obtain ⟨-, before, hretraced⟩ := hfollows i l hl
    obtain ⟨deeds, hdeeds, hretraces⟩ := hretraced.idle hcall
    have hscript := hretraced.script
    refine ⟨before, deeds.filterMap Deed.event?, hscript, hdeeds.callsOf, ?_⟩
    have hexec := hretraces.exec
    rw [htables] at hexec
    rw [ClientState.view_eq, htables]
    refine execDeeds_runLedger ((hpublic i).calls hdeeds ?_) hexec
    rw [hscript]
    exact List.subset_append_left _ _
  · rw [htables]
    exact (runLedger_sound crates _).policiesHold

end

/-- Two clients that open an account each, one of them behind a savepoint, and
try to set a balance. -/
def publicClients (i : Fin 2) : Client where
  env := { clock := fun n => n, uuidv7 := fun n => BitVec.ofNat 128 (2 * n + i) }
  internalPosting := none
  off := by decide
  script := [.savepoint "s".toList,
    .call (.createAccount ["a", "b"][i].toList usd .nonNegative none) none,
    .direct false (.updateAccount 0x101#128 fun row =>
      { row.columns with balance := ⟨usd, 1000000⟩ }),
    .rollbackTo "s".toList]

theorem publicClients_public (i : Fin 2) : (publicClients i).Public := by
  intro permitted statement hmem
  have hdirect : Command.direct permitted statement = .direct false (.updateAccount 0x101#128
      fun row => { row.columns with balance := ⟨usd, 1000000⟩ }) := by
    simpa [publicClients] using hmem
  obtain ⟨rfl, rfl⟩ := Command.direct.inj hdirect
  rfl

theorem publicRunsCalls_clients : ∃ parts, RunsCalls .concrete publicClients
    (runGuarded .concrete publicClients [(0, .step), (1, .step), (1, .step), (0, .step)]) parts :=
  publicRunsCalls .concrete publicClients publicClients_public _

end PgLedger
