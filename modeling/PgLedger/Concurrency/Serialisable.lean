import PgLedger.Concurrency.Frame
import PgLedger.Reversal.Exact

/-!
# PgLedger.Concurrency.Serialisable

Concurrent posting calls are serialisable in the order of their commits.  The
invariant of a session says that its statements so far, replayed on the
tables as they are committed now, would have had the same results and writes
(`Replays`).  Its own statements extend the replay.  A commit of another
session keeps it, since what the replay relies on is claimed: locked rows
cannot change, and values in unique indexes cannot be inserted twice
(`Replays.frame`).  So at its commit the whole call might just as well have
been run at this moment, alone.
-/

namespace PgLedger

variable {env : Env} {t u : Tables} {l l' start : LocalState}

/-! ## one statement -/

namespace Stmt

variable {b : Backend} {held : List Claim} {s : Stmt} {effect : Effect s.Result}

/-- The claims a result tells of are locked or written. -/
theorem gains_subset (h : s.eval env t b = .ok effect) :
    s.gains effect.result ⊆ s.locks effect.result ++ effect.writes.flatMap (·.claims) := by
  cases s with
  | insertTransaction v =>
      rcases evalInsertTransaction_eq_ok h with ⟨-, rfl⟩ | ⟨row, -, -, -, rfl⟩
      · exact List.nil_subset _
      · intro c hc
        rw [List.mem_singleton.mp hc]
        exact List.mem_append_right _
          (List.mem_flatMap.mpr ⟨_, List.mem_singleton_self _, List.mem_cons_self⟩)
  | lockTransaction id => exact List.subset_append_left _ _
  | lockAccount id => exact List.subset_append_left _ _
  | clockTimestamp | findReversal id | reversalPostings id | resolveKey key
  | setInternalPosting value | updateAccount balance version id | insertEntry v | insertAccount v =>
      exact List.nil_subset _

/-- A disciplined statement creates no account, and holds what its rows refer
to. -/
theorem eval_references (hs : s.Disciplined held) (h : s.eval env t b = .ok effect) {w : Write}
    (hw : w ∈ effect.writes) : (∀ row, w ≠ .insertAccount row) ∧ w.references ⊆ held := by
  cases s with
  | insertAccount v => exact hs.elim
  | insertTransaction v =>
      rcases evalInsertTransaction_eq_ok h with ⟨-, rfl⟩ | ⟨row, hvalues, -, -, rfl⟩
      · exact absurd hw List.not_mem_nil
      · obtain rfl := List.mem_singleton.mp hw
        refine ⟨fun _ => Write.noConfusion, fun c hc => ?_⟩
        obtain ⟨original, horiginal, rfl⟩ := List.mem_map.mp hc
        refine hs original ?_
        rw [← hvalues]
        exact Option.mem_toList.mp horiginal
  | updateAccount balance version id =>
      rcases evalUpdateAccount_eq_ok h with ⟨-, rfl⟩ | ⟨row, row', -, -, rfl⟩
      · exact absurd hw List.not_mem_nil
      · obtain rfl := List.mem_singleton.mp hw
        exact ⟨fun _ => Write.noConfusion, List.nil_subset _⟩
  | insertEntry v =>
      obtain ⟨row, hvalues, -, -, rfl⟩ := evalInsertEntry_eq_ok h
      obtain rfl := List.mem_singleton.mp hw
      refine ⟨fun _ => Write.noConfusion, fun c hc => ?_⟩
      rw [List.mem_singleton.mp hc, hvalues]
      exact hs
  | clockTimestamp | lockTransaction id | findReversal id | reversalPostings id | resolveKey key
  | lockAccount id | setInternalPosting value =>
      obtain rfl := Except.ok.inj h
      exact absurd hw List.not_mem_nil

end Stmt

/-! ## one session -/

namespace LocalState

/-- A session that goes on has returned, or its next statement has succeeded. -/
theorem next_eq_some (h : l.next env t = some l') : (∃ id, l.program = .pure id ∧ l' = l) ∨
    ∃ s k, ∃ effect : Effect s.Result, l.program = .stmt s k ∧
      s.eval env (t.applyAll l.writes) l.backend = .ok effect ∧ l' = l.advance k effect := by
  simp only [next] at h
  split at h
  · next id hprogram => exact .inl ⟨id, hprogram, (Option.some.inj h).symm⟩
  · contradiction
  · next s k hprogram =>
    split at h
    · contradiction
    · next effect heval => exact .inr ⟨s, k, effect, hprogram, heval, (Option.some.inj h).symm⟩

/-- A session that has returned stays as it is. -/
theorem next_of_pure {id : Uuid} (h : l.program = .pure id) : l.next env t = some l := by
  rw [next, h]

/-- A session goes on by a statement that succeeds. -/
theorem next_of_stmt {s : Stmt} {k : s.Result → Spi Uuid} {effect : Effect s.Result}
    (h : l.program = .stmt s k) (heval : s.eval env (t.applyAll l.writes) l.backend = .ok effect) :
    l.next env t = some (l.advance k effect) := by
  rw [next, h]
  dsimp only
  rw [heval]

/-- A session finishes with the result of its program. -/
theorem program_of_finished {id : Uuid} (h : l.finished = some id) : l.program = .pure id := by
  simp only [finished] at h
  split at h
  · next id' hprogram => rw [hprogram, Option.some.inj h]
  · contradiction

/-- What is true of a session wherever its call has got to. -/
structure Kept (l : LocalState) : Prop where
  disciplined : l.program.Disciplined (fun _ _ => True) l.claims
  covered : ∀ w ∈ l.writes, w.Covered l.claims

/-- A statement adds claims. -/
theorem claims_next (h : l.next env t = some l') : l.claims ⊆ l'.claims := by
  rcases next_eq_some h with ⟨-, -, rfl⟩ | ⟨s, k, effect, -, -, rfl⟩
  · exact List.Subset.refl _
  · exact List.subset_append_left _ _

/-- What is true of a session is true after its next statement. -/
theorem Kept.next (h : l.Kept) (hnext : l.next env t = some l') : l'.Kept := by
  have hclaims := claims_next hnext
  rcases next_eq_some hnext with ⟨-, -, rfl⟩ | ⟨s, k, effect, hprogram, heval, rfl⟩
  · exact h
  · have hdisciplined := h.disciplined
    rw [hprogram] at hdisciplined
    obtain ⟨hs, hrest⟩ := hdisciplined
    constructor
    · refine (hrest effect.result).2.more (List.append_subset.mpr ⟨hclaims, ?_⟩)
      exact List.Subset.trans (Stmt.gains_subset heval) (List.subset_append_right _ _)
    · intro w hw
      rcases List.mem_append.mp hw with hold | hnew
      · exact (h.covered w hold).mono hclaims
      · obtain ⟨hposting, hreferences⟩ := Stmt.eval_references hs heval hnew
        refine ⟨hposting, fun c hc => ?_, List.Subset.trans hreferences hclaims⟩
        exact List.mem_append_right _ (List.mem_append_right _ (List.mem_flatMap.mpr ⟨w, hnew, hc⟩))

/-- The session is where it would be if all of its statements had been run on
the tables `t`. -/
def Replays (env : Env) (start : LocalState) (t : Tables) : LocalState → Prop :=
  Relation.ReflTransGen (fun l l' => l.next env t = some l') start

/-- What is true of a session at its start is true all along. -/
theorem Replays.kept (h : Replays env start t l) (hstart : start.Kept) : l.Kept := by
  induction h with
  | refl => exact hstart
  | tail _ hnext ih => exact ih.next hnext

/-- **The frame rule**: a session that is not doomed does not notice what
happens to rows and values that it has not claimed. -/
theorem Replays.frame (h : Replays env start t l) (hstart : start.Kept)
    (hframe : t.Frame l.claims u) (halive : ∀ e, l.program ≠ .fail e) : Replays env start u l := by
  induction h with
  | refl => exact .refl
  | @tail l₀ l hprevious hnext ih =>
      have hkept : l₀.Kept := Replays.kept hprevious hstart
      have hclaims := claims_next hnext
      have hreplayed : Replays env start u l₀ := by
        refine ih (hframe.anti hclaims) fun e he => ?_
        simp only [next, he] at hnext
        contradiction
      refine hreplayed.tail ?_
      rcases next_eq_some hnext with ⟨id, hprogram, rfl⟩ | ⟨s, k, effect, hprogram, heval, rfl⟩
      · exact next_of_pure hprogram
      · have hdisciplined := hkept.disciplined
        rw [hprogram] at hdisciplined
        obtain ⟨hs, hrest⟩ := hdisciplined
        refine next_of_stmt hprogram (Stmt.eval_frame
          ?_ hs hclaims ?_ ?_ ?_ heval)
        · exact hframe.ownAll fun w hw => (hkept.covered w hw).mono hclaims
        · intro c hc
          exact List.mem_append_right _ (List.mem_append_left _ hc)
        · intro w hw c hc
          exact List.mem_append_right _ (List.mem_append_right _ (List.mem_flatMap.mpr ⟨w, hw, hc⟩))
        · intro hdooms
          obtain ⟨e, he⟩ := (hrest effect.result).1 hdooms
          exact halive e he

/-- Replayed on tables, the call does there what it does when it runs alone. -/
theorem Replays.run_eq (h : Replays env start t l) :
    start.program.run env (t.applyAll start.writes) start.backend =
      l.program.run env (t.applyAll l.writes) l.backend := by
  induction h with
  | refl => rfl
  | tail _ hnext ih =>
      rw [ih]
      rcases next_eq_some hnext with ⟨-, -, rfl⟩ | ⟨s, k, effect, hprogram, heval, rfl⟩
      · rfl
      · rw [hprogram, Spi.run, heval, ok_bind, advance, Tables.applyAll_append]

/-- A session is doomed to fail, or it is where a replay would be. -/
def Valid (env : Env) (start : LocalState) (t : Tables) (l : LocalState) : Prop :=
  (∃ e, l.program = .fail e) ∨ Replays env start t l

end LocalState

/-! ## all sessions -/

section
variable {ι : Type} (crates : Crates) (calls : ι → PostingCall × Session)

/-- A call, run alone. -/
def execCall (i : ι) (t : Tables) (id : Uuid) (t' : Tables) : Prop :=
  (Call.posting (calls i).1).exec crates (calls i).2 t = .ok (id, t')

/-- Concurrent calls can be replayed: other commits do not matter to a session,
and a session that finishes has done what its call does alone. -/
theorem concurrentCalls_replayable : Serial.Replayable (concurrentCalls crates calls)
    (execCall crates calls)
    fun i t l =>
      LocalState.Valid (calls i).2.env ((concurrentCalls crates calls).start i) t l := by
  have hstart (i : ι) : ((concurrentCalls crates calls).start i).Kept :=
    ⟨(calls i).1.disciplined crates, fun _ h => absurd h List.not_mem_nil⟩
  constructor
  · exact fun i t => .inr .refl
  · exact fun i => rfl
  · intro i t l l' hvalid hnext
    rcases hvalid with ⟨e, he⟩ | hreplays
    · change l.next _ t = _ at hnext
      simp only [LocalState.next, he] at hnext
      contradiction
    · exact .inr (hreplays.tail hnext)
  · intro i j t l m id hl hm hid hdisjoint
    by_cases halive : ∃ e, l.program = .fail e
    · exact .inl halive
    · have hreplays := hl.resolve_left halive
      have hprogram := LocalState.program_of_finished hid
      rcases hm with ⟨e, he⟩ | hm
      · simp only [hprogram] at he
        contradiction
      · have hkept := hm.kept (hstart j)
        refine .inr (hreplays.frame (hstart i) (Tables.Frame.writes fun w hw => ?_)
          fun e he => halive ⟨e, he⟩)
        have hcovered := hkept.covered w hw
        exact ⟨hcovered.posting, fun c hc hcl => hdisjoint c hcl (hcovered.claimed hc),
          fun c hc hcl => hdisjoint c hcl (hcovered.references hc)⟩
  · intro i t l id hvalid hid
    have hprogram := LocalState.program_of_finished hid
    rcases hvalid with ⟨e, he⟩ | hreplays
    · simp only [hprogram] at he
      contradiction
    · refine Call.exec_eq_ok.mpr ⟨l.backend, ?_⟩
      have hrun := hreplays.run_eq
      rw [hprogram] at hrun
      exact hrun

/-- The committed call of a session, as an event of a run. -/
def commitEvent (commit : ι × Uuid) : Event :=
  .call (.posting (calls commit.1).1) (calls commit.1).2

/-- What concurrent calls have done, starting from a run `events`: their
tables, and the identifiers they have returned, are those of the committed
calls one after another, in the order of their commits.  So all that holds of
runs holds of them. -/
structure Serialised (events : List Event) (w : Serial.World ι Tables LocalState Uuid) : Prop where
  tables : w.store = runLedger crates (events ++ w.commits.map (commitEvent calls))
  returned : ∀ before commit, before ++ [commit] <+: w.commits →
    (Call.posting (calls commit.1).1).exec crates (calls commit.1).2
        (runLedger crates (events ++ before.map (commitEvent calls))) =
      .ok (commit.2, runLedger crates (events ++ (before ++ [commit]).map (commitEvent calls)))
  outcome : ∀ i id, w.sessions i = .committed id ↔ (i, id) ∈ w.commits
  once : (w.commits.map Prod.fst).Nodup
  historiesHold : w.store.HistoriesHold
  keys : ∀ r ∈ w.store.transactions, ∀ s ∈ w.store.transactions, ∀ key,
    r.idempotencyKey = some key → s.idempotencyKey = some key → r = s
  reversals : ∀ r ∈ w.store.transactions, ∀ s ∈ w.store.transactions, ∀ original,
    r.reversesTransactionId = some original → s.reversesTransactionId = some original → r = s

variable {crates calls}

/-- A committed call is an event of a run of the ledger. -/
theorem execCall_event {events : List Event} (commit : ι × Uuid) {t' : Tables}
    (h : execCall crates calls commit.1 (runLedger crates events) commit.2 t') :
    runLedger crates (events ++ [commitEvent calls commit]) = t' := by
  rw [runLedger_append]
  show (Call.posting (calls commit.1).1).after crates (calls commit.1).2
    (runLedger crates events) = t'
  rw [Call.after, h]

/-- Transactions one after another are a run. -/
theorem serialRun_runLedger {events : List Event} {commits : List (ι × Uuid)} {t : Tables}
    (h : Serial.SerialRun (execCall crates calls) (runLedger crates events) commits t) :
    t = runLedger crates (events ++ commits.map (commitEvent calls)) := by
  induction h with
  | nil => rw [List.map_nil, List.append_nil]
  | @snoc commits t t' i id _ hexec ih =>
      rw [ih] at hexec
      have hevent := execCall_event (i, id) hexec
      rw [← hevent, List.map_append, List.append_assoc]
      rfl

/-- Every committed call has returned what it returns alone, after those
committed before it. -/
theorem serialRun_returned {events : List Event} {commits : List (ι × Uuid)} {t : Tables}
    (h : Serial.SerialRun (execCall crates calls) (runLedger crates events) commits t)
    {before : List (ι × Uuid)} {commit : ι × Uuid} (hinitial : before ++ [commit] <+: commits) :
    (Call.posting (calls commit.1).1).exec crates (calls commit.1).2
        (runLedger crates (events ++ before.map (commitEvent calls))) =
      .ok (commit.2,
        runLedger crates (events ++ (before ++ [commit]).map (commitEvent calls))) := by
  induction h with
  | nil =>
      have hnil := List.prefix_nil.mp hinitial
      simp at hnil
  | @snoc commits t t' i id hrun hexec ih =>
      cases List.prefix_concat_iff.mp hinitial with
      | inl heq =>
          obtain ⟨rfl, hcommit⟩ := List.append_inj' heq rfl
          obtain rfl : commit = (i, id) := List.singleton_inj.mp hcommit
          have hall := serialRun_runLedger (hrun.snoc hexec)
          rw [serialRun_runLedger hrun, hall] at hexec
          exact hexec
      | inr hearlier => exact ih hearlier

variable (crates calls) [Fintype ι] [DecidableEq ι]

/-- **Serialisability**: any number of posting calls at once, in any
interleaving of their statements, with commits and aborts at any time. -/
theorem serialisable (events : List Event) (schedule : List (ι × Serial.Action)) :
    Serialised crates calls events
      (runConcurrently crates calls (runLedger crates events) schedule) := by
  have hinv := Serial.runSchedule_inv (concurrentCalls_replayable crates calls)
    (runLedger crates events) schedule
  have htables := serialRun_runLedger hinv.serial
  have hsound := runLedger_sound crates (events ++
    (runConcurrently crates calls (runLedger crates events) schedule).commits.map
      (commitEvent calls))
  have hstore : (runConcurrently crates calls (runLedger crates events) schedule).store.Sound := by
    rw [runConcurrently, htables]
    exact hsound
  constructor
  · exact htables
  · exact fun before commit hinitial => serialRun_returned hinv.serial hinitial
  · exact hinv.outcome
  · exact hinv.once
  · exact fun a ha => (hstore.journaled a ha).history
  · intro r hr s hs key hrkey hskey
    exact hstore.constrained.eq_of_key hr hs hrkey hskey
  · intro r hr s hs original hroriginal hsoriginal
    exact hstore.constrained.eq_of_link hr hs hroriginal hsoriginal

end

end PgLedger
