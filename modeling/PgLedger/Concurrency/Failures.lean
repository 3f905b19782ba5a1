import PgLedger.Concurrency.Serialisable
import PgLedger.Runs.Refuses

/-!
# PgLedger.Concurrency.Failures

Failures of concurrent calls.  A session that fails is where a replay on the
committed tables would be, so its call would fail there alone, with the same
error and for a reason of its own.  The only failure that other commits can
overtake is that of a reversal whose original was not there when it was looked
for.  The other result that depends on the moment, a key that was taken and
cannot be found again, does not occur (`Spi.Careful`).
-/

namespace PgLedger

variable {crates : Crates} {env : Env} {t u : Tables}

/-- The error with which the next statement of the session fails. -/
def LocalState.error? (env : Env) (t : Tables) (l : LocalState) : Option PgError :=
  match l.program with
  | .pure _ => none
  | .fail e => some e
  | .stmt s _ =>
      match s.eval env (t.applyAll l.writes) l.backend with
      | .error e => some e
      | .ok _ => none

/-- A session does not go on exactly when its next statement fails. -/
theorem LocalState.next_eq_none_iff {l : LocalState} :
    l.next env t = none ↔ ∃ e, l.error? env t = some e := by
  cases hprogram : l.program with
  | pure id => simp [next, error?, hprogram]
  | fail e => simp [next, error?, hprogram]
  | stmt s k =>
      cases heval : s.eval env (t.applyAll l.writes) l.backend with
      | error e => simp [next, error?, hprogram, heval]
      | ok effect => simp [next, error?, hprogram, heval]

/-- A session that fails makes the rest of its program fail. -/
theorem LocalState.run_of_error {l : LocalState} {e : PgError} (h : l.error? env t = some e) :
    l.program.run env (t.applyAll l.writes) l.backend = .error e := by
  simp only [error?] at h
  split at h
  · contradiction
  · next e' hprogram =>
    rw [hprogram, ← Option.some.inj h]
    rfl
  · next s k hprogram =>
    split at h
    · next e' heval =>
      rw [hprogram, Spi.run, heval, ← Option.some.inj h]
      rfl
    · contradiction

/-! ## programs -/

/-- The keys that a result shows to be taken. -/
def Stmt.learns : (s : Stmt) → s.Result → List Str
  | .insertTransaction v, none => v.idempotencyKey.toList
  | _, _ => []

/-- What a statement that dooms the call may end it with: an original is
missing, as the error says, and the key that is looked for is known. -/
def Stmt.Excuse (Missing : Uuid → PgError → Prop) (known : List Str) : Stmt → PgError → Prop
  | .lockTransaction id, e => Missing id e
  | .resolveKey key, _ => key ∈ known
  | _, _ => True

namespace Spi

variable {α β : Type} {Missing : Uuid → PgError → Prop} {known : List Str}

/-- With `known` taken at the start, the program fails after a result that dooms
it only as `Stmt.Excuse` says. -/
def Careful (Missing : Uuid → PgError → Prop) (Q : List Str → α → Prop) :
    List Str → Spi α → Prop
  | known, .pure a => Q known a
  | _, .fail _ => True
  | known, .stmt s k => ∀ r, (s.Dooms r → ∃ e, k r = .fail e ∧ s.Excuse Missing known e) ∧
      Careful Missing Q (known ++ s.learns r) (k r)

/-- Less may be shown at the end. -/
theorem Careful.imp {Q Q' : List Str → α → Prop} {x : Spi α} (h : x.Careful Missing Q known)
    (hQ : ∀ c a, Q c a → Q' c a) : x.Careful Missing Q' known := by
  induction x generalizing known with
  | pure a => exact hQ known a h
  | fail e => trivial
  | stmt s k ih => exact fun r => ⟨(h r).1, ih r (h r).2⟩

/-- **Sequencing**: the second part has to be careful with the keys that the
first has learned. -/
theorem Careful.bind {Q : List Str → β → Prop} {x : Spi α} {f : α → Spi β}
    (h : x.Careful Missing (fun c a => (f a).Careful Missing Q c) known) :
    (x >>= f).Careful Missing Q known := by
  induction x generalizing known with
  | pure a => exact h
  | fail e => trivial
  | stmt s k ih =>
      refine fun r => ⟨fun hdooms => ?_, ih r (h r).2⟩
      obtain ⟨e, he, hexcuse⟩ := (h r).1 hdooms
      refine ⟨e, ?_, hexcuse⟩
      show (k r).bind f = _
      rw [he]
      rfl

/-- A computation learns nothing. -/
theorem Careful.ofExcept {Q : List Str → α → Prop} {x : Except PgError α}
    (h : ∀ a, x = .ok a → Q known a) : (Spi.ofExcept x).Careful Missing Q known := by
  cases x with
  | error e => trivial
  | ok a => exact h a rfl

/-- A statement that dooms no call. -/
theorem Careful.send {s : Stmt} {Q : List Str → s.Result → Prop} (hdooms : ∀ r, ¬ s.Dooms r)
    (hQ : ∀ r, Q (known ++ s.learns r) r) : (Spi.send s).Careful Missing Q known :=
  fun r => ⟨fun h => absurd h (hdooms r), hQ r⟩

end Spi

/-! ## the engine -/

section
variable {Missing : Uuid → PgError → Prop} {known : List Str}

/-- A key is looked for only after the insert has found it taken. -/
theorem insertTransaction_careful {request : PostRequest} {createdAt : Timestamp} :
    (insertTransaction crates request createdAt).Careful Missing (fun _ _ => True) known := by
  refine .bind (.ofExcept fun hashes _ => .bind (.send (fun _ => not_false) fun result => ?_))
  cases result with
  | some id => trivial
  | none =>
      cases hkey : request.idempotencyKey with
      | none => trivial
      | some key =>
          refine fun found => ⟨fun hdooms => ?_, ?_⟩
          · obtain rfl : found = none := hdooms
            have hlearned : key ∈ (Stmt.insertTransaction (request.values hashes createdAt)).learns
                none := Option.mem_toList.mpr hkey
            exact ⟨_, rfl, List.mem_append_right _ hlearned⟩
          · cases found with
            | none => trivial
            | some found =>
                show (if _ then _ else _ : Spi InsertOutcome).Careful _ _ _
                split
                · trivial
                · trivial

/-- A missing account dooms nothing here. -/
theorem selectForUpdate_careful (ids : List Uuid) :
    (selectForUpdate ids).Careful Missing (fun _ _ => True) known := by
  induction ids generalizing known with
  | nil => trivial
  | cons id ids ih =>
      exact .bind (.send (fun _ => not_false) fun found => .bind (ih.imp fun _ _ _ => trivial))

/-- Nothing in the loop dooms a call. -/
theorem postAll_careful {transactionId : Uuid} {createdAt : Timestamp} {accounts : AccountMap}
    (postings : List LedgerPosting) :
    (postAll transactionId createdAt accounts postings).Careful Missing (fun _ _ => True)
      known := by
  induction postings generalizing accounts known with
  | nil => trivial
  | cons posting postings ih =>
      refine .bind ?_
      unfold postOne
      split
      · trivial
      · refine .bind (.ofExcept fun current _ => .bind (.send (fun _ => not_false) fun _ => ?_))
        exact .bind (.send (fun _ => not_false) fun _ => ih)

/-- Nothing after the insert of the transaction dooms a call. -/
theorem postEntries_careful {postings : List LedgerPosting} {transactionId : Uuid}
    {createdAt : Timestamp} :
    (postEntries crates postings transactionId createdAt).Careful Missing (fun _ _ => True)
      known := by
  refine .bind (.bind ((selectForUpdate_careful _).imp fun c rows _ => ?_))
  split
  · trivial
  · refine .bind (.ofExcept fun _ _ => .bind (.send (fun _ => not_false) fun _ => .bind ?_))
    refine (postAll_careful postings).imp fun _ _ _ => ?_
    exact .bind (.send (fun _ => not_false) fun _ => trivial)

/-- The engine fails without a reason of its own only on a key that it knows. -/
theorem post_careful {request : PostRequest} :
    (post crates request).Careful Missing (fun _ _ => True) known := by
  refine .bind (.ofExcept fun _ _ => .bind (.send (fun _ => not_false) fun createdAt => .bind ?_))
  refine insertTransaction_careful.imp fun c outcome _ => ?_
  cases outcome with
  | replayed id => trivial
  | created id => exact postEntries_careful

variable (crates) in
/-- The call is a reversal of a transaction that is missing, and the error says
so. -/
def PostingCall.Misses (call : PostingCall) (id : Uuid) (e : PgError) : Prop :=
  (∃ options, call = .reverse id options) ∧
    e = failForeignKey ("ledger transaction " ++ String.ofList (crates.pgUuidToString id) ++
      " does not exist")

/-- **Care**: every posting call has it. -/
theorem PostingCall.careful (crates : Crates) (call : PostingCall) :
    (call.program crates).Careful (call.Misses crates) (fun _ _ => True) known := by
  cases call with
  | post elements options => exact .bind (.ofExcept fun postings _ => post_careful)
  | transfer fromAccount toAccount amount options =>
      rw [program, ledgerTransfer]
      split
      · trivial
      · split
        · trivial
        · exact post_careful
  | reverse original options =>
      refine .bind fun found => ⟨fun hdooms => ?_, ?_⟩
      · obtain rfl : found = false := hdooms
        exact ⟨_, rfl, ⟨options, rfl⟩, rfl⟩
      · cases found with
        | false => trivial
        | true =>
            refine .send (fun _ => not_false) fun existing => ?_
            cases existing with
            | some id => trivial
            | none => exact .bind (.send (fun _ => not_false) fun postings => post_careful)

end

/-! ## sessions -/

namespace LocalState

variable {start l : LocalState} {Missing : Uuid → PgError → Prop}

/-- A key that is used stays used. -/
theorem mem_idempotencyKeys_applyAll {key : Str} (ws : List Write)
    (h : key ∈ t.idempotencyKeys) : key ∈ (t.applyAll ws).idempotencyKeys := by
  induction ws generalizing t with
  | nil => exact h
  | cons w ws ih =>
      refine ih ?_
      cases w with
      | insertTransaction row =>
          rw [Tables.idempotencyKeys_insertTransaction]
          exact List.mem_append_left _ h
      | insertAccount row | updateAccount row | insertEntry row => exact h

/-- No write of a public function removes a transaction. -/
theorem transactionIds_subset_applyAll (t : Tables) (ws : List Write) :
    t.transactionIds ⊆ (t.applyAll ws).transactionIds := by
  induction ws generalizing t with
  | nil => exact List.Subset.refl _
  | cons w ws ih =>
      refine List.Subset.trans ?_ (ih _)
      cases w with
      | insertTransaction row =>
          rw [Tables.transactionIds_insertTransaction]
          exact List.subset_append_left _ _
      | insertAccount row | updateAccount row | insertEntry row => exact List.Subset.refl _

/-- Where the session is, its program is still careful, and the keys it knows
are taken. -/
theorem Replays.careful (h : Replays env start t l)
    (hstart : start.program.Careful Missing (fun _ _ => True) []) :
    ∃ known, l.program.Careful Missing (fun _ _ => True) known ∧
      ∀ key ∈ known, key ∈ (t.applyAll l.writes).idempotencyKeys := by
  induction h with
  | refl => exact ⟨[], hstart, fun _ h => absurd h List.not_mem_nil⟩
  | @tail l₀ l _ hnext ih =>
      obtain ⟨known, hcareful, hknown⟩ := ih
      rcases next_eq_some hnext with ⟨-, -, rfl⟩ | ⟨s, k, effect, hprogram, heval, rfl⟩
      · exact ⟨known, hcareful, hknown⟩
      · rw [hprogram] at hcareful
        refine ⟨known ++ s.learns effect.result, (hcareful effect.result).2, fun key hkey => ?_⟩
        have hwrites : t.applyAll (l₀.advance k effect).writes =
            (t.applyAll l₀.writes).applyAll effect.writes := Tables.applyAll_append t _ _
        rw [hwrites]
        refine mem_idempotencyKeys_applyAll _ ?_
        rcases List.mem_append.mp hkey with hold | hlearned
        · exact hknown key hold
        · cases s with
          | insertTransaction v =>
              rcases Stmt.evalInsertTransaction_eq_ok heval with ⟨htaken, rfl⟩ | ⟨row, -, -, -, rfl⟩
              · obtain ⟨key', hvalue, hmem⟩ := Tables.taken_eq_true.mp htaken
                obtain rfl := Option.some.inj (hvalue.symm.trans (Option.mem_toList.mp hlearned))
                exact hmem
              · exact absurd hlearned List.not_mem_nil
          | clockTimestamp | lockTransaction id | findReversal id | reversalPostings id
          | resolveKey key | lockAccount id | setInternalPosting value
          | updateAccount balance version id | insertEntry v | insertAccount v =>
              exact absurd hlearned List.not_mem_nil

/-- A commit of another session leaves a session where it is, or the session has
failed since an original was missing. -/
theorem Replays.frame_or_missed (h : Replays env start t l) (hstart : start.Kept)
    (hcareful : start.program.Careful Missing (fun _ _ => True) [])
    (hframe : t.Frame l.claims u) : Replays env start u l ∨
      ∃ id e, Missing id e ∧ l.program = .fail e ∧ id ∉ t.transactionIds := by
  by_cases hend : ∃ e, l.program = .fail e
  swap
  · exact .inl (h.frame hstart hframe fun e he => hend ⟨e, he⟩)
  · obtain ⟨e, hfailed⟩ := hend
    rcases Relation.ReflTransGen.cases_tail h with rfl | ⟨l₀, hprevious, hnext⟩
    · exact .inl .refl
    · have hkept : l₀.Kept := Replays.kept hprevious hstart
      have hclaims := claims_next hnext
      rcases next_eq_some hnext with ⟨id, hprogram, rfl⟩ | ⟨s, k, effect, hprogram, heval, rfl⟩
      · rw [hfailed] at hprogram
        contradiction
      · have hbefore : Replays env start u l₀ := by
          refine Replays.frame hprevious hstart (hframe.anti hclaims) fun e' he' => ?_
          rw [hprogram] at he'
          contradiction
        have hdisciplined := hkept.disciplined
        rw [hprogram] at hdisciplined
        obtain ⟨hs, -⟩ := hdisciplined
        by_cases hdooms : s.Dooms effect.result
        · obtain ⟨known, hrest, hknown⟩ := Replays.careful hprevious hcareful
          rw [hprogram] at hrest
          obtain ⟨e', hend, hexcuse⟩ := (hrest effect.result).1 hdooms
          cases s with
          | lockTransaction id =>
              obtain rfl := Except.ok.inj heval
              refine .inr ⟨id, e', hexcuse, hend, fun hmem => ?_⟩
              have hfound := transactionIds_subset_applyAll t l₀.writes hmem
              simp [Stmt.Dooms, hfound] at hdooms
          | resolveKey key =>
              obtain rfl := Except.ok.inj heval
              have hmem := hknown key hexcuse
              have hnone : (t.applyAll l₀.writes).holder? key = none := by
                simpa [Stmt.Dooms] using hdooms
              exact absurd hmem (Tables.holder?_eq_none_iff.mp hnone)
          | clockTimestamp | findReversal id | reversalPostings id | insertTransaction v
          | lockAccount id | setInternalPosting value | updateAccount balance version id
          | insertEntry v | insertAccount v => exact hdooms.elim
        · refine .inl (hbefore.tail (next_of_stmt hprogram (Stmt.eval_frame
            ?_ hs hclaims ?_ ?_ hdooms heval)))
          · exact hframe.ownAll fun w hw => (hkept.covered w hw).mono hclaims
          · intro c hc
            exact List.mem_append_right _ (List.mem_append_left _ hc)
          · intro w hw c hc
            exact List.mem_append_right _
              (List.mem_append_right _ (List.mem_flatMap.mpr ⟨w, hw, hc⟩))

end LocalState

/-! ## all sessions -/

section
variable {ι : Type} (crates : Crates) (calls : ι → PostingCall × Session)

/-- The session would be where it is if it had run on these tables, or it has
failed since its original was missing at the beginning. -/
def ReplaysOrMissed (before : Tables) (i : ι) (t : Tables) (l : LocalState) : Prop :=
  LocalState.Replays (calls i).2.env ((concurrentCalls crates calls).start i) t l ∨
    ∃ id e, (calls i).1.Misses crates id e ∧ l.program = .fail e ∧ id ∉ before.transactionIds

variable {crates calls}

/-- Committed transactions stay. -/
theorem serialRun_transactionIds {commits : List (ι × Uuid)} (hconstrained : t.Constrained)
    (h : Serial.SerialRun (execCall crates calls) t commits u) :
    u.Constrained ∧ t.transactionIds ⊆ u.transactionIds := by
  induction h with
  | nil => exact ⟨hconstrained, List.Subset.refl _⟩
  | @snoc commits t' t'' i id hrun hexec ih =>
      obtain ⟨hmiddle, hsubset⟩ := ih
      obtain ⟨b', hcall⟩ := Call.exec_eq_ok.mp hexec
      rcases (calls i).1.run_cases hmiddle hcall with rfl | ⟨request, hashes, row, -, -, hcreated⟩
      · exact ⟨hmiddle, hsubset⟩
      · refine ⟨hcreated.constrained, List.Subset.trans hsubset ?_⟩
        rw [hcreated.transactionIds]
        exact List.subset_append_left _ _

/-- **The invariant**: the store is that of the committed calls one after
another, and a session replays on it or has missed its original. -/
theorem concurrentCalls_sharedInv {before : Tables} (hconstrained : before.Constrained) :
    Serial.SharedInv (concurrentCalls crates calls)
      (fun commits t => Serial.SerialRun (execCall crates calls) before commits t)
      (ReplaysOrMissed crates calls before) := by
  have hstart (i : ι) : ((concurrentCalls crates calls).start i).Kept :=
    ⟨(calls i).1.disciplined crates, fun _ h => absurd h List.not_mem_nil⟩
  have hreplayable := concurrentCalls_replayable crates calls
  constructor
  · exact fun _ i => .inl .refl
  · exact fun i => rfl
  · intro i commits t l l' _ hl hnext
    rcases hl with hreplays | ⟨id, e, -, hfailed, -⟩
    · exact .inl (hreplays.tail hnext)
    · change l.next _ t = _ at hnext
      simp only [LocalState.next, hfailed] at hnext
      contradiction
  · intro i j commits t l m id hserial hl hm hid hdisjoint
    rcases hl with hreplays | hmissed
    · have hprogram := LocalState.program_of_finished hid
      rcases hm with hm | ⟨_, e, -, he, -⟩
      · have hkept := hm.kept (hstart j)
        have hframe : t.Frame l.claims (t.applyAll m.writes) := by
          refine Tables.Frame.writes fun w hw => ?_
          have hcovered := hkept.covered w hw
          exact ⟨hcovered.posting, fun c hc hcl => hdisjoint c hcl (hcovered.claimed hc),
            fun c hc hcl => hdisjoint c hcl (hcovered.references hc)⟩
        rcases hreplays.frame_or_missed (hstart i) ((calls i).1.careful crates) hframe with
          hsame | ⟨original, e, hmisses, hfailed, hmissing⟩
        · exact .inl hsame
        · obtain ⟨-, hsubset⟩ := serialRun_transactionIds hconstrained hserial
          exact .inr ⟨original, e, hmisses, hfailed, fun hmem => hmissing (hsubset hmem)⟩
      · rw [hprogram] at he
        contradiction
    · exact .inr hmissed
  · intro i commits t l id hserial hl hid
    have hprogram := LocalState.program_of_finished hid
    rcases hl with hreplays | ⟨_, e, -, he, -⟩
    · exact hserial.snoc (hreplayable.finish (.inr hreplays) hid)
    · rw [hprogram] at he
      contradiction

variable (crates calls) in
/-- Where a session fails, its call alone fails on the committed tables with the
same error, and has a reason to; or it reverses a transaction that was missing
at the beginning, and its error says that. -/
def FailuresExplained (before : Tables) (w : Serial.World ι Tables LocalState Uuid) : Prop :=
  ∀ i l e, w.sessions i = .running l → l.error? (calls i).2.env w.store = some e →
    e.AboutCall ∧
      ((Call.posting (calls i).1).exec crates (calls i).2 w.store = .error e ∧
          (Call.posting (calls i).1).Refused crates (calls i).2 w.store e ∨
        ∃ id, (calls i).1.Misses crates id e ∧ id ∉ before.transactionIds)

/-- The error that an original is missing is about the call. -/
theorem PostingCall.Misses.aboutCall {call : PostingCall} {id : Uuid} {e : PgError}
    (h : call.Misses crates id e) : e.AboutCall := by
  obtain ⟨-, rfl⟩ := h
  simp [PgError.AboutCall, failForeignKey]

variable [Fintype ι] [DecidableEq ι]

/-- **Failures**: in every interleaving of concurrent calls a session fails as
its call alone would, for a reason of its own.  There is no internal error, no
conflict that cannot be resolved, and no update that the guard of the balances
refuses. -/
theorem failuresExplained (hdigests : crates.Digests) (events : List Event)
    (schedule : List (ι × Serial.Action)) :
    FailuresExplained crates calls (runLedger crates events)
      (runConcurrently crates calls (runLedger crates events) schedule) := by
  intro i l e hi herror
  have hsound := runLedger_sound crates events
  have hinv : Serial.SharedInv (concurrentCalls crates calls) _
      (ReplaysOrMissed crates calls (runLedger crates events)) :=
    concurrentCalls_sharedInv hsound.constrained
  obtain ⟨hserial, hholds⟩ := hinv.runSchedule .nil schedule
  rcases hholds.valid i l hi with hreplays | ⟨id, e', hmisses, hfailed, hmissing⟩
  · have hstore :
        (runConcurrently crates calls (runLedger crates events) schedule).store.Sound := by
      rw [runConcurrently, serialRun_runLedger hserial]
      exact runLedger_sound crates _
    have halone : (Call.posting (calls i).1).exec crates (calls i).2
        (runConcurrently crates calls (runLedger crates events) schedule).store = .error e :=
      Call.exec_eq_error.mpr (hreplays.run_eq.trans (LocalState.run_of_error herror))
    have hrefused := Call.refused hdigests hstore.constrained hstore.journaled halone
    exact ⟨hrefused.aboutCall, .inl ⟨halone, hrefused⟩⟩
  · rw [LocalState.error?, hfailed] at herror
    obtain rfl := Option.some.inj herror
    exact ⟨hmisses.aboutCall, .inr ⟨id, hmisses, hmissing⟩⟩

end

/-- Two sessions, one of which reverses a transaction that is not there. -/
def failingCalls : Fin 2 → PostingCall × Session
  | 0 => (fixtureTransfer, fixtureSession 0x201)
  | 1 => (.reverse 0x999#128 ⟨none, none, none, none⟩, fixtureSession 0x301)

theorem failuresExplained_fixture : FailuresExplained .concrete failingCalls
    (runLedger .concrete fixtureAccounts) (runConcurrently .concrete failingCalls
      (runLedger .concrete fixtureAccounts) [(0, .step), (1, .step), (1, .step)]) :=
  failuresExplained Crates.concrete_digests fixtureAccounts [(0, .step), (1, .step), (1, .step)]

end PgLedger
