import PgLedger.Book.Refines
import PgLedger.Concurrency.Progress
import PgLedger.Idempotency.ExactlyOnce

/-!
# PgLedger.Book.History

The ledger refines the book over runs.  The calls that succeed are a history
of the book, with the identifiers they return as its answers; a call that
fails leaves no trace, and neither does another format of a fingerprint.
Concurrent calls are a history as well, in the order of their commits.

What the book says of histories then holds of the ledger: a call that has
succeeded can be repeated at any later time, and calls about the same key or
the same original agree on their answer.
-/

namespace PgLedger

variable {crates : Crates} {t t' : Tables}

/-! ## runs -/

section
variable (crates : Crates)

/-- The command of a call that succeeded, with the identifier it returned. -/
def Event.answered (event : Event) (t : Tables) : List (LedgerCommand × Uuid) :=
  match event with
  | .call made session =>
      match made.exec crates session t with
      | .ok (id, _) => (made.command crates).toList.map fun command => (command, id)
      | .error _ => []
  | .unversion _ _ => []

/-- The history of a run that begins with the tables `t`. -/
def answered (t : Tables) : List Event → List (LedgerCommand × Uuid)
  | [] => []
  | event :: events => event.answered crates t ++ answered (event.after crates t) events

/-- The book right after `CREATE EXTENSION`. -/
def emptyBook : LedgerBook := ⟨fun _ => none, []⟩

/-- What the run has answered is a history of the book, and every call that
may come next agrees with it. -/
structure RunRefines (events : List Event) : Prop where
  history : Book.History emptyBook (answered crates .empty events)
    ((runLedger crates events).book crates)
  calls : ∀ (call : Call) (session : Session),
    call.Refines crates session (runLedger crates events)

end

/-- The empty book is lawful. -/
theorem emptyBook_lawful : emptyBook.Lawful :=
  ⟨fun _ h => absurd h List.not_mem_nil, fun _ h => absurd h List.not_mem_nil⟩

/-- The answers of a run go on with those of its continuation. -/
theorem answered_append (crates : Crates) (t : Tables) (events events' : List Event) :
    answered crates t (events ++ events') = answered crates t events ++
      answered crates (events.foldl (fun t event => event.after crates t) t) events' := by
  induction events generalizing t with
  | nil => rfl
  | cons event events ih =>
      rw [List.cons_append, answered, ih, answered, List.append_assoc]
      rfl

/-- Another format of a fingerprint answers the same documents. -/
theorem TransactionRow.unversion_answers (hdigests : crates.Digests) (row : TransactionRow)
    (id : Uuid) (request : PostRequest) :
    answersOf crates (row.unversion crates id request).payloadHash =
      answersOf crates row.payloadHash := by
  funext document
  simp only [answersOf, row.isFingerprint_unversion hdigests]

/-- Fingerprint formats do not show in the book. -/
theorem Event.book_unversion (hdigests : crates.Digests) (id : Uuid) (request : PostRequest)
    (t : Tables) : ((Event.unversion id request).after crates t).book crates = t.book crates := by
  refine congrArg (Book.mk _) ?_
  show (t.transactions.map (·.unversion crates id request)).map _ = _
  rw [List.map_map]
  refine List.map_congr_left fun row _ => ?_
  obtain ⟨hid, hkey, hlink⟩ : (row.unversion crates id request).id = row.id ∧ _ ∧ _ :=
    row.unversion_fields id request
  rw [Function.comp_apply, Tables.record, hid, hkey, hlink, row.unversion_answers hdigests]
  rfl

/-- One event is a step of the book, or the book does not notice it. -/
theorem Event.history (huuid : crates.UuidText) (hdigests : crates.Digests) (hsound : t.Sound)
    (hrecorded : t.Recorded crates) (event : Event) :
    Book.History (t.book crates) (event.answered crates t)
      ((event.after crates t).book crates) := by
  cases event with
  | unversion id request =>
      rw [Event.book_unversion hdigests]
      exact .nil
  | call made session =>
      cases hexec : made.exec crates session t with
      | error e =>
          rw [answered, after, Call.after, hexec]
          exact .nil
      | ok result =>
          obtain ⟨id, t'⟩ := result
          obtain ⟨command, hcommand, hstep⟩ :=
            (hsound.refines huuid hdigests hrecorded made session).accepted id t' hexec
          rw [answered, after, Call.after, hexec, hcommand]
          exact Serial.SerialRun.snoc .nil hstep

/-- The history of a run, from any sound tables. -/
theorem history_from (huuid : crates.UuidText) (hdigests : crates.Digests) (hsound : t.Sound)
    (hrecorded : t.Recorded crates) (events : List Event) :
    Book.History (t.book crates) (answered crates t events)
      ((events.foldl (fun t event => event.after crates t) t).book crates) := by
  induction events generalizing t with
  | nil => exact .nil
  | cons event events ih =>
      have hfirst := Event.history huuid hdigests hsound hrecorded event
      exact hfirst.trans (ih (event.sound hsound) (event.recorded hdigests hsound hrecorded))

/-- The answers of a run are a history of the book. -/
theorem runLedger_history (huuid : crates.UuidText) (hdigests : crates.Digests)
    (events : List Event) : Book.History emptyBook (answered crates .empty events)
      ((runLedger crates events).book crates) :=
  history_from huuid hdigests Tables.sound_empty (fun _ h => absurd h List.not_mem_nil) events

/-- In every reachable ledger a call does what its command does to the book. -/
theorem runLedger_refines (huuid : crates.UuidText) (hdigests : crates.Digests)
    (events : List Event) (call : Call) (session : Session) :
    call.Refines crates session (runLedger crates events) :=
  (runLedger_sound crates events).refines huuid hdigests (runLedger_recorded hdigests events) call
    session

/-- **Refinement over runs**: in every run the calls that succeed, with the
identifiers they return, are a history of the book; and in every ledger that
can be reached a call succeeds exactly when the book accepts its command, as
long as identifiers and versions do not run out. -/
theorem ledgerRefinesBook (huuid : crates.UuidText) (hdigests : crates.Digests)
    (events : List Event) : RunRefines crates events :=
  ⟨runLedger_history huuid hdigests events, runLedger_refines huuid hdigests events⟩

/-- The run of the fixture. -/
theorem ledgerRefinesBook_fixture : RunRefines .concrete fixtureRun :=
  ledgerRefinesBook Crates.concrete_uuidText Crates.concrete_digests fixtureRun

/-! ## retries -/

/-- The call `retry` asks for what `call` has asked for: the same request with
the same key, or the reversal of the same original. -/
def Call.RetriedBy (crates : Crates) (call retry : Call) : Prop :=
  ∃ command command', call.command crates = some command ∧
    retry.command crates = some command' ∧ command.Repeats command'

/-- The first call of a run that is a call is in its history. -/
theorem mem_answered {call : Call} {session : Session} {id : Uuid} {command : LedgerCommand}
    (hexec : call.exec crates session t = .ok (id, t'))
    (hcommand : call.command crates = some command) (later : List Event) :
    (command, id) ∈ answered crates t (.call call session :: later) := by
  refine List.mem_append_left _ ?_
  rw [Event.answered, hexec, hcommand]
  exact List.mem_singleton_self _

/-- A command to post comes from a call with its key. -/
theorem Call.command_eq_post {call : Call} {request : Book.Request Uuid Str LedgerAsset Int Json}
    (h : call.command crates = some (.post request)) :
    ∃ posting, call = .posting posting ∧ posting.key crates = request.key := by
  cases call with
  | createAccount name asset balancePolicy metadata =>
      simp only [command] at h
      split at h <;> simp at h
  | posting call =>
      refine ⟨call, rfl, ?_⟩
      simp only [command] at h
      cases call with
      | post elements options =>
          simp only [PostingCall.command] at h
          split at h
          · contradiction
          · rw [← Book.Command.post.inj (Option.some.inj h)]
            rfl
      | transfer fromAccount toAccount amount options =>
          simp only [PostingCall.command] at h
          split at h
          · contradiction
          · rw [← Book.Command.post.inj (Option.some.inj h)]
            rfl
      | reverse original options => simp [PostingCall.command] at h

/-- A command to reverse comes from a call that reverses. -/
theorem Call.command_eq_reverse {call : Call} {original : Uuid} {key : Option Str}
    (h : call.command crates = some (.reverse original key)) :
    ∃ options, call = .posting (.reverse original options) := by
  cases call with
  | createAccount name asset balancePolicy metadata =>
      simp only [command] at h
      split at h <;> simp at h
  | posting call =>
      simp only [command] at h
      cases call with
      | post elements options =>
          simp only [PostingCall.command] at h
          split at h <;> simp at h
      | transfer fromAccount toAccount amount options =>
          simp only [PostingCall.command] at h
          split at h <;> simp at h
      | reverse original' options =>
          obtain ⟨rfl, -⟩ := Book.Command.reverse.inj (Option.some.inj h)
          exact ⟨options, rfl⟩

/-- A call with an answer in the book posts, and there is always room for it. -/
theorem Call.hasRoom_of_answers {call : Call} {command : LedgerCommand} {id : Uuid}
    (hcommand : call.command crates = some command)
    (hanswers : (t.book crates).Answers command id) (session : Session) :
    ∃ posting, call = .posting posting ∧ call.HasRoom crates session t := by
  cases hanswers with
  | @post request record key hproper hrecord hkey hheld hdocument =>
      obtain ⟨posting, rfl, hsame⟩ := Call.command_eq_post hcommand
      refine ⟨posting, rfl, fun sent hsends hfree => ?_⟩
      obtain ⟨row, hrow, rfl⟩ := List.mem_map.mp hrecord
      have hmem : key ∈ t.idempotencyKeys := List.mem_filterMap.mpr ⟨row, hrow, hheld⟩
      have hsent : sent.idempotencyKey = some key := hsends.key.trans (hsame.trans hkey)
      exact absurd hmem (Tables.taken_eq_false.mp hfree key hsent)
  | @reverse original key record horiginal hrecord hlink =>
      obtain ⟨options, rfl⟩ := Call.command_eq_reverse hcommand
      refine ⟨_, rfl, fun sent hsends _ => ?_⟩
      obtain ⟨row, hrow, rfl⟩ := List.mem_map.mp hrecord
      cases hsends with
      | reverse hmem hnone => exact absurd hlink (Tables.reversal?_eq_none.mp hnone row hrow)

/-- A posting call that leaves the book as it is leaves the tables as they are. -/
theorem PostingCall.unchanged_of_book {call : PostingCall} {session : Session} {id : Uuid}
    (hconstrained : t.Constrained)
    (h : (Call.posting call).exec crates session t = .ok (id, t'))
    (hbook : t'.book crates = t.book crates) : t' = t := by
  obtain ⟨b', hrun⟩ := Call.exec_eq_ok.mp h
  rcases call.run_cases hconstrained hrun with hsame | ⟨request, hashes, row, -, -, hcreated⟩
  · exact hsame
  · have hlength := congrArg (fun book : LedgerBook => book.records.length) hbook
    simp [Tables.book, hcreated.transactions] at hlength

/-- A call whose command has an answer in the book returns it, and changes
nothing. -/
theorem Tables.Sound.exec_answered (huuid : crates.UuidText) (hdigests : crates.Digests)
    (hsound : t.Sound) (hrecorded : t.Recorded crates) (hlawful : (t.book crates).Lawful)
    {call : Call} {command : LedgerCommand} {id : Uuid}
    (hcommand : call.command crates = some command)
    (hanswers : (t.book crates).Answers command id) (session : Session) :
    call.exec crates session t = .ok (id, t) := by
  have hrefines := hsound.refines huuid hdigests hrecorded call session
  obtain ⟨posting, rfl, hroom⟩ := Call.hasRoom_of_answers hcommand hanswers session
  obtain ⟨id', t', hexec⟩ := hrefines.accepts hroom command hcommand
    ⟨id, t.book crates, (hanswers.step_iff hlawful).mpr ⟨rfl, rfl⟩⟩
  obtain ⟨command', hcommand', hstep⟩ := hrefines.accepted id' t' hexec
  obtain rfl := Option.some.inj (hcommand.symm.trans hcommand')
  obtain ⟨rfl, hbook⟩ := (hanswers.step_iff hlawful).mp hstep
  rw [PostingCall.unchanged_of_book hsound.constrained hexec hbook] at hexec
  exact hexec

/-- **Retries**: a call with a key, or a reversal, that has succeeded once
succeeds whenever it is made again, whatever has happened in between: it
returns the same identifier and changes nothing.  Neither balances and
policies nor identifiers and versions matter to it. -/
theorem retrySucceeds (huuid : crates.UuidText) (hdigests : crates.Digests)
    (events later : List Event) (call retry : Call) (session session' : Session) (id : Uuid)
    (t' : Tables) (hexec : call.exec crates session (runLedger crates events) = .ok (id, t'))
    (hretry : call.RetriedBy crates retry) :
    retry.exec crates session' (runLedger crates (events ++ .call call session :: later)) =
      .ok (id, runLedger crates (events ++ .call call session :: later)) := by
  obtain ⟨command, command', hcommand, hcommand', hrepeats⟩ := hretry
  have hhistory := runLedger_history huuid hdigests (events ++ .call call session :: later)
  have hmem : (command, id) ∈ answered crates .empty (events ++ .call call session :: later) := by
    rw [answered_append]
    exact List.mem_append_right _ (mem_answered hexec hcommand later)
  exact (runLedger_sound crates _).exec_answered huuid hdigests (runLedger_recorded hdigests _)
    (hhistory.lawful emptyBook_lawful) hcommand'
    ((hhistory.answers hmem hrepeats.repeatable).repeats hrepeats) session'

/-- The transfer of the fixture, as a posting with the lines the other way round. -/
def fixturePosting : PostingCall :=
  .post [some ⟨0x102#128, ⟨usd, 2500⟩⟩, some ⟨0x101#128, ⟨usd, -2500⟩⟩] fixtureOptions

/-- The transfer of the fixture and the same postings, posted directly, are one
request. -/
theorem fixtureTransfer_retried :
    (Call.posting fixtureTransfer).RetriedBy .concrete (.posting fixturePosting) := by
  refine ⟨_, _, rfl, rfl, ?_, _, rfl⟩
  have hperm : (transferPostings 0x101#128 0x102#128 ⟨usd, 2500⟩).Perm
      [⟨0x102#128, ⟨usd, 2500⟩⟩, ⟨0x101#128, ⟨usd, -2500⟩⟩] := List.Perm.swap _ _ _
  have hpayload : payload .concrete
        (fixtureOptions.request (transferPostings 0x101#128 0x102#128 ⟨usd, 2500⟩)) =
      payload .concrete
        (fixtureOptions.request [⟨0x102#128, ⟨usd, 2500⟩⟩, ⟨0x101#128, ⟨usd, -2500⟩⟩]) :=
    (payload_eq_iff Crates.concrete_uuidText).mpr ⟨⟨hperm, rfl, rfl, rfl⟩, .inl rfl⟩
  rw [linesOf_perm hperm, hpayload]
  rfl

/-- The transfer, posted again as postings after the rest of the run. -/
theorem retrySucceeds_fixture :
    (Call.posting fixturePosting).exec .concrete (fixtureSession 0x501)
      (runLedger .concrete (fixtureAccounts ++
        .call (.posting fixtureTransfer) (fixtureSession 0x201) :: fixtureRun.drop 3)) =
    .ok (0x201#128, runLedger .concrete (fixtureAccounts ++
        .call (.posting fixtureTransfer) (fixtureSession 0x201) :: fixtureRun.drop 3)) := by
  obtain ⟨t', hexec⟩ : ∃ t', (Call.posting fixtureTransfer).exec .concrete (fixtureSession 0x201)
      (runLedger .concrete fixtureAccounts) = .ok (0x201#128, t') := ⟨_, rfl⟩
  exact retrySucceeds Crates.concrete_uuidText Crates.concrete_digests fixtureAccounts
    (fixtureRun.drop 3) _ _ _ (fixtureSession 0x501) _ t' hexec fixtureTransfer_retried

/-! ## concurrent calls -/

section
variable {ι : Type} (crates : Crates) (calls : ι → PostingCall × Session)

/-- The commands of committed calls, with the identifiers they have returned. -/
def committed (commits : List (ι × Uuid)) : List (LedgerCommand × Uuid) :=
  commits.flatMap fun commit =>
    ((calls commit.1).1.command crates).toList.map fun command => (command, commit.2)

/-- What concurrent calls have done after a run `events`: every committed call
had a command, and the commits extend the history of the run. -/
structure Linearised (events : List Event) (w : Serial.World ι Tables LocalState Uuid) :
    Prop where
  commands : ∀ i id, w.sessions i = .committed id →
    ∃ command, (calls i).1.command crates = some command ∧
      (command, id) ∈ committed crates calls w.commits
  history : Book.History emptyBook
    (answered crates .empty events ++ committed crates calls w.commits) (w.store.book crates)
  agree : ∀ command id command' id',
    (command, id) ∈ answered crates .empty events ++ committed crates calls w.commits →
    (command', id') ∈ answered crates .empty events ++ committed crates calls w.commits →
    command.Repeatable → command'.Repeatable → command.Same command' → id = id'

variable {crates calls}

/-- Committed calls, one after another, are a history. -/
theorem serialRun_history (huuid : crates.UuidText) (hdigests : crates.Digests)
    {events : List Event} {commits : List (ι × Uuid)}
    (h : Serial.SerialRun (execCall crates calls) (runLedger crates events) commits t) :
    Book.History ((runLedger crates events).book crates) (committed crates calls commits)
      (t.book crates) := by
  induction h with
  | nil => exact .nil
  | @snoc commits t t' i id hrun hexec ih =>
      have hledger := serialRun_runLedger hrun
      have hrefines := runLedger_refines huuid hdigests
        (events ++ commits.map (commitEvent calls)) (.posting (calls i).1) (calls i).2
      rw [← hledger] at hrefines
      obtain ⟨command, hcommand, hstep⟩ := hrefines.accepted id t' hexec
      have hlast : committed crates calls [(i, id)] = [(command, id)] := by
        rw [committed, List.flatMap_singleton, show (calls i).1.command crates = _ from hcommand]
        rfl
      rw [committed, List.flatMap_append]
      refine Serial.SerialRun.trans ih ?_
      show Book.History _ (committed crates calls [(i, id)]) _
      rw [hlast]
      exact Serial.SerialRun.snoc .nil hstep

/-- A committed call has a command: its request could be made. -/
theorem command_of_serialRun (huuid : crates.UuidText) (hdigests : crates.Digests)
    {events : List Event} {commits : List (ι × Uuid)}
    (h : Serial.SerialRun (execCall crates calls) (runLedger crates events) commits t) {i : ι}
    {id : Uuid} (hmem : (i, id) ∈ commits) :
    ∃ command, (calls i).1.command crates = some command := by
  induction h with
  | nil => exact absurd hmem List.not_mem_nil
  | @snoc commits t t' j id' hrun hexec ih =>
      rcases List.mem_append.mp hmem with hold | hnew
      · exact ih hold
      · obtain ⟨rfl, rfl⟩ := Prod.mk.inj (List.mem_singleton.mp hnew)
        have hrefines := runLedger_refines huuid hdigests
          (events ++ commits.map (commitEvent calls)) (.posting (calls i).1) (calls i).2
        rw [← serialRun_runLedger hrun] at hrefines
        obtain ⟨command, hcommand, -⟩ := hrefines.accepted id t' hexec
        exact ⟨command, hcommand⟩

variable (calls) [Fintype ι] [DecidableEq ι]

/-- **Linearisability**: whatever sessions do at once, in any interleaving of
their statements, the committed calls are a history of the book in the order
of their commits.  Those about the same key or the same original, now or
before, have returned the same identifier. -/
theorem concurrentCallsLinearised (huuid : crates.UuidText) (hdigests : crates.Digests)
    (events : List Event) (schedule : List (ι × Serial.Action)) :
    Linearised crates calls events
      (runConcurrently crates calls (runLedger crates events) schedule) := by
  have hinv := Serial.runSchedule_inv (concurrentCalls_replayable crates calls)
    (runLedger crates events) schedule
  have hhistory := Serial.SerialRun.trans (runLedger_history huuid hdigests events)
    (serialRun_history huuid hdigests hinv.serial)
  constructor
  · intro i id hcommitted
    have hmem := (hinv.outcome i id).mp hcommitted
    obtain ⟨command, hcommand⟩ := command_of_serialRun huuid hdigests hinv.serial hmem
    refine ⟨command, hcommand, List.mem_flatMap.mpr ⟨(i, id), hmem, ?_⟩⟩
    rw [hcommand]
    exact List.mem_singleton_self _
  · exact hhistory
  · intro command id command' id' hmem hmem' hrepeatable hrepeatable' hsame
    exact Book.History.same_answer hhistory emptyBook_lawful hmem hmem' hrepeatable hrepeatable'
      hsame

end

/-- Two sessions that race for one key. -/
theorem concurrentCallsLinearised_racing :
    Linearised .concrete racingCalls fixtureAccounts (runConcurrently .concrete racingCalls
      (runLedger .concrete fixtureAccounts) ((List.range 60).map turns)) :=
  concurrentCallsLinearised racingCalls Crates.concrete_uuidText Crates.concrete_digests
    fixtureAccounts _

end PgLedger
