import PgLedger.Idempotency.Injective
import PgLedger.Runs.Sound

/-!
# PgLedger.Runs.Recorded

Stored fingerprints.  The hash of every transaction is the fingerprint, in
one of the two formats, of the request that its row and its entries still
tell: nothing but the event time it was given has to be guessed.
-/

namespace PgLedger

variable {crates : Crates} {env : Env} {t t' : Tables} {b b' : Backend}

/-- The request behind a transaction, as the tables tell it. -/
def Tables.storedRequest (t : Tables) (row : TransactionRow) (eventAt : Option Timestamp) :
    PostRequest where
  postings := t.moves row.id
  reference := row.reference
  idempotencyKey := row.idempotencyKey
  eventAt := eventAt
  metadata := row.metadata
  reversesTransactionId := row.reversesTransactionId

/-- The stored hash is a fingerprint of the request behind the transaction,
whose event time was left out or is the stored one. -/
def Tables.RecordedRow (crates : Crates) (t : Tables) (row : TransactionRow) : Prop :=
  ∃ eventAt, (eventAt = none ∨ eventAt = some row.eventAt) ∧
    IsFingerprint crates (t.storedRequest row eventAt) row.payloadHash

def Tables.Recorded (crates : Crates) (t : Tables) : Prop :=
  ∀ row ∈ t.transactions, t.RecordedRow crates row

/-- A created transaction records its request. -/
theorem Created.recorded {request : PostRequest} {hashes : PayloadHashes} {row : TransactionRow}
    (h : Created crates t t' request hashes row)
    (hhashes : payloadHashes crates request = .ok hashes)
    (hconstrained : t.Constrained) (ht : t.Recorded crates) : t'.Recorded crates := by
  intro r hr
  rw [h.transactions, List.mem_append, List.mem_singleton] at hr
  rcases hr with hold | rfl
  · have hne : r.id ≠ row.id := by
      intro heq
      exact h.takes.id (heq ▸ List.mem_map_of_mem hold)
    obtain ⟨eventAt, htime, hfingerprint⟩ := ht r hold
    refine ⟨eventAt, htime, ?_⟩
    rw [Tables.storedRequest, h.moves_old hne]
    exact hfingerprint
  · obtain ⟨createdAt, hvalues⟩ := h.values
    refine ⟨request.eventAt, ?_, hashes, ?_, ?_⟩
    · rw [hvalues]
      cases htime : request.eventAt with
      | none => exact .inl rfl
      | some time =>
          rw [PostRequest.values, htime]
          exact .inr rfl
    · rw [Tables.storedRequest, h.moves_new hconstrained, hvalues]
      exact hhashes
    · rw [hvalues]
      exact .inl rfl

/-- A call that posts records its request. -/
theorem PostingCall.recorded {call : PostingCall} {id : Uuid}
    (h : (call.program crates).run env t b = .ok (id, t', b')) (hconstrained : t.Constrained)
    (ht : t.Recorded crates) : t'.Recorded crates := by
  rcases call.run_cases hconstrained h with rfl | ⟨request, hashes, row, -, hhashes, hcreated⟩
  · exact ht
  · exact hcreated.recorded hhashes hconstrained ht

/-- A fingerprint of a request stays one in the older format. -/
theorem TransactionRow.unversion_recorded (hdigests : crates.Digests) {row : TransactionRow}
    {stored : PostRequest} (h : IsFingerprint crates stored row.payloadHash) (id : Uuid)
    (request : PostRequest) :
    IsFingerprint crates stored (row.unversion crates id request).payloadHash := by
  unfold unversion
  split
  · next hashes hhashes =>
    split
    · next hsame =>
      have hcurrent : IsFingerprint crates request row.payloadHash :=
        ⟨hashes, hhashes, .inl hsame.2⟩
      have hpayload := (isFingerprint_iff hdigests h).mp hcurrent
      have hlegacy : IsFingerprint crates request hashes.legacy := ⟨hashes, hhashes, .inr rfl⟩
      exact (isFingerprint_iff hdigests hlegacy).mpr hpayload.symm
    · exact h
  · exact h

/-- The older format of a fingerprint answers what the newer one answers. -/
theorem TransactionRow.isFingerprint_unversion (hdigests : crates.Digests) (row : TransactionRow)
    (id : Uuid) (request : PostRequest) {other : PostRequest} :
    IsFingerprint crates other (row.unversion crates id request).payloadHash ↔
      IsFingerprint crates other row.payloadHash := by
  unfold unversion
  split
  · next hashes hhashes =>
    split
    · next hsame =>
      have hcurrent : IsFingerprint crates request row.payloadHash :=
        ⟨hashes, hhashes, .inl hsame.2⟩
      have hlegacy : IsFingerprint crates request hashes.legacy := ⟨hashes, hhashes, .inr rfl⟩
      rw [isFingerprint_iff hdigests hcurrent, isFingerprint_iff hdigests hlegacy]
    · rfl
  · rfl

/-- Every event keeps the requests recorded, since both formats do. -/
theorem Event.recorded (hdigests : crates.Digests) (event : Event) (hsound : t.Sound)
    (ht : t.Recorded crates) : (event.after crates t).Recorded crates := by
  cases event with
  | call made session =>
      rcases made.after_cases crates session t with hsame | ⟨id, hexec⟩
      · rw [after, hsame]
        exact ht
      · obtain ⟨b', hrun⟩ := Call.exec_eq_ok.mp hexec
        cases made with
        | posting call => exact call.recorded hrun hsound.constrained ht
        | createAccount name asset balancePolicy metadata =>
            obtain ⟨row, -, -, -, heq⟩ := ledgerCreateAccount_run_ok hrun
            rw [after, heq]
            exact ht
  | unversion id request =>
      intro row hrow
      obtain ⟨old, hold, rfl⟩ := List.mem_map.mp hrow
      obtain ⟨eventAt, htime, hfingerprint⟩ := ht old hold
      have hkept := TransactionRow.unversion_recorded hdigests hfingerprint id request
      obtain ⟨hash, heq⟩ := old.unversion_eq crates id request
      rw [heq] at hkept ⊢
      exact ⟨eventAt, htime, hkept⟩

/-- **Fingerprints over runs**: every stored hash is a fingerprint of the
request behind its transaction. -/
theorem runLedger_recorded (hdigests : crates.Digests) (events : List Event) :
    (runLedger crates events).Recorded crates := by
  have hboth : (runLedger crates events).Sound ∧ (runLedger crates events).Recorded crates :=
    runLedger_induction (P := fun t => t.Sound ∧ t.Recorded crates)
      ⟨Tables.sound_empty, fun _ h => absurd h List.not_mem_nil⟩
      (fun _ event ht => ⟨event.sound ht.1, event.recorded hdigests ht.1 ht.2⟩) events
  exact hboth.2

/-! ## the recorded fixture -/

def fixtureOptions : PostOptions where
  reference := some "legacy-fixture".toList
  idempotencyKey := some "legacy-fixture:1".toList
  eventAt := some 631152000000000
  metadata := some (.object [("fixture".toList, .string "legacy-v0".toList)])

/-- A session at the time of the fixture that counts its identifiers up. -/
def fixtureSession (id : Nat) : Session :=
  ⟨⟨fun _ => 631152001000000, fun drawn => BitVec.ofNat 128 (id + drawn)⟩, none⟩

def fixtureTransfer : PostingCall := .transfer 0x101#128 0x102#128 ⟨usd, 2500⟩ fixtureOptions

/-- Two accounts, a transfer with an unversioned fingerprint, its replay, and
its reversal. -/
def fixtureRun : List Event :=
  [.call (.createAccount "fixture:legacy:source".toList usd .any none) (fixtureSession 0x101),
    .call (.createAccount "fixture:legacy:destination".toList usd .nonNegative none)
      (fixtureSession 0x102),
    .call (.posting fixtureTransfer) (fixtureSession 0x201),
    .unversion 0x201#128
      (fixtureOptions.request (transferPostings 0x101#128 0x102#128 ⟨usd, 2500⟩)),
    .call (.posting fixtureTransfer) (fixtureSession 0x301),
    .call (.posting (.reverse 0x201#128 ⟨none, none, none, none⟩)) (fixtureSession 0x401)]

end PgLedger
