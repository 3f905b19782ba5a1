import PgLedger.Runs.Recorded

/-!
# PgLedger.Reversal.Exact

Reversals over whole runs.  The delicate case is a reversal whose key is
already taken: the engine then answers with the transaction that holds the
key if the fingerprints agree.  The link is part of the fingerprint, so that
transaction would reverse the same original, and the reversal would have been
found before.  A reversal is therefore never answered with anything else.
-/

namespace PgLedger

variable {crates : Crates} {env : Env} {t t' : Tables} {b b' : Backend}

/-- Every reversal has an original, no original has two, links do not lead
back, and a reversal moves back exactly what the original moved. -/
structure Tables.ReversalsLinked (t : Tables) : Prop where
  exact : t.ReversalsExact
  original : ∀ r ∈ t.transactions, ∀ original, r.reversesTransactionId = some original →
    ∃ o ∈ t.transactions, o.id = original
  unique : ∀ r ∈ t.transactions, ∀ s ∈ t.transactions, ∀ original,
    r.reversesTransactionId = some original → s.reversesTransactionId = some original → r = s
  acyclic : t.Acyclic

/-- What a reversal of `original` that returned `id` has done: `id` reverses
`original`; if that was so before, nothing has changed; otherwise one
transaction was added and the two cancel out on every account. -/
structure ReversedTo (t t' : Tables) (original id : Uuid) : Prop where
  linked : ∃ row ∈ t'.transactions, row.id = id ∧ row.reversesTransactionId = some original
  existing : ∀ row ∈ t.transactions, row.reversesTransactionId = some original →
    id = row.id ∧ t' = t
  added : (∀ row ∈ t.transactions, row.reversesTransactionId ≠ some original) →
    ∃ row, t'.transactions = t.transactions ++ [row] ∧ row.id = id ∧
      ∀ account, movedUnits (t'.moves original) account + movedUnits (t'.moves id) account = 0

/-- Whatever its options, a reversal that succeeds has done just that. -/
def Tables.ReversesCorrectly (crates : Crates) (t : Tables) : Prop :=
  ∀ (original id : Uuid) (options : PostOptions) (session : Session) (t' : Tables),
    (Call.posting (.reverse original options)).exec crates session t = .ok (id, t') →
      ReversedTo t t' original id

theorem Tables.Sound.reversalsLinked (h : t.Sound) : t.ReversalsLinked where
  exact := h.reversalsExact
  original := by
    intro r hr original horiginal
    have hmem := h.constrained.mem_of_reverses ⟨r, hr, rfl, horiginal⟩
    exact List.mem_map.mp hmem
  unique := by
    intro r hr s hs original hoforiginal hsoriginal
    exact h.constrained.eq_of_link hr hs hoforiginal hsoriginal
  acyclic := h.acyclic

/-- A transaction with the fingerprint of a request carries its link. -/
theorem Tables.RecordedRow.link (huuid : crates.UuidText) (hdigests : crates.Digests)
    {row : TransactionRow} (h : t.RecordedRow crates row) {request : PostRequest}
    (hrequest : IsFingerprint crates request row.payloadHash) :
    row.reversesTransactionId = request.reversesTransactionId := by
  obtain ⟨eventAt, -, hstored⟩ := h
  have hpayload := (isFingerprint_iff hdigests hstored).mp hrequest
  obtain ⟨hother, -⟩ := (payload_eq_iff huuid).mp hpayload
  exact hother.reversesTransactionId

/-- Negation turns the sum of a class of postings around, if the class does
not look at the sign. -/
theorem sum_filter_negate {P : LedgerPosting → Bool} (hP : ∀ p, P p.negate = P p)
    (postings : List LedgerPosting) :
    (((postings.map (·.negate)).filter P).map (·.amount.units)).sum =
      -((postings.filter P).map (·.amount.units)).sum := by
  induction postings with
  | nil => rfl
  | cons posting postings ih =>
      rw [List.map_cons]
      by_cases h : P posting = true
      · rw [List.filter_cons_of_pos ((hP posting).trans h), List.filter_cons_of_pos h,
          List.map_cons, List.map_cons, List.sum_cons, List.sum_cons, ih,
          LedgerPosting.amount_negate, LedgerAmount.units_negate]
        omega
      · rw [List.filter_cons_of_neg (by rwa [hP posting]), List.filter_cons_of_neg h, ih]

theorem movedUnits_map_negate (postings : List LedgerPosting) (account : Uuid) :
    movedUnits (postings.map (·.negate)) account = -movedUnits postings account :=
  sum_filter_negate (fun _ => rfl) postings

/-- Postings and their negation, in any order, cancel out on every account. -/
theorem movedUnits_negation {original reversed : List LedgerPosting}
    (h : reversed.Perm (original.map (·.negate))) (account : Uuid) :
    movedUnits original account + movedUnits reversed account = 0 := by
  have hreversed : movedUnits reversed account = movedUnits (original.map (·.negate)) account :=
    ((h.filter _).map _).sum_eq
  rw [hreversed, movedUnits_map_negate]
  omega

/-- A reversal request that goes through the engine is never answered by a
transaction that is there already. -/
theorem reversalRequest_created (huuid : crates.UuidText) (hdigests : crates.Digests)
    (hsound : t.Sound) (hrecorded : t.Recorded crates) {original id : Uuid} {options : PostOptions}
    (hnone : t.reversal? original = none)
    (h : (post crates (reversalRequest crates original options
      (t.reversalPostings original))).run env t b = .ok (id, t', b')) :
    ∃ hashes row, id = row.id ∧ Created crates t t'
      (reversalRequest crates original options (t.reversalPostings original)) hashes row := by
  obtain ⟨hashes, row, hhashes, hid, hcreated | hreplayed⟩ := post_run_ok hsound.constrained h
  · exact ⟨hashes, row, hid, hcreated⟩
  · obtain ⟨key, -, hholder⟩ := hreplayed.key
    obtain ⟨hrow, -⟩ := Tables.holder?_eq_some hholder
    have hlink := (hrecorded row hrow).link huuid hdigests ⟨hashes, hhashes, hreplayed.accepts⟩
    exact absurd hlink (Tables.reversal?_eq_none.mp hnone row hrow)

/-- A transaction created for a reversal request has reversed the original. -/
theorem Created.reversedTo {original : Uuid} {options : PostOptions} {hashes : PayloadHashes}
    {row : TransactionRow} (h : Created crates t t'
      (reversalRequest crates original options (t.reversalPostings original)) hashes row)
    (hconstrained : t.Constrained) (hmem : original ∈ t.transactionIds)
    (hnone : t.reversal? original = none) : ReversedTo t t' original row.id where
  linked := by
    refine ⟨row, ?_, rfl, h.link⟩
    rw [h.transactions]
    exact List.mem_append_right _ (List.mem_singleton_self row)
  existing s hs hslink := absurd hslink (Tables.reversal?_eq_none.mp hnone s hs)
  added _ := by
    have hne : original ≠ row.id := by
      rintro rfl
      exact h.takes.id hmem
    refine ⟨row, h.transactions, rfl, fun account => ?_⟩
    rw [h.moves_old hne, h.moves_new hconstrained]
    exact movedUnits_negation (t.reversalPostings_perm original) account

/-- Where every row is what its call recorded, reversals do what they should. -/
theorem Tables.Sound.reversesCorrectly (huuid : crates.UuidText) (hdigests : crates.Digests)
    (hsound : t.Sound) (hrecorded : t.Recorded crates) : t.ReversesCorrectly crates := by
  intro original id options session t' hexec
  obtain ⟨b', hrun⟩ := Call.exec_eq_ok.mp hexec
  obtain ⟨hmem, hcases⟩ := ledgerReverse_run_ok hrun
  rcases hcases with ⟨row, hrow, rfl, rfl⟩ | ⟨hnone, hpost⟩
  · obtain ⟨hin, hlink⟩ := Tables.reversal?_eq_some hrow
    refine ⟨⟨row, hin, rfl, hlink⟩, fun s hs hslink => ⟨?_, rfl⟩,
      fun hno => absurd hlink (hno row hin)⟩
    rw [hsound.reversalsLinked.unique row hin s hs original hlink hslink]
  · obtain ⟨hashes, row, rfl, hcreated⟩ :=
      reversalRequest_created huuid hdigests hsound hrecorded hnone hpost
    exact hcreated.reversedTo hsound.constrained hmem hnone

/-- **Reversals over runs**: in every ledger that can be reached, reversals
are exact, unique and without circles, and every reversal that succeeds
returns a transaction that reverses its original. -/
theorem reversals_exact (huuid : crates.UuidText) (hdigests : crates.Digests)
    (events : List Event) :
    (runLedger crates events).ReversalsLinked ∧
      (runLedger crates events).ReversesCorrectly crates := by
  have hsound := runLedger_sound crates events
  constructor
  · exact hsound.reversalsLinked
  · exact hsound.reversesCorrectly huuid hdigests (runLedger_recorded hdigests events)

theorem reversals_exact_fixture : (runLedger .concrete fixtureRun).ReversalsLinked ∧
    (runLedger .concrete fixtureRun).ReversesCorrectly .concrete :=
  reversals_exact Crates.concrete_uuidText Crates.concrete_digests fixtureRun

end PgLedger
