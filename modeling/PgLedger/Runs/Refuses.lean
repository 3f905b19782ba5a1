import PgLedger.Idempotency.ExactlyOnce
import PgLedger.Reversal.Accepts
import PgLedger.Transaction.Refuses

/-!
# PgLedger.Runs.Refuses

Refused calls.  `Call.Refused` lists all reasons for which a call can fail in
a ledger, each with its error.  In every ledger that can be reached a call
fails exactly when there is such a reason, and its error is one of those.
-/

namespace PgLedger

variable {crates : Crates} {env : Env} {t t' : Tables} {b b' : Backend}

/-! ## reasons -/

section
variable (crates : Crates)

/-- The call cannot be made for a reason that the error gives.  The list is that
of calls whose arguments are given and decoded, as `Call` has them. -/
inductive Call.Refused (session : Session) (t : Tables) : Call → PgError → Prop where
  | nullPosting {elements : List (Option LedgerPosting)} {options : PostOptions}
      (h : none ∈ elements) :
      Refused session t (.posting (.post elements options))
        (failNull "ledger postings cannot contain NULL")
  | sameAccount {account : Uuid} {amount : LedgerAmount} {options : PostOptions} :
      Refused session t (.posting (.transfer account account amount options))
        (failParameter "transfer accounts must be distinct")
  | notPositive {fromAccount toAccount : Uuid} {amount : LedgerAmount} {options : PostOptions}
      (h : amount.units ≤ 0) :
      Refused session t (.posting (.transfer fromAccount toAccount amount options))
        (failParameter "transfer amount must be positive")
  | unknownOriginal {original : Uuid} {options : PostOptions} (h : original ∉ t.transactionIds) :
      Refused session t (.posting (.reverse original options))
        (failForeignKey ("ledger transaction " ++ String.ofList (crates.pgUuidToString original) ++
          " does not exist"))
  | request {call : PostingCall} {request : PostRequest} {e : PgError}
      (hsends : call.Sends crates t request) (h : request.Refused crates session.env 0 t e) :
      Refused session t (.posting call) e
  | badName {name : Str} {asset : LedgerAsset} {balancePolicy : BalancePolicy}
      {metadata : Option Json} (h : ¬ (btrim name = name ∧ name ≠ [])) :
      Refused session t (.createAccount name asset balancePolicy metadata)
        (checkViolation "ledger_accounts" "ledger_accounts_name_check")
  | takenName {name : Str} {asset : LedgerAsset} {balancePolicy : BalancePolicy}
      {metadata : Option Json} (h : name ∈ t.accountNames) :
      Refused session t (.createAccount name asset balancePolicy metadata)
        (uniqueViolation "ledger_accounts_name_key")
  | accountId {name : Str} {asset : LedgerAsset} {balancePolicy : BalancePolicy}
      {metadata : Option Json} (h : session.env.uuidv7 0 ∈ t.accountIds) :
      Refused session t (.createAccount name asset balancePolicy metadata)
        (uniqueViolation "ledger_accounts_pkey")

/-- The error is about the call: not an internal one, not one that asks to try
again, and not the guard of the balances. -/
def PgError.AboutCall (e : PgError) : Prop :=
  e.state ≠ .internalError ∧ e.state ≠ .serializationFailure ∧
    e.state ≠ .objectNotInPrerequisiteState

/-- A call fails exactly when there is a reason, with the error of one. -/
structure Call.Explained (call : Call) (session : Session) (t : Tables) : Prop where
  reason : ∀ e, call.exec crates session t = .error e → call.Refused crates session t e
  obstacle : ∀ e, call.Refused crates session t e → ∃ e', call.exec crates session t = .error e'
  aboutCall : ∀ e, call.exec crates session t = .error e → e.AboutCall

end

/-- Every reason to refuse a request is about the call. -/
theorem PostRequest.Refused.aboutCall {drawn : Nat} {request : PostRequest} {e : PgError}
    (h : request.Refused crates env drawn t e) : e.AboutCall := by
  cases h <;> simp [PgError.AboutCall, failParameter, failCheck, failForeignKey, uniqueViolation,
    checkViolation]

/-- Every reason to refuse a call is about the call. -/
theorem Call.Refused.aboutCall {call : Call} {session : Session} {e : PgError}
    (h : call.Refused crates session t e) : e.AboutCall := by
  cases h with
  | request _ h => exact h.aboutCall
  | _ => simp [PgError.AboutCall, failNull, failParameter, failForeignKey, uniqueViolation,
      checkViolation]

/-! ## posting calls -/

/-- The check of the array fails only for a `NULL` in it. -/
theorem requirePostings_eq_error {elements : List (Option LedgerPosting)} {e : PgError}
    (h : requirePostings elements = .error e) :
    none ∈ elements ∧ e = failNull "ledger postings cannot contain NULL" := by
  obtain ⟨element, hmem, hfailed⟩ := exists_of_mapM_eq_error h
  cases element with
  | none => exact ⟨hmem, (Except.error.inj hfailed).symm⟩
  | some posting => contradiction

theorem mem_requirePostings {elements : List (Option LedgerPosting)} {postings : List LedgerPosting}
    (h : requirePostings elements = .ok postings) : none ∉ elements := by
  rw [requirePostings] at h
  induction elements generalizing postings with
  | nil => exact List.not_mem_nil
  | cons element elements ih =>
      rw [List.mapM_cons] at h
      obtain ⟨posting, hposting, h⟩ := bind_eq_ok.mp h
      obtain ⟨rest, hrest, -⟩ := bind_eq_ok.mp h
      cases element with
      | none => contradiction
      | some posting => simpa using ih hrest

/-- The link of a request that a call sends is open. -/
theorem PostingCall.Sends.linkOpen {call : PostingCall} {request : PostRequest}
    (h : call.Sends crates t request) : t.LinkOpen request := by
  intro original horiginal
  cases h with
  | post h => contradiction
  | transfer => contradiction
  | reverse hmem hnone =>
      obtain rfl := Option.some.inj horiginal
      refine ⟨hmem, fun hreversed => ?_⟩
      obtain ⟨row, hrow, hlink⟩ := List.mem_filterMap.mp hreversed
      exact Tables.reversal?_eq_none.mp hnone row hrow hlink

/-- A posting call that fails has a reason. -/
theorem PostingCall.refused (hdigests : crates.Digests) (hconstrained : t.Constrained)
    (hjournaled : t.Journaled) {call : PostingCall} {session : Session} {e : PgError}
    (h : (call.program crates).run session.env t session.backend = .error e) :
    (Call.posting call).Refused crates session t e := by
  have hsent {request : PostRequest} (hsends : call.Sends crates t request)
      (hpost : (PgLedger.post crates request).run session.env t session.backend = .error e) :
      (Call.posting call).Refused crates session t e :=
    .request hsends (post_refused hdigests hconstrained hjournaled hsends.linkOpen hpost)
  cases call with
  | post elements options =>
      rw [program, ledgerPost] at h
      rcases Spi.run_bind_eq_error.mp h with hfailed | ⟨postings, t₁, b₁, hrequire, hpost⟩
      · obtain ⟨hnull, rfl⟩ := requirePostings_eq_error (Spi.run_ofExcept_eq_error.mp hfailed)
        exact .nullPosting hnull
      · obtain ⟨hpostings, rfl, rfl⟩ := Spi.run_ofExcept_eq_ok.mp hrequire
        exact hsent (.post hpostings) hpost
  | transfer fromAccount toAccount amount options =>
      simp only [program, ledgerTransfer] at h
      split at h
      · next hsame =>
        obtain rfl := hsame
        obtain rfl := Except.error.inj h
        exact .sameAccount
      · split at h
        · next hunits =>
          obtain rfl := Except.error.inj h
          exact .notPositive hunits
        · exact hsent .transfer h
  | reverse original options =>
      by_cases hmem : original ∈ t.transactionIds
      · cases hfound : t.reversal? original with
        | none =>
            rw [program, ledgerReverse_run_none hmem hfound] at h
            exact hsent (.reverse hmem hfound) h
        | some row =>
            rw [program, ledgerReverse_run_existing hmem hfound] at h
            contradiction
      · rw [program, ledgerReverse, Spi.run_bind, findExisting_run, if_neg hmem] at h
        obtain rfl := Except.error.inj h
        exact .unknownOriginal hmem

/-- A posting call that succeeds sends no request that has a reason to fail. -/
theorem PostingCall.not_refused (hconstrained : t.Constrained) (hjournaled : t.Journaled)
    {call : PostingCall} {session : Session} {id : Uuid} {e : PgError}
    (h : (call.program crates).run session.env t session.backend = .ok (id, t', b')) :
    ¬ (Call.posting call).Refused crates session t e := by
  intro hrefused
  cases hrefused with
  | nullPosting hnull =>
      rw [program, ledgerPost] at h
      obtain ⟨postings, t₁, b₁, hrequire, -⟩ := Spi.run_bind_eq_ok.mp h
      obtain ⟨hpostings, -, -⟩ := Spi.run_ofExcept_eq_ok.mp hrequire
      exact mem_requirePostings hpostings hnull
  | sameAccount => simp [program, ledgerTransfer] at h
  | notPositive hunits =>
      simp only [program, ledgerTransfer, if_pos hunits] at h
      split at h <;> contradiction
  | unknownOriginal hunknown =>
      obtain ⟨hmem, -⟩ := ledgerReverse_run_ok h
      exact hunknown hmem
  | @request _ request _ hsends hreason =>
      rcases call.run_ok h with ⟨original, options, row, rfl, hfound, -, -⟩ |
        ⟨request', hsends', hpost⟩
      · cases hsends with
        | reverse _ hnone =>
            rw [hnone] at hfound
            contradiction
      · obtain rfl := hsends.unique hsends'
        exact post_not_refused hconstrained hjournaled hpost hreason

/-! ## accounts -/

/-- An insert of an account fails for its name or its identifier. -/
theorem Stmt.evalInsertAccount_eq_error {v : AccountValues} {e : PgError}
    (hbalance : v.balance.asset = v.asset) (h : evalInsertAccount env t b v = .error e) :
    (¬ (btrim v.name = v.name ∧ v.name ≠ []) ∧
        e = checkViolation "ledger_accounts" "ledger_accounts_name_check") ∨
      (env.uuidv7 b.uuidsDrawn ∈ t.accountIds ∧ e = uniqueViolation "ledger_accounts_pkey") ∨
      (v.name ∈ t.accountNames ∧ e = uniqueViolation "ledger_accounts_name_key") := by
  simp only [evalInsertAccount, AccountValues.check, dif_pos hbalance] at h
  split at h
  · rw [ok_bind] at h
    split at h
    · next hid => exact .inr (.inl ⟨hid, (Except.error.inj h).symm⟩)
    · split at h
      · next hname =>
        obtain ⟨name, hvalue, hmem⟩ := Tables.taken_eq_true.mp hname
        obtain rfl := Option.some.inj hvalue
        exact .inr (.inr ⟨hmem, (Except.error.inj h).symm⟩)
      · contradiction
  · next hname => exact .inl ⟨hname, (Except.error.inj h).symm⟩

/-- An account that is not created has a reason. -/
theorem ledgerCreateAccount_refused {name : Str} {asset : LedgerAsset}
    {balancePolicy : BalancePolicy} {metadata : Option Json} {session : Session} {e : PgError}
    (h : (ledgerCreateAccount name asset balancePolicy metadata).run session.env t session.backend =
      .error e) :
    (Call.createAccount name asset balancePolicy metadata).Refused crates session t e := by
  rcases Stmt.evalInsertAccount_eq_error rfl (Spi.run_send_eq_error.mp h) with
    ⟨hname, rfl⟩ | ⟨hid, rfl⟩ | ⟨hname, rfl⟩
  · exact .badName hname
  · exact .accountId hid
  · exact .takenName hname

/-- An account that is inserted gets the identifier drawn for it. -/
theorem Stmt.evalInsertAccount_fresh {v : AccountValues} {effect : Effect Uuid}
    (h : evalInsertAccount env t b v = .ok effect) : env.uuidv7 b.uuidsDrawn ∉ t.accountIds := by
  intro htaken
  simp only [evalInsertAccount, AccountValues.check] at h
  split at h
  · split at h
    · rw [ok_bind, if_pos htaken] at h
      contradiction
    · contradiction
  · contradiction

/-- An account that is created has none. -/
theorem ledgerCreateAccount_not_refused {name : Str} {asset : LedgerAsset}
    {balancePolicy : BalancePolicy} {metadata : Option Json} {session : Session} {id : Uuid}
    {e : PgError}
    (h : (ledgerCreateAccount name asset balancePolicy metadata).run session.env t session.backend =
      .ok (id, t', b')) :
    ¬ (Call.createAccount name asset balancePolicy metadata).Refused crates session t e := by
  obtain ⟨ws, heval, -⟩ := Spi.run_send_eq_ok.mp h
  obtain ⟨row, hvalues, -, hid, hname, -⟩ := Stmt.evalInsertAccount_eq_ok heval
  have hsame : row.name = name := congrArg AccountValues.name hvalues
  intro hrefused
  cases hrefused with
  | badName hbad => exact hbad (hsame ▸ row.nameCheck)
  | takenName htaken => exact hname (hsame ▸ htaken)
  | accountId htaken => exact Stmt.evalInsertAccount_fresh heval htaken

/-! ## calls -/

theorem Call.exec_eq_error {call : Call} {session : Session} {e : PgError} :
    call.exec crates session t = .error e ↔
      (call.program crates).run session.env t session.backend = .error e := by
  unfold exec
  cases (call.program crates).run session.env t session.backend with
  | error e' => simp [Except.map]
  | ok result => simp [Except.map]

/-- A call that fails has a reason. -/
theorem Call.refused (hdigests : crates.Digests) (hconstrained : t.Constrained)
    (hjournaled : t.Journaled) {call : Call} {session : Session} {e : PgError}
    (h : call.exec crates session t = .error e) : call.Refused crates session t e := by
  cases call with
  | createAccount name asset balancePolicy metadata =>
      exact ledgerCreateAccount_refused (exec_eq_error.mp h)
  | posting call => exact call.refused hdigests hconstrained hjournaled (exec_eq_error.mp h)

/-- **Refusals**: in every ledger that can be reached a call fails exactly when
there is a reason for it, with the error of such a reason. -/
theorem refusalsExplained (hdigests : crates.Digests) (events : List Event) (call : Call)
    (session : Session) : call.Explained crates session (runLedger crates events) := by
  have hsound := runLedger_sound crates events
  refine ⟨fun e h => ?_, fun e hrefused => ?_, fun e h => ?_⟩
  · exact call.refused hdigests hsound.constrained hsound.journaled h
  · cases hexec : call.exec crates session (runLedger crates events) with
    | error e' => exact ⟨e', rfl⟩
    | ok result =>
        obtain ⟨b', hrun⟩ := Call.exec_eq_ok.mp hexec
        cases call with
        | createAccount name asset balancePolicy metadata =>
            exact absurd hrefused (ledgerCreateAccount_not_refused hrun)
        | posting call =>
            exact absurd hrefused (call.not_refused hsound.constrained hsound.journaled hrun)
  · exact (call.refused hdigests hsound.constrained hsound.journaled h).aboutCall

theorem refusalsExplained_fixture :
    (Call.posting (.transfer 0x102#128 0x101#128 ⟨usd, 1⟩ ⟨none, none, none, none⟩)).Explained
      .concrete (fixtureSession 0x501) (runLedger .concrete fixtureRun) :=
  refusalsExplained Crates.concrete_digests fixtureRun _ _

end PgLedger
