import PgLedger.Transaction.Spec

/-!
# PgLedger.Transaction.Loop

The posting loop.  `PostStep` says what one turn does to the tables; from it
follow, turn by turn, that the accounts in memory stay the rows of the tables
and that every account stays the running total of its entries.
`postAll_run_ok` collects what a whole run of the loop leaves behind.
-/

namespace PgLedger

variable {env : Env} {t t' : Tables} {b b' : Backend}

/-! ## one turn -/

/-- One turn replaces the account row `row` by `row'` and adds the entry `e`. -/
structure PostStep (t : Tables) (transactionId : Uuid) (posting : LedgerPosting)
    (row row' : AccountRow) (e : EntryRow) : Prop where
  found : t.account? posting.accountId = some row
  asset : posting.amount.asset = row.asset
  sameId : row'.id = row.id
  sameAsset : row'.asset = row.asset
  samePolicy : row'.balancePolicy = row.balancePolicy
  balance : row'.balance = ⟨row.balance.asset, row.balance.units + posting.amount.units⟩
  version : row'.version.toInt = row.version.toInt + 1
  transaction : e.transactionId = transactionId
  posting : e.posting = posting
  accountVersion : e.accountVersion = row'.version
  previous : e.previousBalance = row.balance
  current : e.currentBalance = row'.balance

/-- The tables after one turn. -/
def Tables.posted (t : Tables) (row' : AccountRow) (e : EntryRow) : Tables :=
  (t.apply (.updateAccount row')).apply (.insertEntry e)

/-- A version that passes its check has not wrapped around. -/
theorem toInt_add_one {v : Int64} (hv : 0 ≤ v.toInt) (h : 0 ≤ (v + 1).toInt) :
    (v + 1).toInt = v.toInt + 1 := by
  have hle := v.toInt_le
  have hmax : Int64.maxValue.toInt = 2 ^ 63 - 1 := by decide
  rw [Int64.toInt_add] at h ⊢
  have hone : (1 : Int64).toInt = 1 := by decide
  rw [hone, Int.bmod_def] at h ⊢
  omega

/-- One turn to the last column: what else the account row keeps, the time
and the identifier of the entry, and what the session has used up. -/
structure PostLine (env : Env) (b b' : Backend) (t : Tables) (transactionId : Uuid)
    (createdAt : Timestamp) (posting : LedgerPosting) (row row' : AccountRow) (e : EntryRow) : Prop
    extends PostStep t transactionId posting row row' e where
  values : row'.toAccountValues = { row.toAccountValues with balance := row'.balance }
  sameCreatedAt : row'.createdAt = row.createdAt
  entryCreatedAt : e.createdAt = createdAt
  drawn : e.id = env.uuidv7 b.uuidsDrawn
  backend : b' = b.readClock.drawUuid

/-- What a turn that succeeds has done, given that the accounts in memory are
the rows of the tables. -/
theorem postOne_run_line {transactionId : Uuid} {createdAt : Timestamp}
    {accounts accounts' : AccountMap}
    {posting : LedgerPosting} (htracks : Tracks accounts t)
    (h : (postOne transactionId createdAt accounts posting).run env t b = .ok (accounts', t', b')) :
    ∃ row row' e, PostLine env b b' t transactionId createdAt posting row row' e ∧
      t' = t.posted row' e ∧
      accounts' = Assoc.modify accounts posting.accountId fun _ => row'.state := by
  simp only [postOne] at h
  cases haccount : accounts.lookup posting.accountId with
  | none =>
      simp only [haccount] at h
      contradiction
  | some account =>
      obtain ⟨row, hfound, rfl⟩ := htracks posting.accountId account haccount
      simp only [haccount] at h
      obtain ⟨current, t₁, b₁, hadd, hrest⟩ := Spi.run_bind_eq_ok.mp h
      obtain ⟨hcurrent, rfl, rfl⟩ := Spi.run_ofExcept_eq_ok.mp hadd
      obtain ⟨hasset, hsum⟩ := LedgerAmount.checkedAdd_eq_ok.mp (mapError_eq_ok.mp hcurrent)
      obtain ⟨_, t₂, b₂, hsend, hrest₂⟩ := Spi.run_bind_eq_ok.mp hrest
      obtain ⟨ws, hupdate, rfl⟩ := Spi.run_send_eq_ok.mp hsend
      obtain ⟨_, t₃, b₃, hsend₂, hdone⟩ := Spi.run_bind_eq_ok.mp hrest₂
      obtain ⟨ws', hinsert, rfl⟩ := Spi.run_send_eq_ok.mp hsend₂
      rcases Stmt.evalUpdateAccount_eq_ok hupdate with ⟨hnone, -⟩ | ⟨row₁, row', hrow, hrow', heff⟩
      · simp only [hfound] at hnone
        contradiction
      · obtain rfl : row = row₁ := Option.some.inj (hfound.symm.trans hrow)
        obtain ⟨hvalues, hid, hversion, hcreated, -⟩ := AccountRow.withBalance_eq_ok hrow'
        obtain ⟨e, hentry, hdrawn, -, heff'⟩ := Stmt.evalInsertEntry_eq_ok hinsert
        obtain rfl : ws = [.updateAccount row'] := congrArg Effect.writes heff
        obtain rfl : ws' = [.insertEntry e] := congrArg Effect.writes heff'
        obtain rfl : b₂ = b₁.readClock := congrArg Effect.backend heff
        obtain rfl : b₃ = b₁.readClock.drawUuid := congrArg Effect.backend heff'
        obtain ⟨rfl, rfl, rfl⟩ : _ = accounts' ∧ _ = t' ∧ _ = b' := by
          simpa using Except.ok.inj hdone
        have hbalance : row'.balance = current := by rw [hvalues]
        have hassets : row'.asset = row.asset := by rw [hvalues]
        have hpolicy : row'.balancePolicy = row.balancePolicy := by rw [hvalues]
        have hnonneg : 0 ≤ (row.version + 1).toInt := by
          have hcheck := row'.versionCheck
          rw [hversion] at hcheck
          exact hcheck
        refine ⟨row, row', e, ⟨⟨hfound, ?_, hid, hassets, hpolicy, ?_, ?_, ?_, ?_, ?_, ?_, ?_⟩, ?_,
          hcreated, ?_, hdrawn, rfl⟩, rfl, ?_⟩
        · rw [← row.balanceCheck]
          exact hasset.symm
        · rw [hbalance, hsum]
          rfl
        · rw [hversion]
          exact toInt_add_one row.versionCheck hnonneg
        · rw [hentry]
        · rw [EntryRow.posting, hentry]
        · rw [hentry, hversion]
        · rw [hentry]
          rfl
        · rw [hentry, hbalance]
        · rw [hbalance]
          exact hvalues
        · rw [hentry]
        · refine congrArg (fun state => Assoc.modify accounts posting.accountId fun _ => state) ?_
          have hstate : row'.state = ⟨row.asset, current, row.version + 1, row.balancePolicy⟩ := by
            rw [AccountRow.state, hbalance, hassets, hpolicy, hversion]
            rfl
          exact hstate.symm

theorem postOne_run_ok {transactionId : Uuid} {createdAt : Timestamp}
    {accounts accounts' : AccountMap}
    {posting : LedgerPosting} (htracks : Tracks accounts t)
    (h : (postOne transactionId createdAt accounts posting).run env t b = .ok (accounts', t', b')) :
    ∃ row row' e, PostStep t transactionId posting row row' e ∧ t' = t.posted row' e ∧
      accounts' = Assoc.modify accounts posting.accountId fun _ => row'.state := by
  obtain ⟨row, row', e, hline, htables, haccounts⟩ := postOne_run_line htracks h
  exact ⟨row, row', e, hline.toPostStep, htables, haccounts⟩

namespace PostStep

variable {transactionId : Uuid} {posting : LedgerPosting} {row row' : AccountRow} {e : EntryRow}

theorem id_row (h : PostStep t transactionId posting row row' e) : row.id = posting.accountId :=
  Tables.id_of_account? h.found

theorem accountId_entry (h : PostStep t transactionId posting row row' e) :
    e.accountId = row.id := by
  rw [h.id_row, ← h.posting]
  rfl

/-- Every other account keeps its row. -/
theorem account?_posted (h : PostStep t transactionId posting row row' e) (id : Uuid) :
    (t.posted row' e).account? id =
      if id = posting.accountId then some row' else t.account? id := by
  have hfind : (t.posted row' e).account? id =
      (t.account? id).map fun a => if a.id = row'.id then row' else a := by
    show (t.accounts.map fun a => if a.id = row'.id then row' else a).find? (·.id = id) = _
    rw [List.find?_map, Tables.account?]
    congr 2
    funext a
    by_cases ha : a.id = row'.id
    · simp [ha]
    · simp [ha]
  rw [hfind]
  by_cases hid : id = posting.accountId
  · rw [if_pos hid, hid, h.found, Option.map_some, if_pos h.sameId.symm]
  · rw [if_neg hid]
    cases hfound : t.account? id with
    | none => rfl
    | some a =>
        have hne : a.id ≠ row'.id := by
          rw [Tables.id_of_account? hfound, h.sameId, h.id_row]
          exact hid
        rw [Option.map_some, if_neg hne]

/-- The accounts in memory are still the rows of the tables. -/
theorem tracks {accounts : AccountMap} (h : PostStep t transactionId posting row row' e)
    (htracks : Tracks accounts t) :
    Tracks (Assoc.modify accounts posting.accountId fun _ => row'.state) (t.posted row' e) := by
  intro id account haccount
  rw [Assoc.lookup_modify] at haccount
  rw [h.account?_posted]
  by_cases hid : id = posting.accountId
  · rw [if_pos hid] at haccount
    obtain ⟨_, -, rfl⟩ := Option.map_eq_some_iff.mp haccount
    exact ⟨row', if_pos hid, rfl⟩
  · rw [if_neg hid] at haccount ⊢
    exact htracks id account haccount

/-- Every account is still the running total of its entries. -/
theorem journaled (h : PostStep t transactionId posting row row' e) (hconstrained : t.Constrained)
    (hjournaled : t.Journaled) : (t.posted row' e).Journaled := by
  intro a ha
  obtain ⟨old, hold, rfl⟩ := List.mem_map.mp ha
  have hentries (id : Uuid) : (t.posted row' e).accountEntries id =
      t.accountEntries id ++ if row.id = id then [e] else [] := by
    show (t.entries ++ [e]).filter _ = _
    rw [List.filter_append, Tables.accountEntries]
    by_cases hid : row.id = id
    · simp [h.accountId_entry, hid]
    · simp [h.accountId_entry, hid]
  by_cases hid : old.id = row'.id
  · have hrow : old = row := by
      have hfound := Tables.account?_of_mem hconstrained hold
      rw [hid, h.sameId, h.id_row, h.found] at hfound
      exact (Option.some.inj hfound).symm
    subst hrow
    obtain ⟨hjournal, hassets⟩ := hjournaled old hold
    rw [if_pos hid]
    constructor
    · have hmoved : e.movement.current = e.movement.previous + e.movement.amount := e.units_current
      have hversion : e.movement.version = old.version.toInt + 1 := by
        rw [EntryRow.movement, h.accountVersion, h.version]
      have hprevious : e.movement.previous = old.balance.units := by
        rw [EntryRow.movement, h.previous]
      have hgrown := hjournal.append hversion hprevious hmoved
      have hcurrent : e.movement.current = row'.balance.units := by
        rw [EntryRow.movement, h.current]
      rw [hentries, h.sameId, if_pos rfl, List.map_append, List.map_singleton, h.version,
        ← hcurrent]
      exact hgrown
    · intro e' he'
      rw [hentries, h.sameId, if_pos rfl, List.mem_append, List.mem_singleton] at he'
      rw [h.sameAsset]
      rcases he' with hold' | rfl
      · exact hassets e' hold'
      · have hamount : e'.amount = posting.amount := congrArg LedgerPosting.amount h.posting
        rw [hamount, h.asset]
  · have hne : row.id ≠ old.id := by
      rw [← h.sameId]
      exact Ne.symm hid
    obtain ⟨hjournal, hassets⟩ := hjournaled old hold
    rw [if_neg hid]
    constructor
    · rw [hentries, if_neg hne, List.append_nil]
      exact hjournal
    · intro e' he'
      rw [hentries, if_neg hne, List.append_nil] at he'
      exact hassets e' he'

end PostStep

/-! ## the whole loop -/

/-- What the loop leaves behind: one entry for every posting, the balances in
memory and in the tables moved by what was posted, everything else as it was. -/
structure PostRun (t t' : Tables) (transactionId : Uuid) (accounts accounts' : AccountMap)
    (postings : List LedgerPosting) : Prop where
  entries : ∃ es, t'.entries = t.entries ++ es ∧ es.map (·.posting) = postings ∧
    ∀ e ∈ es, e.transactionId = transactionId
  transactions : t'.transactions = t.transactions
  constrained : t'.Constrained
  journaled : t.Journaled → t'.Journaled
  tracks : Tracks accounts' t'
  balances : ∀ id, (accounts'.lookup id).map (fun a => (a.asset, a.policy, a.balance)) =
    (accounts.lookup id).map fun a =>
      (a.asset, a.policy, ⟨a.balance.asset, a.balance.units + movedUnits postings id⟩)
  others : ∀ id, accounts.lookup id = none → t'.account? id = t.account? id

theorem PostRun.nil {transactionId : Uuid} {accounts : AccountMap} (hconstrained : t.Constrained)
    (htracks : Tracks accounts t) : PostRun t t transactionId accounts accounts [] where
  entries := ⟨[], (List.append_nil _).symm, rfl, fun _ he => absurd he List.not_mem_nil⟩
  transactions := rfl
  constrained := hconstrained
  journaled := id
  tracks := htracks
  balances id := by simp [movedUnits]
  others _ _ := rfl

/-- A turn in front of a run of the loop. -/
theorem PostRun.cons {transactionId : Uuid} {accounts accounts' : AccountMap}
    {posting : LedgerPosting} {postings : List LedgerPosting} {row row' : AccountRow} {e : EntryRow}
    (hstep : PostStep t transactionId posting row row' e) (hconstrained : t.Constrained)
    (haccount : accounts.lookup posting.accountId = some row.state)
    (h : PostRun (t.posted row' e) t' transactionId
      (Assoc.modify accounts posting.accountId fun _ => row'.state) accounts' postings) :
    PostRun t t' transactionId accounts accounts' (posting :: postings) where
  entries := by
    obtain ⟨es, hes, hpostings, hids⟩ := h.entries
    refine ⟨e :: es, ?_, ?_, ?_⟩
    · rw [hes]
      exact List.append_assoc _ [e] es
    · rw [List.map_cons, hstep.posting, hpostings]
    · exact List.forall_mem_cons.mpr ⟨hstep.transaction, hids⟩
  transactions := h.transactions
  constrained := h.constrained
  journaled hjournaled := h.journaled (hstep.journaled hconstrained hjournaled)
  tracks := h.tracks
  balances id := by
    rw [h.balances, Assoc.lookup_modify, movedUnits_cons]
    by_cases hid : id = posting.accountId
    · subst hid
      have hstate :
          row'.state.balance = ⟨row.balance.asset, row.balance.units + posting.amount.units⟩ :=
        hstep.balance
      rw [if_pos rfl, haccount, if_pos rfl, Option.map_some, Option.map_some, Option.map_some,
        hstate]
      have hasset : row'.state.asset = row.state.asset := hstep.sameAsset
      have hpolicy : row'.state.policy = row.state.policy := hstep.samePolicy
      rw [hasset, hpolicy, Int.add_assoc]
      rfl
    · rw [if_neg hid, if_neg (Ne.symm hid), Int.zero_add]
  others id hnone := by
    have hid : id ≠ posting.accountId := by
      rintro rfl
      simp only [haccount] at hnone
      contradiction
    rw [h.others id (by rw [Assoc.lookup_modify_of_ne _ hid]; exact hnone), hstep.account?_posted,
      if_neg hid]

/-- **The posting loop**, by induction on the postings. -/
theorem postAll_run_ok {transactionId : Uuid} {createdAt : Timestamp}
    {postings : List LedgerPosting} {accounts accounts' : AccountMap} (hconstrained : t.Constrained)
    (htracks : Tracks accounts t)
    (h : (postAll transactionId createdAt accounts postings).run env t b =
      .ok (accounts', t', b')) :
    PostRun t t' transactionId accounts accounts' postings := by
  induction postings generalizing t b accounts with
  | nil =>
      obtain ⟨rfl, rfl, -⟩ : accounts = accounts' ∧ t = t' ∧ b = b' := by
        simpa [postAll] using h
      exact .nil hconstrained htracks
  | cons posting postings ih =>
      simp only [postAll] at h
      obtain ⟨accounts₁, t₁, b₁, hone, hrest⟩ := Spi.run_bind_eq_ok.mp h
      have hconstrained₁ := Spi.run_constrained hone hconstrained
      obtain ⟨row, row', e, hstep, rfl, rfl⟩ := postOne_run_ok htracks hone
      have haccount : accounts.lookup posting.accountId = some row.state := by
        cases hlookup : accounts.lookup posting.accountId with
        | none =>
            simp only [postOne, hlookup] at hone
            contradiction
        | some account =>
            obtain ⟨row₁, hfound, rfl⟩ := htracks _ _ hlookup
            rw [hstep.found] at hfound
            rw [Option.some.inj hfound]
      exact .cons hstep hconstrained haccount (ih hconstrained₁ (hstep.tracks htracks) hrest)

end PgLedger
