import PgLedger.Runs.Recorded

/-!
# PgLedger.Transaction.Effect

What a created transaction does to every row and column.  Each posting moves
one account and adds one entry (`PostLine`), so a run of the loop moves every
account by the postings that name it (`AccountMoved`), and the entries of an
account are its postings in their order, each starting where the one before
it ended (`AccountLines`).  Both are proved by induction on the postings: the
accounts after one turn are those the rest of the loop starts from.
-/

namespace PgLedger

variable {crates : Crates} {env : Env} {t t' : Tables} {b b' : Backend}

/-! ## accounts and their lines -/

/-- The postings that name an account. -/
def postingsOf (postings : List LedgerPosting) (id : Uuid) : List LedgerPosting :=
  postings.filter (·.accountId = id)

/-- What the postings make of an account: the balance moves by the sum of its
postings, the version by their number, and no other column changes, except
for the time of the update.  An account that is not named keeps its row. -/
structure AccountMoved (postings : List LedgerPosting) (a a' : AccountRow) : Prop where
  id : a'.id = a.id
  values : a'.toAccountValues =
    { a.toAccountValues with
      balance := ⟨a.asset, a.balance.units + movedUnits postings a.id⟩ }
  version : a'.version.toInt = a.version.toInt + (postingsOf postings a.id).length
  createdAt : a'.createdAt = a.createdAt
  unnamed : (∀ p ∈ postings, p.accountId ≠ a.id) → a' = a

/-- The entry of a posting, after the earlier postings of its account. -/
structure LineOf (a : AccountRow) (earlier : List LedgerPosting) (posting : LedgerPosting)
    (e : EntryRow) : Prop where
  moves : e.posting = posting
  version : e.accountVersion.toInt = a.version.toInt + (earlier.length + 1)
  previous : e.previousBalance = ⟨a.asset, a.balance.units + (earlier.map (·.amount.units)).sum⟩
  current : e.currentBalance =
    ⟨a.asset, a.balance.units + (earlier.map (·.amount.units)).sum + posting.amount.units⟩

/-- The entries of an account are its postings, line by line. -/
structure AccountLines (a : AccountRow) (postings : List LedgerPosting) (es : List EntryRow) :
    Prop where
  length : es.length = postings.length
  line : ∀ k posting e, postings[k]? = some posting → es[k]? = some e →
    LineOf a (postings.take k) posting e

/-! ## one posting after another -/

theorem postingsOf_cons (posting : LedgerPosting) (postings : List LedgerPosting) (id : Uuid) :
    postingsOf (posting :: postings) id =
      if posting.accountId = id then posting :: postingsOf postings id
      else postingsOf postings id := by
  by_cases h : posting.accountId = id
  · simp [postingsOf, h]
  · simp [postingsOf, h]

theorem postingsOf_append (ps qs : List LedgerPosting) (id : Uuid) :
    postingsOf (ps ++ qs) id = postingsOf ps id ++ postingsOf qs id := List.filter_append ..

/-- What two lists of postings move adds up. -/
theorem movedUnits_append (ps qs : List LedgerPosting) (id : Uuid) :
    movedUnits (ps ++ qs) id = movedUnits ps id + movedUnits qs id := by
  simp only [movedUnits, List.filter_append, List.map_append, List.sum_append]

/-- Nothing has moved. -/
theorem AccountMoved.refl (a : AccountRow) : AccountMoved [] a a where
  id := rfl
  values := by
    have hbalance : a.balance = ⟨a.asset, a.balance.units + movedUnits [] a.id⟩ :=
      Tables.amount_ext a.balanceCheck (Int.add_zero _).symm
    rw [← hbalance]
  version := (Int.add_zero _).symm
  createdAt := rfl
  unnamed _ := rfl

/-- Two lists of postings, one after the other. -/
theorem AccountMoved.trans {ps qs : List LedgerPosting} {a a₁ a₂ : AccountRow}
    (h : AccountMoved ps a a₁) (h' : AccountMoved qs a₁ a₂) : AccountMoved (ps ++ qs) a a₂ where
  id := h'.id.trans h.id
  values := by
    rw [h'.values, h.values, h.id, movedUnits_append, Int.add_assoc]
  version := by
    rw [h'.version, h.version, h.id, postingsOf_append, List.length_append, Int.add_assoc]
    rfl
  createdAt := h'.createdAt.trans h.createdAt
  unnamed hnone := by
    have hfirst : a₁ = a := h.unnamed fun p hp => hnone p (List.mem_append_left _ hp)
    have hsecond : a₂ = a₁ := by
      refine h'.unnamed fun p hp => ?_
      rw [h.id]
      exact hnone p (List.mem_append_right _ hp)
    rw [hsecond, hfirst]

/-- The line of a later posting, seen from the account as it was before the
first one. -/
theorem LineOf.after {a a₁ : AccountRow} {first posting : LedgerPosting}
    {earlier : List LedgerPosting} {e : EntryRow} (hmoved : AccountMoved [first] a a₁)
    (hfirst : first.accountId = a.id) (h : LineOf a₁ earlier posting e) :
    LineOf a (first :: earlier) posting e := by
  have hasset : a₁.asset = a.asset := by rw [hmoved.values]
  have hunits : a₁.balance.units = a.balance.units + first.amount.units := by
    rw [hmoved.values, movedUnits_cons, if_pos hfirst]
    show a.balance.units + (first.amount.units + 0) = _
    rw [Int.add_zero]
  have hversion : a₁.version.toInt = a.version.toInt + 1 := by
    rw [hmoved.version, postingsOf_cons, if_pos hfirst]
    rfl
  constructor
  · exact h.moves
  · rw [h.version, hversion, List.length_cons]
    omega
  · rw [h.previous, hasset, hunits, List.map_cons, List.sum_cons, Int.add_assoc]
  · rw [h.current, hasset, hunits, List.map_cons, List.sum_cons, Int.add_assoc a.balance.units]

theorem AccountLines.nil (a : AccountRow) : AccountLines a [] [] where
  length := rfl
  line k posting e h := by simp at h

/-- A line in front of the others. -/
theorem AccountLines.cons {a a₁ : AccountRow} {first : LedgerPosting}
    {postings : List LedgerPosting} {e : EntryRow} {es : List EntryRow}
    (hmoved : AccountMoved [first] a a₁) (hfirst : first.accountId = a.id)
    (hline : LineOf a [] first e) (h : AccountLines a₁ postings es) :
    AccountLines a (first :: postings) (e :: es) where
  length := by rw [List.length_cons, List.length_cons, h.length]
  line k posting e' hp he := by
    cases k with
    | zero =>
        obtain rfl : first = posting := by simpa using hp
        obtain rfl : e = e' := by simpa using he
        exact hline
    | succ k =>
        rw [List.getElem?_cons_succ] at hp he
        exact (h.line k posting e' hp he).after hmoved hfirst

/-! ## one turn -/

namespace PostLine

variable {transactionId : Uuid} {createdAt : Timestamp} {posting : LedgerPosting}
  {row row' : AccountRow} {e : EntryRow}

/-- One turn moves its account by its posting. -/
theorem moved (h : PostLine env b b' t transactionId createdAt posting row row' e) :
    AccountMoved [posting] row row' where
  id := h.sameId
  values := by
    have hunits : movedUnits [posting] row.id = posting.amount.units := by
      rw [movedUnits_cons, if_pos h.id_row.symm]
      exact Int.add_zero _
    rw [h.values, h.balance, hunits, row.balanceCheck]
  version := by
    rw [h.version, postingsOf_cons, if_pos h.id_row.symm]
    rfl
  createdAt := h.sameCreatedAt
  unnamed hnone := absurd h.id_row.symm (hnone posting (List.mem_singleton_self posting))

/-- The account row after the turn. -/
theorem moved_posted (h : PostLine env b b' t transactionId createdAt posting row row' e)
    (hconstrained : t.Constrained) {a : AccountRow} (ha : a ∈ t.accounts) :
    AccountMoved [posting] a (if a.id = row'.id then row' else a) := by
  by_cases hid : a.id = row'.id
  · have hrow : a = row := by
      have hfound := Tables.account?_of_mem hconstrained ha
      rw [hid, h.sameId, h.id_row, h.found] at hfound
      exact (Option.some.inj hfound).symm
    rw [if_pos hid, hrow]
    exact h.moved
  · have hne : posting.accountId ≠ a.id := by
      rw [← h.id_row, ← h.sameId]
      exact Ne.symm hid
    rw [if_neg hid]
    have hunits : movedUnits [posting] a.id = movedUnits [] a.id := by
      rw [movedUnits_cons, if_neg hne, Int.zero_add]
    have hof : postingsOf [posting] a.id = postingsOf [] a.id := by
      rw [postingsOf_cons, if_neg hne]
    have hrefl := AccountMoved.refl a
    exact ⟨rfl, by rw [hunits]; exact hrefl.values, by rw [hof]; exact hrefl.version, rfl,
      fun _ => rfl⟩

/-- The entry of the turn is the first line of its account. -/
theorem line (h : PostLine env b b' t transactionId createdAt posting row row' e) :
    LineOf row [] posting e where
  moves := h.posting
  version := by
    rw [h.accountVersion, h.version]
    rfl
  previous := by
    rw [h.previous]
    exact Tables.amount_ext row.balanceCheck (Int.add_zero _).symm
  current := by
    rw [h.current, h.balance, row.balanceCheck]
    simp

end PostLine

/-! ## the whole loop -/

/-- The identifiers a session draws next. -/
def drawnIds (env : Env) (drawn n : Nat) : List Uuid :=
  (List.range n).map fun i => env.uuidv7 (drawn + i)

theorem drawnIds_succ (env : Env) (drawn n : Nat) :
    drawnIds env drawn (n + 1) = env.uuidv7 drawn :: drawnIds env (drawn + 1) n := by
  rw [drawnIds, List.range_succ_eq_map, List.map_cons, List.map_map]
  refine congrArg _ (List.map_congr_left fun i _ => ?_)
  rw [Function.comp_apply, Nat.succ_eq_add_one, Nat.add_right_comm, Nat.add_assoc]

/-- What the loop does to every row: `es` are the entries it writes. -/
structure LoopEffect (env : Env) (b : Backend) (t t' : Tables) (transactionId : Uuid)
    (createdAt : Timestamp) (postings : List LedgerPosting) (es : List EntryRow) : Prop where
  accounts : List.Forall₂ (AccountMoved postings) t.accounts t'.accounts
  transactions : t'.transactions = t.transactions
  entries : t'.entries = t.entries ++ es
  moves : es.map (·.posting) = postings
  written : ∀ e ∈ es, e.transactionId = transactionId ∧ e.createdAt = createdAt
  lines : ∀ a ∈ t.accounts,
    AccountLines a (postingsOf postings a.id) (es.filter (·.accountId = a.id))
  drawn : es.map (·.id) = drawnIds env b.uuidsDrawn postings.length

/-- A relation of the elements to their images, followed by another one. -/
theorem forall₂_of_map {α β γ : Type} {f : α → β} {R : α → β → Prop} {S : β → γ → Prop}
    {T : α → γ → Prop} (hT : ∀ a b c, R a b → S b c → T a c) {l : List α} {l' : List γ}
    (hR : ∀ a ∈ l, R a (f a)) (hS : List.Forall₂ S (l.map f) l') : List.Forall₂ T l l' := by
  induction l generalizing l' with
  | nil =>
      rw [List.map_nil, List.forall₂_nil_left_iff] at hS
      rw [hS]
      exact .nil
  | cons a l ih =>
      rw [List.map_cons, List.forall₂_cons_left_iff] at hS
      obtain ⟨c, l'', hac, hrest, rfl⟩ := hS
      rw [List.forall_mem_cons] at hR
      exact .cons (hT a (f a) c hR.1 hac) (ih hR.2 hrest)

/-- **The loop, row by row**, by induction on the postings. -/
theorem postAll_run_effect {transactionId : Uuid} {createdAt : Timestamp}
    {postings : List LedgerPosting} {accounts accounts' : AccountMap} (hconstrained : t.Constrained)
    (htracks : Tracks accounts t)
    (h : (postAll transactionId createdAt accounts postings).run env t b =
      .ok (accounts', t', b')) :
    ∃ es, LoopEffect env b t t' transactionId createdAt postings es := by
  induction postings generalizing t b accounts with
  | nil =>
      obtain ⟨rfl, rfl, -⟩ : accounts = accounts' ∧ t = t' ∧ b = b' := by
        simpa [postAll] using h
      refine ⟨[], ⟨?_, rfl, (List.append_nil _).symm, rfl, ?_, fun a _ => .nil a, rfl⟩⟩
      · exact List.forall₂_same.mpr fun a _ => .refl a
      · exact fun _ he => absurd he List.not_mem_nil
  | cons posting postings ih =>
      simp only [postAll] at h
      obtain ⟨accounts₁, t₁, b₁, hone, hrest⟩ := Spi.run_bind_eq_ok.mp h
      have hconstrained₁ := Spi.run_constrained hone hconstrained
      obtain ⟨row, row', e, hline, rfl, rfl⟩ := postOne_run_line htracks hone
      obtain ⟨es, heffect⟩ := ih hconstrained₁ (hline.tracks htracks) hrest
      refine ⟨e :: es, ?_⟩
      constructor
      · have hafter := heffect.accounts
        show List.Forall₂ (AccountMoved ([posting] ++ postings)) t.accounts t'.accounts
        have hposted : (t.posted row' e).accounts =
            t.accounts.map fun a => if a.id = row'.id then row' else a := rfl
        rw [hposted] at hafter
        exact forall₂_of_map (R := AccountMoved [posting]) (S := AccountMoved postings)
          (fun _ _ _ => AccountMoved.trans) (fun a ha => hline.moved_posted hconstrained ha) hafter
      · exact heffect.transactions
      · rw [heffect.entries]
        exact List.append_assoc _ [e] es
      · rw [List.map_cons, hline.posting, heffect.moves]
      · exact List.forall_mem_cons.mpr
          ⟨⟨hline.transaction, hline.entryCreatedAt⟩, heffect.written⟩
      · intro a ha
        have hmoved := hline.moved_posted hconstrained ha
        have hlines := heffect.lines _ (List.mem_map_of_mem ha)
        rw [hmoved.id] at hlines
        rw [postingsOf_cons]
        by_cases hid : posting.accountId = a.id
        · have hentry : e.accountId = a.id := hline.accountId_entry.trans (hline.id_row.trans hid)
          have hrow : a = row := by
            have hfound := Tables.account?_of_mem hconstrained ha
            rw [← hid, hline.found] at hfound
            exact (Option.some.inj hfound).symm
          rw [if_pos hid, List.filter_cons_of_pos (by simpa using hentry)]
          refine .cons hmoved hid ?_ hlines
          rw [hrow]
          exact hline.line
        · have hentry : e.accountId ≠ a.id := by
            rw [hline.accountId_entry, hline.id_row]
            exact hid
          have hsame : (if a.id = row'.id then row' else a) = a := by
            refine hmoved.unnamed fun p hp => ?_
            rw [List.mem_singleton.mp hp]
            exact hid
          rw [hsame] at hlines
          rw [if_neg hid, List.filter_cons_of_neg (by simpa using hentry)]
          exact hlines
      · have hdrawn := heffect.drawn
        rw [hline.backend] at hdrawn
        rw [List.map_cons, hline.drawn, List.length_cons, drawnIds_succ, hdrawn]
        rfl

/-! ## the engine -/

/-- What the call that created `row` has done to the tables: one transaction,
one entry for every posting, every account moved by its postings, and no
other row or column changed. -/
structure PostEffect (crates : Crates) (t t' : Tables) (request : PostRequest)
    (row : TransactionRow) : Prop where
  transactions : t'.transactions = t.transactions ++ [row]
  values : ∃ hashes createdAt, payloadHashes crates request = .ok hashes ∧
    row.toTransactionValues = request.values hashes createdAt
  accounts : List.Forall₂ (AccountMoved request.postings) t.accounts t'.accounts
  entries : ∃ es, t'.entries = t.entries ++ es ∧ es.map (·.posting) = request.postings ∧
    (∀ e ∈ es, e.transactionId = row.id ∧ e.createdAt = row.createdAt) ∧
    ∀ a ∈ t.accounts, AccountLines a (postingsOf request.postings a.id)
      (es.filter (·.accountId = a.id))

/-- A call that returned a new identifier created its transaction. -/
theorem created_of_new {request : PostRequest} {id : Uuid} (hconstrained : t.Constrained)
    (h : (post crates request).run env t b = .ok (id, t', b')) (hnew : id ∉ t.transactionIds) :
    ∃ hashes row, id = row.id ∧ Created crates t t' request hashes row := by
  obtain ⟨hashes, row, -, hid, hcreated | hreplayed⟩ := post_run_ok hconstrained h
  · exact ⟨hashes, row, hid, hcreated⟩
  · obtain ⟨key, -, hholder⟩ := hreplayed.key
    refine absurd ?_ hnew
    rw [hid]
    exact List.mem_map_of_mem (Tables.holder?_eq_some hholder).1

/-- The parts of a call with a free key, and what its loop has done. -/
theorem post_run_loop {request : PostRequest} {id : Uuid} (hconstrained : t.Constrained)
    (hfree : taken t.idempotencyKeys request.idempotencyKey = false)
    (h : (post crates request).run env t b = .ok (id, t', b')) :
    ∃ hashes row accounts es, payloadHashes crates request = .ok hashes ∧
      row.toTransactionValues = request.values hashes (env.clock b.clockReads) ∧
      row.id = env.uuidv7 b.uuidsDrawn ∧ t.TakesTransaction row ∧ id = row.id ∧
      (lockAccounts request.postings).run env (t.apply (.insertTransaction row))
        b.readClock.drawUuid = .ok (accounts, t.apply (.insertTransaction row),
          b.readClock.drawUuid) ∧
      verifyFinalBalances crates request.postings accounts = .ok () ∧
      LoopEffect env b.drawUuid (t.apply (.insertTransaction row)) t' row.id
        (env.clock b.clockReads) request.postings es := by
  obtain ⟨-, hashes, row, hhashes, hvalues, hdrawn, htakes, hentries⟩ := (post_run_free hfree).mp h
  obtain ⟨accounts, accounts', b₁, hlock, hverify, hall, hid, -⟩ := postEntries_run_iff.mp hentries
  obtain ⟨es, heffect⟩ := postAll_run_effect (hconstrained.insertTransaction htakes)
    (tracks_of_lockAccounts hlock) hall
  refine ⟨hashes, row, accounts, es, hhashes, hvalues, hdrawn, htakes, hid, hlock, hverify, ?_⟩
  exact { heffect with drawn := heffect.drawn }

/-- A call that returns a new identifier has had its effect. -/
theorem post_run_effect {request : PostRequest} {id : Uuid} (hconstrained : t.Constrained)
    (h : (post crates request).run env t b = .ok (id, t', b')) (hnew : id ∉ t.transactionIds) :
    ∃ row, row.id = id ∧ PostEffect crates t t' request row := by
  obtain ⟨_, _, -, hcreated⟩ := created_of_new hconstrained h hnew
  obtain ⟨hashes, row, accounts, es, hhashes, hvalues, -, -, hid, -, -, heffect⟩ :=
    post_run_loop hconstrained hcreated.free h
  refine ⟨row, hid.symm, heffect.transactions, ⟨hashes, _, hhashes, hvalues⟩, heffect.accounts, es,
    heffect.entries, heffect.moves, fun e he => ?_, heffect.lines⟩
  obtain ⟨htransaction, hcreatedAt⟩ := heffect.written e he
  refine ⟨htransaction, ?_⟩
  rw [hcreatedAt, hvalues]
  rfl

/-- **Effect and frame**: in every ledger that can be reached, a call that
creates a transaction adds its row, one entry for every posting, and moves
the accounts by their postings, one line after another; every other row and
column stays. -/
theorem post_effect (crates : Crates) (events : List Event) (request : PostRequest) (env : Env)
    (b b' : Backend) (id : Uuid) (t' : Tables)
    (h : (post crates request).run env (runLedger crates events) b = .ok (id, t', b'))
    (hnew : id ∉ (runLedger crates events).transactionIds) :
    ∃ row, row.id = id ∧ PostEffect crates (runLedger crates events) t' request row :=
  post_run_effect (runLedger_sound crates events).constrained h hnew

/-- The accounts of the fixture, before anything is posted. -/
def fixtureAccounts : List Event := fixtureRun.take 2

/-- A request that names an account twice. -/
def repeatedRequest : PostRequest where
  postings := [⟨0x102#128, ⟨usd, 10⟩⟩, ⟨0x101#128, ⟨usd, -30⟩⟩, ⟨0x102#128, ⟨usd, 20⟩⟩]
  reference := none
  idempotencyKey := none
  eventAt := none
  metadata := none
  reversesTransactionId := none

theorem post_effect_repeated : ∃ t' b',
    (post .concrete repeatedRequest).run (fixtureSession 0x201).env
      (runLedger .concrete fixtureAccounts) (fixtureSession 0x201).backend =
        .ok (0x201#128, t', b') ∧
    ∃ row, row.id = 0x201#128 ∧
      PostEffect .concrete (runLedger .concrete fixtureAccounts) t' repeatedRequest row := by
  obtain ⟨t', b', h⟩ : ∃ t' b', (post .concrete repeatedRequest).run (fixtureSession 0x201).env
      (runLedger .concrete fixtureAccounts) (fixtureSession 0x201).backend =
        .ok (0x201#128, t', b') := ⟨_, _, rfl⟩
  exact ⟨t', b', h, post_effect .concrete fixtureAccounts repeatedRequest _ _ b' _ t' h (by decide)⟩

end PgLedger
