import Mathlib.Logic.Relation
import PgLedger.Reversal.Spec
import PgLedger.Runs

/-!
# PgLedger.Runs.Sound

The invariant of the ledger.  `Tables.Sound` collects what holds between
calls: the constraints of the schema, every account the running total of its
entries, every transaction balanced, every balance within its policy, every
reversal exact, and no circle of reversal links.  A created transaction keeps
it (`Created.sound`), so every call does, and with them every run
(`runLedger_sound`).

`Tables.Books` is the part of it that does not speak of policies.  It is kept
on its own, so it survives when a policy is changed.
-/

namespace PgLedger

variable {crates : Crates} {env : Env} {t t' : Tables} {b b' : Backend}

/-! ## reversal links -/

/-- One transaction reverses another. -/
def Tables.Reverses (t : Tables) (id original : Uuid) : Prop :=
  ∃ r ∈ t.transactions, r.id = id ∧ r.reversesTransactionId = some original

/-- Following reversal links never leads back. -/
def Tables.Acyclic (t : Tables) : Prop := ∀ id, ¬ Relation.TransGen t.Reverses id id

/-- Reversal links lead to transactions that exist. -/
theorem Tables.Constrained.mem_of_reverses (h : t.Constrained) {id original : Uuid}
    (hreverses : t.Reverses id original) : original ∈ t.transactionIds := by
  obtain ⟨r, hr, -, hlink⟩ := hreverses
  exact h.reversedExist original (List.mem_filterMap.mpr ⟨r, hr, hlink⟩)

/-- A new transaction is not reversed by any, so it closes no circle. -/
theorem Tables.Acyclic.append {row : TransactionRow} (h : t.Acyclic) (hconstrained : t.Constrained)
    (hid : row.id ∉ t.transactionIds)
    (hlink : ∀ original, row.reversesTransactionId = some original → original ∈ t.transactionIds)
    (ht' : t'.transactions = t.transactions ++ [row]) : t'.Acyclic := by
  have hcases (a c : Uuid) (hac : t'.Reverses a c) :
      (t.Reverses a c ∨ a = row.id) ∧ c ∈ t.transactionIds := by
    obtain ⟨r, hr, hra, hrc⟩ := hac
    rw [ht', List.mem_append, List.mem_singleton] at hr
    rcases hr with hold | rfl
    · have hold' : t.Reverses a c := ⟨r, hold, hra, hrc⟩
      exact ⟨.inl hold', hconstrained.mem_of_reverses hold'⟩
    · exact ⟨.inr hra.symm, hlink c hrc⟩
  have hne (c : Uuid) (hc : c ∈ t.transactionIds) : c ≠ row.id := by
    rintro rfl
    exact hid hc
  have hold (a c : Uuid) (hac : Relation.TransGen t'.Reverses a c) (ha : a ≠ row.id) :
      Relation.TransGen t.Reverses a c := by
    induction hac using Relation.TransGen.head_induction_on with
    | single hstep =>
        obtain ⟨hfirst, -⟩ := hcases _ _ hstep
        exact .single (hfirst.resolve_right ha)
    | head hstep _ ih =>
        obtain ⟨hfirst, hmem⟩ := hcases _ _ hstep
        exact .head (hfirst.resolve_right ha) (ih (hne _ hmem))
  intro id hcircle
  have hmem : id ∈ t.transactionIds := by
    obtain ⟨c, -, hlast⟩ := Relation.TransGen.tail'_iff.mp hcircle
    exact (hcases c id hlast).2
  exact h id (hold id id hcircle (hne id hmem))

/-! ## the invariant -/

structure Tables.Sound (t : Tables) : Prop where
  constrained : t.Constrained
  journaled : t.Journaled
  balanced : t.Balanced
  policiesHold : t.PoliciesHold
  reversalsExact : t.ReversalsExact
  acyclic : t.Acyclic

structure Tables.Books (t : Tables) : Prop where
  constrained : t.Constrained
  journaled : t.Journaled
  balanced : t.Balanced
  reversalsExact : t.ReversalsExact
  acyclic : t.Acyclic

/-- A sound ledger has its books in order. -/
theorem Tables.Sound.books (h : t.Sound) : t.Books :=
  ⟨h.constrained, h.journaled, h.balanced, h.reversalsExact, h.acyclic⟩

/-- Policies are all that is missing from books in order. -/
theorem Tables.Books.sound (h : t.Books) (hpolicies : t.PoliciesHold) : t.Sound :=
  ⟨h.constrained, h.journaled, h.balanced, hpolicies, h.reversalsExact, h.acyclic⟩

/-- The empty ledger is sound. -/
theorem Tables.sound_empty : Tables.empty.Sound where
  constrained := by constructor <;> simp [empty, Tables.accountIds, accountNames, transactionIds,
    idempotencyKeys, reversedIds, entryIds, entryVersions]
  journaled _ h := absurd h List.not_mem_nil
  balanced _ h := absurd h List.not_mem_nil
  policiesHold _ h := absurd h List.not_mem_nil
  reversalsExact _ h := absurd h List.not_mem_nil
  acyclic id h := by
    obtain ⟨_, -, r, hr, -⟩ := Relation.TransGen.tail'_iff.mp h
    exact absurd hr List.not_mem_nil

/-- The net units of a transaction, from what it moved. -/
theorem Tables.netUnits_eq (t : Tables) (id : Uuid) (asset : LedgerAsset) : t.netUnits id asset =
    (((t.moves id).filter (·.amount.asset = asset)).map (·.amount.units)).sum := by
  rw [netUnits, moves, List.filter_map, List.map_map]
  rfl

namespace Created

variable {request : PostRequest} {hashes : PayloadHashes} {row : TransactionRow}

/-- A created transaction is the last one. -/
theorem transactionIds (h : Created crates t t' request hashes row) :
    t'.transactionIds = t.transactionIds ++ [row.id] := by
  rw [Tables.transactionIds, h.transactions, List.map_append]
  rfl

/-- The entries of the older transactions stay what they were. -/
theorem moves_old (h : Created crates t t' request hashes row) {id : Uuid} (hid : id ≠ row.id) :
    t'.moves id = t.moves id := by
  obtain ⟨es, hentries, -, hids⟩ := h.entries
  have hnone : es.filter (fun e => e.transactionId = id) = [] := by
    rw [List.filter_eq_nil_iff]
    intro e he
    rw [hids e he]
    simpa using Ne.symm hid
  rw [Tables.moves, Tables.transactionEntries, hentries, List.filter_append, hnone, List.append_nil]
  rfl

/-- The entries of the new transaction are the postings of the request. -/
theorem moves_new (h : Created crates t t' request hashes row) (hconstrained : t.Constrained) :
    t'.moves row.id = request.postings := by
  obtain ⟨es, hentries, hpostings, hids⟩ := h.entries
  have hnone : t.entries.filter (fun e => e.transactionId = row.id) = [] := by
    rw [List.filter_eq_nil_iff]
    intro e he
    have hmem := hconstrained.entryTransactions e he
    have hne : e.transactionId ≠ row.id := fun heq => h.takes.id (heq ▸ hmem)
    simpa using hne
  have hall : es.filter (fun e => e.transactionId = row.id) = es := by
    rw [List.filter_eq_self]
    intro e he
    simpa using hids e he
  rw [Tables.moves, Tables.transactionEntries, hentries, List.filter_append, hnone, hall,
    List.nil_append, hpostings]

/-- A created transaction keeps the books in order, if it is balanced and
reverses, where it reverses, exactly what was moved. -/
theorem books (h : Created crates t t' request hashes row) (ht : t.Books)
    (hlink : ∀ original, request.reversesTransactionId = some original →
      original ∈ t.transactionIds ∧
        request.postings.Perm ((t.moves original).map (·.negate))) : t'.Books := by
  have hne (id : Uuid) (hid : id ∈ t.transactionIds) : id ≠ row.id := by
    rintro rfl
    exact h.takes.id hid
  have hnew := h.moves_new ht.constrained
  refine ⟨h.constrained, h.journaled ht.journaled, ?_, ?_, ?_⟩
  · intro id hid
    rw [h.transactionIds, List.mem_append, List.mem_singleton] at hid
    rcases hid with hold | rfl
    · obtain ⟨htwo, hzero⟩ := ht.balanced id hold
      have hmoves := h.moves_old (hne id hold)
      constructor
      · have hlen := congrArg List.length hmoves
        rw [Tables.moves, Tables.moves, List.length_map, List.length_map] at hlen
        rw [hlen]
        exact htwo
      · intro asset
        rw [Tables.netUnits_eq, hmoves, ← Tables.netUnits_eq]
        exact hzero asset
    · obtain ⟨htwo, -, hzero⟩ := validatePostings_eq_ok h.validated
      constructor
      · have hlen := congrArg List.length hnew
        rw [Tables.moves, List.length_map] at hlen
        rw [hlen]
        exact htwo
      · intro asset
        rw [Tables.netUnits_eq, hnew]
        exact hzero asset
  · intro r hr original horiginal
    rw [h.transactions, List.mem_append, List.mem_singleton] at hr
    rcases hr with hold | rfl
    · have hmem : original ∈ t.transactionIds :=
        ht.constrained.mem_of_reverses ⟨r, hold, rfl, horiginal⟩
      rw [h.moves_old (hne r.id (List.mem_map_of_mem hold)), h.moves_old (hne original hmem)]
      exact ht.reversalsExact r hold original horiginal
    · rw [h.link] at horiginal
      obtain ⟨hmem, hperm⟩ := hlink original horiginal
      rw [hnew, h.moves_old (hne original hmem)]
      exact hperm
  · refine ht.acyclic.append ht.constrained h.takes.id (fun original horiginal => ?_) h.transactions
    rw [h.link] at horiginal
    exact (hlink original horiginal).1

/-- **The step lemma**: a created transaction keeps the invariant. -/
theorem sound (h : Created crates t t' request hashes row) (ht : t.Sound)
    (hlink : ∀ original, request.reversesTransactionId = some original →
      original ∈ t.transactionIds ∧
        request.postings.Perm ((t.moves original).map (·.negate))) : t'.Sound :=
  (h.books ht.books hlink).sound (h.policiesHold ht.policiesHold)

end Created

/-! ## calls -/

/-- The request that a call sends to the engine. -/
inductive PostingCall.Sends (crates : Crates) (t : Tables) : PostingCall → PostRequest → Prop where
  | post {elements : List (Option LedgerPosting)} {postings : List LedgerPosting}
      {options : PostOptions} (h : requirePostings elements = .ok postings) :
      Sends crates t (.post elements options) (options.request postings)
  | transfer {fromAccount toAccount : Uuid} {amount : LedgerAmount} {options : PostOptions} :
      Sends crates t (.transfer fromAccount toAccount amount options)
        (options.request (transferPostings fromAccount toAccount amount))
  | reverse {transactionId : Uuid} {options : PostOptions} (h : transactionId ∈ t.transactionIds)
      (hnone : t.reversal? transactionId = none) :
      Sends crates t (.reverse transactionId options)
        (reversalRequest crates transactionId options (t.reversalPostings transactionId))

/-- A linked request posts the negation of what its original moved. -/
theorem PostingCall.Sends.link {call : PostingCall} {request : PostRequest}
    (h : call.Sends crates t request) (original : Uuid)
    (horiginal : request.reversesTransactionId = some original) :
    original ∈ t.transactionIds ∧ request.postings.Perm ((t.moves original).map (·.negate)) := by
  cases h with
  | post h => contradiction
  | transfer => contradiction
  | reverse h hnone =>
      obtain rfl := Option.some.inj horiginal
      exact ⟨h, t.reversalPostings_perm _⟩

/-- A call that succeeds was a reversal that exists already, or its request
went through the engine. -/
theorem PostingCall.run_ok {call : PostingCall} {id : Uuid}
    (h : (call.program crates).run env t b = .ok (id, t', b')) :
    (∃ transactionId options row, call = .reverse transactionId options ∧
        t.reversal? transactionId = some row ∧ id = row.id ∧ t' = t) ∨
      ∃ request, call.Sends crates t request ∧
        (PgLedger.post crates request).run env t b = .ok (id, t', b') := by
  cases call with
  | post elements options =>
      rw [program, ledgerPost] at h
      obtain ⟨postings, t₁, b₁, hrequire, hpost⟩ := Spi.run_bind_eq_ok.mp h
      obtain ⟨hpostings, rfl, rfl⟩ := Spi.run_ofExcept_eq_ok.mp hrequire
      exact .inr ⟨_, .post hpostings, hpost⟩
  | transfer fromAccount toAccount amount options =>
      simp only [program, ledgerTransfer] at h
      split at h
      · contradiction
      · split at h
        · contradiction
        · exact .inr ⟨_, .transfer, h⟩
  | reverse transactionId options =>
      obtain ⟨hmem, hcases⟩ := ledgerReverse_run_ok h
      rcases hcases with ⟨row, hrow, hid, hsame⟩ | ⟨hnone, hpost⟩
      · exact .inl ⟨transactionId, options, row, rfl, hrow, hid, hsame⟩
      · exact .inr ⟨_, .reverse hmem hnone, hpost⟩

/-- A call that succeeds has changed nothing, or it has created a transaction
for its request. -/
theorem PostingCall.run_cases {call : PostingCall} {id : Uuid} (hconstrained : t.Constrained)
    (h : (call.program crates).run env t b = .ok (id, t', b')) :
    t' = t ∨ ∃ request hashes row, call.Sends crates t request ∧
      payloadHashes crates request = .ok hashes ∧ Created crates t t' request hashes row := by
  rcases call.run_ok h with ⟨_, _, _, -, -, -, hsame⟩ | ⟨request, hsends, hpost⟩
  · exact .inl hsame
  · obtain ⟨hashes, row, hhashes, -, hcreated | hreplayed⟩ := post_run_ok hconstrained hpost
    · exact .inr ⟨request, hashes, row, hsends, hhashes, hcreated⟩
    · exact .inl hreplayed.unchanged

/-- A call that posts keeps the books in order. -/
theorem PostingCall.books {call : PostingCall} {id : Uuid}
    (h : (call.program crates).run env t b = .ok (id, t', b')) (ht : t.Books) : t'.Books := by
  rcases call.run_cases ht.constrained h with rfl | ⟨request, hashes, row, hsends, -, hcreated⟩
  · exact ht
  · exact hcreated.books ht hsends.link

/-- A call that posts keeps the ledger sound. -/
theorem PostingCall.sound {call : PostingCall} {id : Uuid}
    (h : (call.program crates).run env t b = .ok (id, t', b')) (ht : t.Sound) : t'.Sound := by
  rcases call.run_cases ht.constrained h with rfl | ⟨request, hashes, row, hsends, -, hcreated⟩
  · exact ht
  · exact hcreated.sound ht hsends.link

/-- An account that was created is a new row, with a version and a balance of
zero. -/
theorem ledgerCreateAccount_run_ok {name : Str} {asset : LedgerAsset}
    {balancePolicy : BalancePolicy} {metadata : Option Json} {id : Uuid}
    (h : (ledgerCreateAccount name asset balancePolicy metadata).run env t b = .ok (id, t', b')) :
    ∃ row : AccountRow, row.balance.units = 0 ∧ row.version = 0 ∧ row.id ∉ t.accountIds ∧
      t' = t.apply (.insertAccount row) := by
  obtain ⟨ws, heval, rfl⟩ := Spi.run_send_eq_ok.mp h
  obtain ⟨row, hvalues, hversion, hid, -, heff⟩ := Stmt.evalInsertAccount_eq_ok heval
  obtain rfl : ws = [.insertAccount row] := congrArg Effect.writes heff
  refine ⟨row, ?_, hversion, hid, rfl⟩
  rw [hvalues]
  rfl

/-- A new account has no entries and a balance of zero. -/
theorem ledgerCreateAccount_books {name : Str} {asset : LedgerAsset} {balancePolicy : BalancePolicy}
    {metadata : Option Json} {id : Uuid}
    (h : (ledgerCreateAccount name asset balancePolicy metadata).run env t b = .ok (id, t', b'))
    (ht : t.Books) : t'.Books := by
  have hconstrained := Spi.run_constrained h ht.constrained
  obtain ⟨row, hbalance, hversion, hid, rfl⟩ := ledgerCreateAccount_run_ok h
  have hempty : t.accountEntries row.id = [] := by
    rw [Tables.accountEntries, List.filter_eq_nil_iff]
    intro e he
    have hne : e.accountId ≠ row.id := fun heq => hid (heq ▸ ht.constrained.entryAccounts e he)
    simpa using hne
  refine ⟨hconstrained, ?_, ?_, ht.reversalsExact, ht.acyclic⟩
  · intro a ha
    cases List.mem_append.mp ha with
    | inl hold => exact ⟨(ht.journaled a hold).journal, (ht.journaled a hold).assets⟩
    | inr hnew =>
        obtain rfl := List.mem_singleton.mp hnew
        constructor
        · show Journal ((t.accountEntries a.id).map _) _ _
          rw [hempty, hversion, hbalance]
          exact .nil
        · intro e he
          change e ∈ t.accountEntries a.id at he
          simp only [hempty] at he
          exact absurd he List.not_mem_nil
  · exact fun id hid => ⟨(ht.balanced id hid).twoEntries, (ht.balanced id hid).balanced⟩

/-- Every policy admits the balance of a new account. -/
theorem ledgerCreateAccount_sound {name : Str} {asset : LedgerAsset} {balancePolicy : BalancePolicy}
    {metadata : Option Json} {id : Uuid}
    (h : (ledgerCreateAccount name asset balancePolicy metadata).run env t b = .ok (id, t', b'))
    (ht : t.Sound) : t'.Sound := by
  refine (ledgerCreateAccount_books h ht.books).sound fun a ha => ?_
  obtain ⟨row, hbalance, -, -, rfl⟩ := ledgerCreateAccount_run_ok h
  cases List.mem_append.mp ha with
  | inl hold => exact ht.policiesHold a hold
  | inr hnew =>
      obtain rfl := List.mem_singleton.mp hnew
      rw [hbalance]
      cases a.balancePolicy with
      | any => trivial
      | nonNegative => exact le_rfl
      | nonPositive => exact le_rfl
      | zero => rfl

/-- A call keeps the books in order. -/
theorem Call.books {call : Call} {id : Uuid}
    (h : (call.program crates).run env t b = .ok (id, t', b')) (ht : t.Books) : t'.Books := by
  cases call with
  | createAccount name asset balancePolicy metadata => exact ledgerCreateAccount_books h ht
  | posting call => exact call.books h ht

/-- A call keeps the ledger sound. -/
theorem Call.sound {call : Call} {id : Uuid}
    (h : (call.program crates).run env t b = .ok (id, t', b')) (ht : t.Sound) : t'.Sound := by
  cases call with
  | createAccount name asset balancePolicy metadata => exact ledgerCreateAccount_sound h ht
  | posting call => exact call.sound h ht

/-! ## runs -/

/-- Another format of a fingerprint changes nothing but the hash. -/
theorem TransactionRow.unversion_eq (crates : Crates) (row : TransactionRow) (id : Uuid)
    (request : PostRequest) :
    ∃ hash, row.unversion crates id request = { row with payloadHash := hash } := by
  unfold unversion
  split
  · split
    · exact ⟨_, rfl⟩
    · exact ⟨row.payloadHash, rfl⟩
  · exact ⟨row.payloadHash, rfl⟩

/-- The older format changes nothing that the constraints look at. -/
theorem TransactionRow.unversion_fields (row : TransactionRow) (id : Uuid) (request : PostRequest) :
    (row.unversion crates id request).id = row.id ∧
      (row.unversion crates id request).idempotencyKey = row.idempotencyKey ∧
      (row.unversion crates id request).reversesTransactionId = row.reversesTransactionId := by
  obtain ⟨hash, heq⟩ := row.unversion_eq crates id request
  rw [heq]
  exact ⟨rfl, rfl, rfl⟩

/-- Rewriting transaction rows without touching their identifier, key and
link keeps the invariant. -/
theorem Tables.Sound.mapTransactions (ht : t.Sound) {f : TransactionRow → TransactionRow}
    (hf : ∀ row, (f row).id = row.id ∧ (f row).idempotencyKey = row.idempotencyKey ∧
      (f row).reversesTransactionId = row.reversesTransactionId) :
    Tables.Sound { t with transactions := t.transactions.map f } := by
  have hids : (t.transactions.map f).map (·.id) = t.transactionIds := by
    rw [List.map_map]
    exact List.map_congr_left fun row _ => (hf row).1
  have hkeys : (t.transactions.map f).filterMap (·.idempotencyKey) = t.idempotencyKeys := by
    rw [List.filterMap_map]
    exact List.filterMap_congr fun row _ => (hf row).2.1
  have hlinks : (t.transactions.map f).filterMap (·.reversesTransactionId) = t.reversedIds := by
    rw [List.filterMap_map]
    exact List.filterMap_congr fun row _ => (hf row).2.2
  obtain ⟨hconstrained, hjournaled, hbalanced, hpolicies, hreversals, hacyclic⟩ := ht
  have hreverses :
      Tables.Reverses { t with transactions := t.transactions.map f } = t.Reverses := by
    funext a c
    refine propext ⟨?_, ?_⟩
    · intro h
      obtain ⟨r, hr, hid, hlink⟩ := h
      obtain ⟨old, hold, rfl⟩ := List.mem_map.mp hr
      exact ⟨old, hold, (hf old).1 ▸ hid, (hf old).2.2 ▸ hlink⟩
    · intro h
      obtain ⟨r, hr, hid, hlink⟩ := h
      exact ⟨f r, List.mem_map_of_mem hr, by rw [(hf r).1, hid], by rw [(hf r).2.2, hlink]⟩
  constructor
  · exact { hconstrained with
      transactionIds := by rw [Tables.transactionIds, hids]; exact hconstrained.transactionIds
      idempotencyKeys := by rw [Tables.idempotencyKeys, hkeys]; exact hconstrained.idempotencyKeys
      reversedIds := by rw [Tables.reversedIds, hlinks]; exact hconstrained.reversedIds
      reversedExist := by
        rw [Tables.reversedIds, hlinks, Tables.transactionIds, hids]
        exact hconstrained.reversedExist
      entryTransactions := by
        rw [Tables.transactionIds, hids]
        exact hconstrained.entryTransactions }
  · exact fun a ha => ⟨(hjournaled a ha).journal, (hjournaled a ha).assets⟩
  · intro id hid
    rw [Tables.transactionIds, hids] at hid
    exact ⟨(hbalanced id hid).twoEntries, (hbalanced id hid).balanced⟩
  · exact hpolicies
  · intro r hr original horiginal
    obtain ⟨old, hold, rfl⟩ := List.mem_map.mp hr
    rw [(hf old).2.2] at horiginal
    rw [(hf old).1]
    exact hreversals old hold original horiginal
  · rw [Tables.Acyclic, hreverses]
    exact hacyclic

/-- **The step**: every event keeps the ledger sound. -/
theorem Event.sound (event : Event) (ht : t.Sound) : (event.after crates t).Sound := by
  cases event with
  | call made session =>
      rcases made.after_cases crates session t with hsame | ⟨id, hexec⟩
      · rw [after, hsame]
        exact ht
      · obtain ⟨b', hrun⟩ := Call.exec_eq_ok.mp hexec
        exact made.sound hrun ht
  | unversion id request => exact ht.mapTransactions (·.unversion_fields id request)

/-- **The invariant of the ledger**: every run keeps it. -/
theorem runLedger_sound (crates : Crates) (events : List Event) : (runLedger crates events).Sound :=
  runLedger_induction Tables.sound_empty (fun _ event => event.sound) events

end PgLedger
