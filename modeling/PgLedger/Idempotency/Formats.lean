import PgLedger.Idempotency.ExactlyOnce
import PgLedger.Reads
import PgLedger.Validation

/-!
# PgLedger.Idempotency.Formats

Fingerprints written before they were versioned.  Two ledgers are `Alike` when
they differ at most in stored fingerprints, and the fingerprints of one row
answer the same requests.  Rewriting a row to the older format leads to a
ledger alike.

`Spi.Indifferent` programs do the same on ledgers alike.  Statements other than
the resolution of a key do not look at fingerprints at all, so the programs
made of them are indifferent; the engine resolves keys too, but of what it
finds it only uses whether it answers its own request.  Views and functions
that read show the same too, except for the fingerprint in the row that
`ledger_transaction` returns.
-/

namespace PgLedger

variable {crates : Crates} {env : Env} {t u v : Tables} {b : Backend}

/-! ## ledgers alike -/

/-- The fingerprints answer the same requests. -/
def SameAnswers (crates : Crates) (existing existing' : Str) : Prop :=
  ∀ request, IsFingerprint crates request existing ↔ IsFingerprint crates request existing'

/-- The rows differ at most in their fingerprints. -/
structure TransactionRow.Alike (crates : Crates) (row row' : TransactionRow) : Prop where
  columns : row' = { row with payloadHash := row'.payloadHash }
  answers : SameAnswers crates row.payloadHash row'.payloadHash

structure Tables.Alike (crates : Crates) (t u : Tables) : Prop where
  accounts : u.accounts = t.accounts
  transactions : List.Forall₂ (TransactionRow.Alike crates) t.transactions u.transactions
  entries : u.entries = t.entries

/-- A row is like itself. -/
theorem TransactionRow.Alike.refl (row : TransactionRow) : row.Alike crates row :=
  ⟨rfl, fun _ => Iff.rfl⟩

/-- Rows like the same row are alike. -/
theorem TransactionRow.Alike.trans {row row' row'' : TransactionRow} (h : row.Alike crates row')
    (h' : row'.Alike crates row'') : row.Alike crates row'' where
  columns := by
    rw [h'.columns, h.columns]
  answers request := (h.answers request).trans (h'.answers request)

namespace Tables.Alike

/-- A ledger is like itself. -/
theorem refl (t : Tables) : t.Alike crates t :=
  ⟨rfl, List.forall₂_same.mpr fun row _ => .refl row, rfl⟩

/-- Nothing that does not look at fingerprints can tell the rows apart. -/
theorem map_eq (h : t.Alike crates u) {β : Type} {f : TransactionRow → β}
    (hf : ∀ row hash, f { row with payloadHash := hash } = f row) :
    u.transactions.map f = t.transactions.map f := by
  have hrows := h.transactions
  generalize t.transactions = rows at hrows
  generalize u.transactions = rows' at hrows
  induction hrows with
  | nil => rfl
  | cons hrow _ ih => rw [List.map_cons, List.map_cons, ih, hrow.columns, hf]

/-- What is read of the transactions without their fingerprints is the same. -/
theorem filterMap_eq (h : t.Alike crates u) {β : Type} {f : TransactionRow → Option β}
    (hf : ∀ row hash, f { row with payloadHash := hash } = f row) :
    u.transactions.filterMap f = t.transactions.filterMap f := by
  have hmap := congrArg (List.filterMap id) (h.map_eq hf)
  simpa [List.filterMap_map] using hmap

/-- A search that does not look at fingerprints finds rows alike. -/
theorem find?_rel (h : t.Alike crates u) {p : TransactionRow → Bool}
    (hp : ∀ row hash, p { row with payloadHash := hash } = p row) :
    Option.Rel (TransactionRow.Alike crates) (t.transactions.find? p) (u.transactions.find? p) := by
  have hrows := h.transactions
  generalize t.transactions = rows at hrows
  generalize u.transactions = rows' at hrows
  induction hrows with
  | nil => exact .none
  | @cons row row' _ _ hrow _ ih =>
      have hsame : p row' = p row := by rw [hrow.columns, hp]
      cases hrowp : p row with
      | false =>
          rw [List.find?_cons_of_neg (by simp [hrowp]),
            List.find?_cons_of_neg (by simp [hsame, hrowp])]
          exact ih
      | true =>
          rw [List.find?_cons_of_pos hrowp, List.find?_cons_of_pos (hsame.trans hrowp)]
          exact .some hrow

/-- Ledgers alike have the same transactions. -/
theorem transactionIds (h : t.Alike crates u) : u.transactionIds = t.transactionIds :=
  h.map_eq fun _ _ => rfl

/-- Ledgers alike use the same keys. -/
theorem idempotencyKeys (h : t.Alike crates u) : u.idempotencyKeys = t.idempotencyKeys :=
  h.filterMap_eq fun _ _ => rfl

/-- In ledgers alike the same transactions are reversed. -/
theorem reversedIds (h : t.Alike crates u) : u.reversedIds = t.reversedIds :=
  h.filterMap_eq fun _ _ => rfl

/-- Ledgers alike have the same entries. -/
theorem sameEntries (h : t.Alike crates u) : t.SameEntries u :=
  ⟨h.accounts.symm, h.transactionIds.symm, h.entries.symm⟩

/-- The same change leads from ledgers alike to ledgers alike. -/
theorem apply (h : t.Alike crates u) (w : Write) : (t.apply w).Alike crates (u.apply w) := by
  obtain ⟨haccounts, htransactions, hentries⟩ := h
  cases w with
  | insertAccount row => exact ⟨by simp only [Tables.apply, haccounts], htransactions, hentries⟩
  | updateAccount row => exact ⟨by simp only [Tables.apply, haccounts], htransactions, hentries⟩
  | insertTransaction row =>
      exact ⟨haccounts, List.rel_append htransactions (.cons (.refl row) .nil), hentries⟩
  | insertEntry row => exact ⟨haccounts, htransactions, by simp only [Tables.apply, hentries]⟩

/-- The same changes lead from ledgers alike to ledgers alike. -/
theorem applyAll (h : t.Alike crates u) (ws : List Write) :
    (t.applyAll ws).Alike crates (u.applyAll ws) := by
  induction ws generalizing t u with
  | nil => exact h
  | cons w ws ih => exact ih (h.apply w)

end Tables.Alike

/-- Answering a request is accepting its hashes. -/
theorem isFingerprint_iff_accepts {request : PostRequest} {hashes : PayloadHashes}
    (hhashes : payloadHashes crates request = .ok hashes) {existing : Str} :
    IsFingerprint crates request existing ↔ hashes.accepts existing := by
  constructor
  · rintro ⟨hashes', hhashes', haccepts⟩
    obtain rfl := Except.ok.inj (hhashes.symm.trans hhashes')
    exact haccepts
  · intro haccepts
    exact ⟨hashes, hhashes, haccepts⟩

/-! ## statements -/

/-- The statements that do not return fingerprints. -/
def Stmt.Blind : Stmt → Prop
  | .resolveKey _ => False
  | _ => True

/-- The statements that write entries do not look at fingerprints. -/
theorem Stmt.WritesEntries.blind {s : Stmt} (hs : s.WritesEntries) : s.Blind := by
  cases s with
  | resolveKey key => exact hs
  | _ => trivial

/-- Whatever else the schema checks or a statement returns is the same. -/
theorem Stmt.Blind.eval_eq {s : Stmt} (hs : s.Blind) (h : t.Alike crates u) :
    s.eval env u b = s.eval env t b := by
  cases s with
  | lockAccount id | setInternalPosting value | updateAccount balance version id | insertEntry v =>
      exact WritesEntries.eval_eq trivial h.sameEntries
  | clockTimestamp => rfl
  | lockTransaction id => rw [eval, eval, h.transactionIds]
  | findReversal id =>
      have hfound := h.find?_rel (p := fun row => row.reversesTransactionId = some id)
        fun _ _ => rfl
      rw [eval, eval, Tables.reversal?, Tables.reversal?]
      generalize t.transactions.find? _ = found at hfound ⊢
      generalize u.transactions.find? _ = found' at hfound ⊢
      cases hfound with
      | none => rfl
      | some hrow => rw [Option.map_some, Option.map_some, hrow.columns]
  | reversalPostings id => rw [eval, eval, Tables.transactionEntries, h.entries]; rfl
  | insertTransaction v =>
      rw [eval, eval, evalInsertTransaction, evalInsertTransaction, h.idempotencyKeys,
        h.transactionIds, h.reversedIds]
  | resolveKey key => exact hs.elim
  | insertAccount v =>
      have hids : u.accountIds = t.accountIds := by
        rw [Tables.accountIds, Tables.accountIds, h.accounts]
      have hnames : u.accountNames = t.accountNames := by
        rw [Tables.accountNames, Tables.accountNames, h.accounts]
      rw [eval, eval, evalInsertAccount, evalInsertAccount, hids, hnames]

/-! ## programs -/

/-- Two runs end the same, on ledgers alike. -/
def SameEnd (crates : Crates) {α : Type} :
    Except PgError (α × Tables × Backend) → Except PgError (α × Tables × Backend) → Prop
  | .ok (a, t, b), .ok (a', u, b') => a = a' ∧ b = b' ∧ t.Alike crates u
  | .error e, .error e' => e = e'
  | _, _ => False

/-- The program does the same on ledgers alike. -/
def Spi.Indifferent (crates : Crates) {α : Type} (x : Spi α) : Prop :=
  ∀ (env : Env) (t u : Tables) (b : Backend), t.Alike crates u →
    SameEnd crates (x.run env t b) (x.run env u b)

namespace Spi.Indifferent

variable {α β : Type}

/-- A program that sends nothing is indifferent. -/
theorem pure (a : α) : (Pure.pure a : Spi α).Indifferent crates := fun _ _ _ _ h => ⟨rfl, rfl, h⟩

/-- A program that fails is indifferent. -/
theorem fail (e : PgError) : (Spi.fail e : Spi α).Indifferent crates := fun _ _ _ _ _ => rfl

/-- Indifferent programs one after another are indifferent. -/
theorem bind {x : Spi α} {f : α → Spi β} (hx : x.Indifferent crates)
    (hf : ∀ a, (f a).Indifferent crates) : (x >>= f).Indifferent crates := by
  intro env t u b h
  have hend := hx env t u b h
  rw [run_bind, run_bind]
  cases hrun : x.run env t b with
  | error e =>
      cases hrun' : x.run env u b with
      | error e' =>
          rw [hrun, hrun'] at hend
          exact hend
      | ok result =>
          rw [hrun, hrun'] at hend
          exact hend.elim
  | ok result =>
      cases hrun' : x.run env u b with
      | error e' =>
          rw [hrun, hrun'] at hend
          exact hend.elim
      | ok result' =>
          obtain ⟨a, t₁, b₁⟩ := result
          obtain ⟨a', u₁, b₁'⟩ := result'
          rw [hrun, hrun'] at hend
          obtain ⟨rfl, rfl, halike⟩ := hend
          exact hf a env t₁ u₁ b₁ halike

/-- What follows a computation has to be indifferent only where the computation
succeeds. -/
theorem ofExcept_bind {x : Except PgError α} {f : α → Spi β}
    (hf : ∀ a, x = .ok a → (f a).Indifferent crates) :
    (Spi.ofExcept x >>= f).Indifferent crates := by
  cases x with
  | error e => exact fail e
  | ok a => exact hf a rfl

/-- Without the resolution of a key, a program is indifferent. -/
theorem of_blind {x : Spi α} (hx : x.All Stmt.Blind) : x.Indifferent crates := by
  induction x with
  | pure a => exact pure a
  | fail e => exact fail e
  | stmt s k ih =>
      intro env t u b h
      rw [run, run, hx.1.eval_eq h]
      cases s.eval env t b with
      | error e => exact rfl
      | ok effect =>
          exact ih effect.result (hx.2 effect.result) env _ _ _ (h.applyAll effect.writes)

/-- A statement that does not look at fingerprints is an indifferent program. -/
theorem send {s : Stmt} (hs : s.Blind) : (Spi.send s).Indifferent crates := of_blind (.send hs)

/-- Of the row that holds the key, only the identifier is used, and whether it
answers the request. -/
theorem resolveConflict {request : PostRequest} {hashes : PayloadHashes}
    (hhashes : payloadHashes crates request = .ok hashes) (key : Option Str) :
    (PgLedger.resolveConflict hashes key).Indifferent crates := by
  cases key with
  | none => exact fail _
  | some key =>
      intro env t u b h
      have hfound := h.find?_rel (p := fun row => row.idempotencyKey = some key) fun _ _ => rfl
      rw [PgLedger.resolveConflict, run_bind, run_bind, run_resolveKey, run_resolveKey, ok_bind,
        ok_bind, Tables.holder?, Tables.holder?]
      generalize t.transactions.find? _ = found at hfound ⊢
      generalize u.transactions.find? _ = found' at hfound ⊢
      cases hfound with
      | none => exact rfl
      | @some row row' hrow =>
          have hanswers := hrow.answers request
          rw [isFingerprint_iff_accepts hhashes, isFingerprint_iff_accepts hhashes] at hanswers
          have hid : row'.id = row.id := by rw [hrow.columns]
          dsimp only [Option.map_some]
          by_cases haccepts : hashes.accepts row.payloadHash
          · rw [if_pos haccepts, if_pos (hanswers.mp haccepts), hid]
            exact ⟨rfl, rfl, h⟩
          · rw [if_neg haccepts, if_neg (mt hanswers.mpr haccepts)]
            exact rfl

/-- `insert_transaction` is indifferent: of the row that it finds under its key
it only asks whether it answers the request. -/
theorem insertTransaction (request : PostRequest) (createdAt : Timestamp) :
    (PgLedger.insertTransaction crates request createdAt).Indifferent crates := by
  refine ofExcept_bind fun hashes hhashes => bind (send trivial) fun inserted => ?_
  cases inserted with
  | some id => exact pure _
  | none => exact resolveConflict hhashes _

/-- The posting engine is indifferent. -/
theorem post (request : PostRequest) : (PgLedger.post crates request).Indifferent crates := by
  refine ofExcept_bind fun _ _ => bind (send trivial) fun createdAt =>
    bind (insertTransaction request createdAt) fun outcome => ?_
  cases outcome with
  | replayed id => exact pure id
  | created id => exact of_blind ((postEntries_writesEntries _ _ _).mono fun _ hs => hs.blind)

/-- The lookup of a reversal returns identifiers only. -/
theorem findExisting (transactionId : Uuid) :
    (PgLedger.findExisting crates transactionId).Indifferent crates := by
  refine bind (send trivial) fun found => ?_
  cases found with
  | false => exact fail _
  | true => exact send trivial

end Spi.Indifferent

/-- The calls that post are indifferent. -/
theorem PostingCall.indifferent (call : PostingCall) :
    (call.program crates).Indifferent crates := by
  cases call with
  | post postings options =>
      exact .ofExcept_bind fun postings _ => .post _
  | transfer fromAccount toAccount amount options =>
      rw [program, ledgerTransfer]
      split
      · exact .fail _
      · split
        · exact .fail _
        · exact .post _
  | reverse transactionId options =>
      refine .bind (.findExisting transactionId) fun existing => ?_
      cases existing with
      | some existing => exact .pure existing
      | none => exact .bind (.send trivial) fun postings => .post _

/-- All calls are indifferent. -/
theorem Call.indifferent (call : Call) : (call.program crates).Indifferent crates := by
  cases call with
  | createAccount name asset balancePolicy metadata => exact .send trivial
  | posting call => exact call.indifferent

/-! ## calls and runs -/

/-- A call answers the same on ledgers alike, and leaves ledgers alike. -/
theorem Call.exec_alike (call : Call) (session : Session) (h : t.Alike crates u) :
    (call.exec crates session t).map Prod.fst = (call.exec crates session u).map Prod.fst ∧
      (call.after crates session t).Alike crates (call.after crates session u) := by
  have hend := call.indifferent session.env t u session.backend h
  rw [after, after, exec, exec]
  cases hrun : (call.program crates).run session.env t session.backend with
  | error e =>
      cases hrun' : (call.program crates).run session.env u session.backend with
      | error e' =>
          rw [hrun, hrun'] at hend
          obtain rfl : e = e' := hend
          exact ⟨rfl, h⟩
      | ok result =>
          rw [hrun, hrun'] at hend
          exact hend.elim
  | ok result =>
      cases hrun' : (call.program crates).run session.env u session.backend with
      | error e' =>
          rw [hrun, hrun'] at hend
          exact hend.elim
      | ok result' =>
          rw [hrun, hrun'] at hend
          obtain ⟨hid, -, halike⟩ := hend
          exact ⟨congrArg Except.ok hid, halike⟩

/-- A row rewritten to the older format answers the same requests. -/
theorem TransactionRow.Alike.unversion (hdigests : crates.Digests) {row row' : TransactionRow}
    (h : row.Alike crates row') (id : Uuid) (request : PostRequest) :
    (row.unversion crates id request).Alike crates row' where
  columns := by
    obtain ⟨hash, heq⟩ := row.unversion_eq crates id request
    rw [heq]
    exact h.columns
  answers other := (row.isFingerprint_unversion hdigests id request).trans (h.answers other)

/-- Rewriting rows to the older format leads to a ledger alike. -/
theorem Event.unversion_alike (hdigests : crates.Digests) (h : t.Alike crates u) (id : Uuid)
    (request : PostRequest) : ((Event.unversion id request).after crates t).Alike crates u where
  accounts := h.accounts
  transactions := List.forall₂_map_left_iff.mpr
    (h.transactions.imp fun _ _ hrow => hrow.unversion hdigests id request)
  entries := h.entries

def Event.isCall : Event → Bool
  | .call _ _ => true
  | .unversion _ _ => false

/-- **The run lemma**: a run with fingerprints of the older format and its
calls alone lead to ledgers alike. -/
theorem runLedger_alike (hdigests : crates.Digests) (events : List Event) :
    (runLedger crates events).Alike crates (runLedger crates (events.filter Event.isCall)) := by
  have hfold (t u : Tables) (h : t.Alike crates u) :
      (events.foldl (fun t event => event.after crates t) t).Alike crates
        ((events.filter Event.isCall).foldl (fun t event => event.after crates t) u) := by
    induction events generalizing t u with
    | nil => exact h
    | cons event events ih =>
        cases event with
        | call made session => exact ih _ _ (made.exec_alike session h).2
        | unversion id request => exact ih _ _ (Event.unversion_alike hdigests h id request)
  exact hfold _ _ (.refl .empty)

/-! ## what clients see -/

open Sql in
/-- The checks look at the accounts, the entries, and the links of the
transactions. -/
theorem Tables.Alike.ledgerValidate_eq (h : t.Alike crates u) :
    ledgerValidate t = ledgerValidate u := by
  have hmoves (id : Uuid) : u.transactionEntries id = t.transactionEntries id := by
    rw [transactionEntries, transactionEntries, h.entries]
  have hbalance : transactionBalance t = transactionBalance u := by
    rw [transactionBalance, transactionBalance, h.entries]
  have hcached : cachedBalances t = cachedBalances u := by
    simp only [cachedBalances, accountEntries, h.accounts, h.entries]
  have hversions : versionSequence t = versionSequence u := by
    simp only [versionSequence, accountEntries, h.accounts, h.entries]
  have hchain : balanceChain t = balanceChain u := by
    rw [balanceChain, balanceChain, h.entries]
  have hassets : assetConsistency t = assetConsistency u := by
    rw [assetConsistency, assetConsistency, h.accounts, h.entries]
  -- the two checks that start from the transactions
  have hminimum : minimumEntries t = minimumEntries u := by
    rw [minimumEntries, minimumEntries, h.entries]
    have hon (row row' : TransactionRow) (hrow : row.Alike crates row') (e : EntryRow) :
        e.transactionId = row.id ↔ e.transactionId = row'.id := by rw [hrow.columns]
    have hjoined := leftJoin_rel hon h.transactions t.entries
    have hkey (p p' : TransactionRow × Option EntryRow)
        (hp : p.1.Alike crates p'.1 ∧ p.2 = p'.2) : p.1.id = p'.1.id := by rw [hp.1.columns]
    have hgroups := groupBy_rel hkey hjoined
    refine countWhere_congr (hgroups.imp fun g g' hg => ?_)
    have hentries : g.2.map (·.2) = g'.2.map (·.2) := by
      rw [← List.forall₂_eq_eq_eq, List.forall₂_map_left_iff, List.forall₂_map_right_iff]
      exact hg.2.imp fun _ _ hp => hp.2
    have hfound := congrArg (List.filterMap id) hentries
    simp only [List.filterMap_map, Function.id_comp] at hfound
    rw [hfound]
  have hreversals : reversalConsistency t = reversalConsistency u := by
    refine countWhere_congr (h.transactions.imp fun row row' hrow => ?_)
    simp only [hmoves]
    rw [hrow.columns]
  simp only [ledgerValidate, checks, List.mapM_cons, List.mapM_nil, runCheck, hbalance, hcached,
    hversions, hchain, hminimum, hassets, hreversals]

/-- What clients see of a ledger: the answer of every call, and what the views
and functions read.  A row that `ledger_transaction` returns may carry another
fingerprint, of the same request. -/
structure Tables.SeenAlike (crates : Crates) (t u : Tables) : Prop where
  calls : ∀ (call : Call) (session : Session),
    (call.exec crates session t).map Prod.fst = (call.exec crates session u).map Prod.fst
  balances : t.ledgerAccountBalances = u.ledgerAccountBalances
  summaries : t.ledgerTransactionSummary = u.ledgerTransactionSummary
  account : ∀ id, t.ledgerAccount id = u.ledgerAccount id
  accountNamed : ∀ name, t.ledgerAccountNamed name = u.ledgerAccountNamed name
  balance : ∀ id, t.ledgerBalance id = u.ledgerBalance id
  transaction : ∀ id, Option.Rel (TransactionRow.Alike crates) (t.ledgerTransaction id)
    (u.ledgerTransaction id)
  entries : ∀ id es, t.LedgerEntries id es ↔ u.LedgerEntries id es
  postingNamed : ∀ name amount, t.ledgerPostingNamed name amount = u.ledgerPostingNamed name amount
  validate : ledgerValidate t = ledgerValidate u

/-- Clients see no difference between ledgers alike. -/
theorem Tables.Alike.seenAlike (h : t.Alike crates u) : t.SeenAlike crates u where
  calls call session := (call.exec_alike session h).1
  balances := by rw [ledgerAccountBalances, ledgerAccountBalances, h.accounts]
  summaries := by
    have hentries (id : Uuid) : u.transactionEntries id = t.transactionEntries id := by
      rw [transactionEntries, transactionEntries, h.entries]
    simp only [ledgerTransactionSummary, hentries]
    exact (h.map_eq fun _ _ => rfl).symm
  account id := by rw [ledgerAccount, ledgerAccount, account?, account?, h.accounts]
  accountNamed name := by rw [ledgerAccountNamed, ledgerAccountNamed, h.accounts]
  balance id := by rw [ledgerBalance, ledgerBalance, account?, account?, h.accounts]
  transaction id := h.find?_rel fun _ _ => rfl
  entries id es := by
    have hentries : u.transactionEntries id = t.transactionEntries id := by
      rw [transactionEntries, transactionEntries, h.entries]
    constructor
    · intro hread
      exact ⟨hentries ▸ hread.rows, hread.order⟩
    · intro hread
      exact ⟨hentries ▸ hread.rows, hread.order⟩
  postingNamed name amount := by
    rw [ledgerPostingNamed, ledgerPostingNamed, ledgerAccountNamed, ledgerAccountNamed, h.accounts]
  validate := h.ledgerValidate_eq

/-- **Fingerprint formats**: whenever and however often rows are rewritten to
the older format, clients see what they would see without it, except for the
rewritten fingerprints themselves. -/
theorem formatsInvisible (hdigests : crates.Digests) (events : List Event) :
    (runLedger crates events).SeenAlike crates
      (runLedger crates (events.filter Event.isCall)) :=
  (runLedger_alike hdigests events).seenAlike

theorem formatsInvisible_fixture : (runLedger .concrete fixtureRun).SeenAlike .concrete
    (runLedger .concrete (fixtureRun.filter Event.isCall)) :=
  formatsInvisible Crates.concrete_digests fixtureRun

end PgLedger
