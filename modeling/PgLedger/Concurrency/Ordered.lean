import Mathlib.Data.List.Dedup
import PgLedger.Concurrency.Disciplined
import PgLedger.Spi.Effects

/-!
# PgLedger.Concurrency.Ordered

The order in which the posting calls lock.  A reversal locks its original
before anything else; then a call claims its idempotency key, and with it the
link to the original; then it locks its accounts by their identifiers.  The
rank of a claim is its place in this order, and a statement is ordered if
whatever it may have to wait for is held already or ranks above all that is
held.

Like the discipline, the order is a property of programs, but here it matters
what a program holds and not only that it holds enough.
-/

namespace PgLedger

/-- The place of a claim in the order of locking. -/
def Claim.rank : Claim → Nat
  | .transaction _ => 0
  | .idempotencyKey _ => 1
  | .reversal _ => 1
  | .account id => 2 + id.toNat
  | _ => 2 + 2 ^ 128

/-- What a statement locks, or inserts into the unique indexes of its keys.
The identifiers it draws are not among it. -/
def Stmt.needs : Stmt → List Claim
  | .lockTransaction id => [.transaction id]
  | .insertTransaction v => v.idempotencyKey.toList.map .idempotencyKey ++
      v.reversesTransactionId.toList.map .reversal
  | .lockAccount id => [.account id]
  | .updateAccount _ _ id => [.account id]
  | _ => []

/-- The statement waits only for what ranks above all claims, and it writes
entries only of accounts that are locked. -/
def Stmt.Ordered (held : List Claim) : Stmt → Prop
  | .insertEntry v => .account v.accountId ∈ held
  | .insertAccount _ => False
  | s => ∀ c ∈ s.needs, c ∈ held ∨ ∀ d ∈ held, d.rank < c.rank

/-- All that an ordered statement waits for ranks above what is held. -/
theorem Stmt.Ordered.needs_above {held : List Claim} {s : Stmt} (h : s.Ordered held) :
    ∀ c ∈ s.needs, c ∈ held ∨ ∀ d ∈ held, d.rank < c.rank := by
  cases s with
  | insertEntry v => exact fun _ hc => absurd hc List.not_mem_nil
  | insertAccount v => exact h.elim
  | clockTimestamp | lockTransaction id | findReversal id | reversalPostings id
  | insertTransaction v | resolveKey key | lockAccount id | setInternalPosting value
  | updateAccount balance version id => exact h

/-- The claims that a statement with this result can add. -/
def Stmt.Adds : (s : Stmt) → s.Result → List Claim → Prop
  | .lockTransaction id, found, cs => cs = if found then [.transaction id] else []
  | .insertTransaction v, some id, cs => cs = .transaction id ::
      (v.idempotencyKey.toList.map .idempotencyKey ++
        v.reversesTransactionId.toList.map .reversal)
  | .lockAccount id, some row, cs => cs = [.account id] ∧ row.id = id
  | .updateAccount _ _ id, _, cs => cs ⊆ [.account id]
  | .insertEntry v, _, cs => ∃ id, cs = [.entry id, .entryVersion v.accountId v.accountVersion]
  | .insertAccount _, _, _ => True
  | _, _, cs => cs = []

/-- The executor adds no others. -/
theorem Stmt.eval_adds {env : Env} {t : Tables} {b : Backend} {s : Stmt}
    {effect : Effect s.Result} (h : s.eval env t b = .ok effect) :
    s.Adds effect.result (s.locks effect.result ++ effect.writes.flatMap (·.claims)) := by
  cases s with
  | insertTransaction v =>
      rcases evalInsertTransaction_eq_ok h with ⟨-, rfl⟩ | ⟨row, rfl, -, -, rfl⟩
      · rfl
      · exact List.append_nil _
  | lockAccount id =>
      obtain rfl := Except.ok.inj h
      cases hrow : t.account? id with
      | none => simp [Adds, locks]
      | some row => simp [Adds, locks, Tables.id_of_account? hrow]
  | updateAccount balance version id =>
      rcases evalUpdateAccount_eq_ok h with ⟨-, rfl⟩ | ⟨row, row', hrow, hrow', rfl⟩
      · exact List.nil_subset _
      · have hid : row'.id = id :=
          (AccountRow.withBalance_eq_ok hrow').2.1.trans (Tables.id_of_account? hrow)
        rw [← hid]
        exact List.Subset.refl _
  | insertEntry v =>
      obtain ⟨row, rfl, -, -, rfl⟩ := evalInsertEntry_eq_ok h
      exact ⟨row.id, rfl⟩
  | insertAccount v => trivial
  | lockTransaction id =>
      obtain rfl := Except.ok.inj h
      exact List.append_nil _
  | clockTimestamp | findReversal id | reversalPostings id | resolveKey key
  | setInternalPosting value =>
      obtain rfl := Except.ok.inj h
      rfl

namespace Spi

variable {α β : Type}

/-- Sent with the claims `held`, the program is ordered and ends with claims
and a result of the kind `Q`. -/
def Ordered (Q : List Claim → α → Prop) : List Claim → Spi α → Prop
  | held, .pure a => Q held a
  | _, .fail _ => True
  | held, .stmt s k => s.Ordered held ∧ ∀ r cs, s.Adds r cs → Ordered Q (held ++ cs) (k r)

/-- Less may be shown at the end, and what was held is still held there. -/
theorem Ordered.imp {Q Q' : List Claim → α → Prop} {x : Spi α} {held : List Claim}
    (h : x.Ordered Q held) (hQ : ∀ c a, held ⊆ c → Q c a → Q' c a) : x.Ordered Q' held := by
  induction x generalizing held with
  | pure a => exact hQ held a (List.Subset.refl _) h
  | fail e => trivial
  | stmt s k ih =>
      refine ⟨h.1, fun r cs hcs => ih r (h.2 r cs hcs) fun c a hsub hc => ?_⟩
      exact hQ c a (List.Subset.trans (List.subset_append_left _ _) hsub) hc

/-- **Sequencing**: the second part has to be ordered with the claims that the
first ends with. -/
theorem Ordered.bind {Q : List Claim → β → Prop} {x : Spi α} {f : α → Spi β} {held : List Claim}
    (h : x.Ordered (fun c a => (f a).Ordered Q c) held) : (x >>= f).Ordered Q held := by
  induction x generalizing held with
  | pure a => exact h
  | fail e => trivial
  | stmt s k ih => exact ⟨h.1, fun r cs hcs => ih r (h.2 r cs hcs)⟩

/-- A computation locks nothing. -/
theorem Ordered.ofExcept {Q : List Claim → α → Prop} {x : Except PgError α} {held : List Claim}
    (h : ∀ a, x = .ok a → Q held a) : (Spi.ofExcept x).Ordered Q held := by
  cases x with
  | error e => trivial
  | ok a => exact h a rfl

/-- A single statement. -/
theorem Ordered.send {s : Stmt} {Q : List Claim → s.Result → Prop} {held : List Claim}
    (hs : s.Ordered held) (hQ : ∀ r cs, s.Adds r cs → Q (held ++ cs) r) :
    (Spi.send s).Ordered Q held := ⟨hs, hQ⟩

/-- A statement that neither needs nor adds a claim. -/
theorem Ordered.quiet {s : Stmt} {Q : List Claim → s.Result → Prop} {held : List Claim}
    (hs : s.Ordered held) (hadds : ∀ r cs, s.Adds r cs → cs = []) (hQ : ∀ r, Q held r) :
    (Spi.send s).Ordered Q held := by
  refine .send hs fun r cs hcs => ?_
  rw [hadds r cs hcs, List.append_nil]
  exact hQ r

end Spi

/-! ## the engine -/

variable {crates : Crates} {held : List Claim}

/-- What the insert of a transaction adds ranks below the accounts. -/
theorem rank_insertTransaction {v : TransactionValues} {result : Option Uuid} {cs : List Claim}
    (h : (Stmt.insertTransaction v).Adds result cs) : ∀ c ∈ cs, c.rank < 2 := by
  intro c hc
  cases result with
  | none =>
      obtain rfl : cs = [] := h
      exact absurd hc List.not_mem_nil
  | some id =>
      obtain rfl := h
      rw [List.mem_cons, List.mem_append, List.mem_map, List.mem_map] at hc
      rcases hc with rfl | ⟨key, -, rfl⟩ | ⟨original, -, rfl⟩
      · exact Nat.zero_lt_two
      · exact Nat.one_lt_two
      · exact Nat.one_lt_two

/-- The key and the link come after the original, and before any account. -/
theorem insertTransaction_ordered {request : PostRequest} {createdAt : Timestamp}
    (h : ∀ c ∈ held, c.rank = 0) :
    (insertTransaction crates request createdAt).Ordered (fun c _ => ∀ d ∈ c, d.rank < 2)
      held := by
  refine .bind (.ofExcept fun hashes _ => .bind (.send (fun c hc => .inr fun d hd => ?_)
    fun result cs hcs => ?_))
  · rw [h d hd]
    rcases List.mem_append.mp hc with hkey | hlink
    · obtain ⟨key, -, rfl⟩ := List.mem_map.mp hkey
      exact Nat.one_pos
    · obtain ⟨original, -, rfl⟩ := List.mem_map.mp hlink
      exact Nat.one_pos
  · have hlow : ∀ d ∈ held ++ cs, d.rank < 2 := by
      intro d hd
      cases List.mem_append.mp hd with
      | inl hold =>
          rw [h d hold]
          exact Nat.zero_lt_two
      | inr hnew => exact rank_insertTransaction hcs d hnew
    cases result with
    | some id => exact hlow
    | none =>
        cases request.idempotencyKey with
        | none => trivial
        | some key =>
            refine .bind (.quiet (fun _ hc => absurd hc List.not_mem_nil) (fun _ _ h => h)
              fun found => ?_)
            cases found with
            | none => trivial
            | some found =>
                show (if _ then _ else _ : Spi InsertOutcome).Ordered _ _
                split
                · exact hlow
                · trivial

/-- The accounts are locked in the order of their identifiers. -/
theorem selectForUpdate_ordered {ids : List Uuid} (hsorted : ids.Pairwise (· < ·))
    (h : ∀ c ∈ held, ∀ id ∈ ids, c.rank < (Claim.account id).rank) :
    (selectForUpdate ids).Ordered (fun c rows => ∀ row ∈ rows, .account row.id ∈ c) held := by
  induction ids generalizing held with
  | nil => exact fun _ hrow => absurd hrow List.not_mem_nil
  | cons id ids ih =>
      rw [List.pairwise_cons] at hsorted
      refine .bind (.send (fun c hc => .inr fun d hd => ?_) fun found cs hcs => .bind ?_)
      · rw [List.mem_singleton.mp hc]
        exact h d hd id List.mem_cons_self
      · have hadded : ∀ c ∈ cs, c = .account id := by
          cases found with
          | none =>
              obtain rfl : cs = [] := hcs
              exact fun c hc => absurd hc List.not_mem_nil
          | some row =>
              obtain ⟨rfl, -⟩ := hcs
              exact fun c hc => List.mem_singleton.mp hc
        refine (ih hsorted.2 fun c hc id' hid' => ?_).imp fun c rows hsub hrows row hrow => ?_
        · cases List.mem_append.mp hc with
          | inl hold => exact h c hold id' (List.mem_cons_of_mem _ hid')
          | inr hnew =>
              rw [hadded c hnew]
              have hlt : id.toNat < id'.toNat := hsorted.1 id' hid'
              show 2 + id.toNat < 2 + id'.toNat
              omega
        · cases List.mem_append.mp hrow with
          | inl hfound =>
              obtain rfl := Option.mem_toList.mp hfound
              obtain ⟨rfl, hid⟩ := hcs
              rw [hid]
              exact hsub (List.mem_append_right _ (List.mem_singleton_self _))
          | inr hrest => exact hrows row hrest

/-- The accounts are locked by their identifiers, in ascending order. -/
theorem accountIds_sorted (postings : List LedgerPosting) :
    (accountIds postings).Pairwise (· < ·) := by
  have hle : (accountIds postings).Pairwise (· ≤ ·) := List.pairwise_insertionSort _ _
  have hne : (accountIds postings).Nodup :=
    (List.perm_insertionSort _ _).nodup_iff.mpr (List.nodup_dedup _)
  refine (hle.and hne).imp fun hboth => ?_
  exact BitVec.lt_of_le_ne hboth.1 hboth.2

/-- The accounts come after everything else, each after those below it. -/
theorem lockAccounts_ordered (postings : List LedgerPosting) (h : ∀ c ∈ held, c.rank < 2) :
    (lockAccounts postings).Ordered (fun c accounts =>
      ∀ id account, accounts.lookup id = some account → .account id ∈ c) held := by
  have hbelow : ∀ c ∈ held, ∀ id ∈ accountIds postings, c.rank < (Claim.account id).rank := by
    intro c hc id _
    have hrank := h c hc
    show c.rank < 2 + id.toNat
    omega
  refine .bind ((selectForUpdate_ordered (accountIds_sorted postings) hbelow).imp
    fun c rows _ hrows => ?_)
  split
  · trivial
  · intro id account haccount
    obtain ⟨row, hrow, heq⟩ := List.mem_map.mp (Assoc.mem_of_lookup haccount)
    obtain ⟨rfl, -⟩ := Prod.mk.inj heq
    exact hrows row hrow

/-- The loop updates accounts that are locked and waits for nothing. -/
theorem postAll_ordered {transactionId : Uuid} {createdAt : Timestamp} {accounts : AccountMap}
    (postings : List LedgerPosting)
    (haccounts : ∀ id account, accounts.lookup id = some account → .account id ∈ held) :
    (postAll transactionId createdAt accounts postings).Ordered (fun _ _ => True) held := by
  induction postings generalizing accounts held with
  | nil => trivial
  | cons posting postings ih =>
      refine .bind ?_
      unfold postOne
      split
      · trivial
      · next account haccount =>
        have hposting := haccounts _ account haccount
        refine .bind (.ofExcept fun current _ => .bind ?_)
        refine .send (fun _ hc => .inl ?_) fun _ _ _ => .bind ?_
        · rw [List.mem_singleton.mp hc]
          exact hposting
        refine .send (List.mem_append_left _ hposting) fun _ cs' _ =>
          ih fun id account' hlookup => ?_
        refine List.mem_append_left _ (List.mem_append_left _ ?_)
        simp only [Assoc.lookup_modify] at hlookup
        split at hlookup
        · obtain ⟨old, hold, -⟩ := Option.map_eq_some_iff.mp hlookup
          exact haccounts id old hold
        · exact haccounts id account' hlookup

/-- The setting is no lock. -/
theorem setInternalPosting_ordered {value : Str} {Q : List Claim → Unit → Prop} (h : Q held ()) :
    (Spi.send (.setInternalPosting value)).Ordered Q held :=
  .quiet (fun _ hc => absurd hc List.not_mem_nil) (fun _ _ h => h) fun _ => h

/-- Writing the entries locks the accounts and then nothing more. -/
theorem postEntries_ordered {postings : List LedgerPosting} {transactionId : Uuid}
    {createdAt : Timestamp} (h : ∀ c ∈ held, c.rank < 2) :
    (postEntries crates postings transactionId createdAt).Ordered (fun _ _ => True) held := by
  refine .bind ((lockAccounts_ordered _ h).imp fun c accounts _ haccounts => ?_)
  refine .bind (.ofExcept fun _ _ => .bind (setInternalPosting_ordered (.bind ?_)))
  refine (postAll_ordered postings haccounts).imp fun c' accounts' _ _ => ?_
  exact .bind (setInternalPosting_ordered trivial)

/-- The engine locks the key, the link and then the accounts. -/
theorem post_ordered {request : PostRequest} (h : ∀ c ∈ held, c.rank = 0) :
    (post crates request).Ordered (fun _ _ => True) held := by
  refine .bind (.ofExcept fun _ _ => .bind ?_)
  refine .quiet (fun _ hc => absurd hc List.not_mem_nil) (fun _ _ h => h) fun createdAt => .bind ?_
  refine (insertTransaction_ordered h).imp fun c outcome _ hlow => ?_
  cases outcome with
  | replayed id => trivial
  | created id => exact postEntries_ordered hlow

/-- The lookup of a reversal locks the original first of all. -/
theorem findExisting_ordered (transactionId : Uuid) :
    (findExisting crates transactionId).Ordered (fun c _ => ∀ d ∈ c, d.rank = 0) [] := by
  refine .bind (.send (fun c _ => .inr fun d hd => absurd hd List.not_mem_nil)
    fun found cs hcs => ?_)
  obtain rfl := hcs
  cases found with
  | false => trivial
  | true =>
      refine .quiet (fun _ hc => absurd hc List.not_mem_nil) (fun _ _ h => h) fun _ d hd => ?_
      rw [List.mem_singleton.mp hd]
      rfl

/-- **The order of locking**: every posting call keeps it. -/
theorem PostingCall.ordered (crates : Crates) (call : PostingCall) :
    (call.program crates).Ordered (fun _ _ => True) [] := by
  have hnone : ∀ c ∈ ([] : List Claim), c.rank = 0 := fun c hc => absurd hc List.not_mem_nil
  cases call with
  | post elements options => exact .bind (.ofExcept fun postings _ => post_ordered hnone)
  | transfer fromAccount toAccount amount options =>
      rw [program, ledgerTransfer]
      split
      · trivial
      · split
        · trivial
        · exact post_ordered hnone
  | reverse transactionId options =>
      refine .bind ((findExisting_ordered transactionId).imp fun c existing _ hlocked => ?_)
      cases existing with
      | some id => trivial
      | none =>
          refine .bind (.quiet (fun _ hc => absurd hc List.not_mem_nil) (fun _ _ h => h)
            fun postings => ?_)
          exact post_ordered hlocked

end PgLedger
