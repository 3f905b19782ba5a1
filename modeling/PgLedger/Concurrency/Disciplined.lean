import PgLedger.Concurrency

/-!
# PgLedger.Concurrency.Disciplined

The locking discipline of the posting calls.  A call looks for a reversal,
and reads and links an original, only with the original locked; it updates an
account only with the account locked; it writes entries only of a transaction
that it has inserted.  And when a row it relies on is not there, it fails.

The discipline is a property of programs.  It is stated like a weakest
precondition: with what a program holds at the start, and what must be true
of what it holds at the end.
-/

namespace PgLedger

/-- The statement is sent with the claims it needs. -/
def Stmt.Disciplined (held : List Claim) : Stmt → Prop
  | .findReversal id => .transaction id ∈ held
  | .reversalPostings id => .transaction id ∈ held
  | .insertTransaction v =>
      ∀ original, v.reversesTransactionId = some original → .transaction original ∈ held
  | .updateAccount _ _ id => .account id ∈ held
  | .insertEntry v => .transaction v.transactionId ∈ held
  | .insertAccount _ => False
  | _ => True

/-- A result after which the call must fail, since it may be different at the
time of the commit. -/
def Stmt.Dooms : (s : Stmt) → s.Result → Prop
  | .lockTransaction _, found => found = false
  | .resolveKey _, row => row = none
  | _, _ => False

/-- The claims that the result of a statement tells of. -/
def Stmt.gains : (s : Stmt) → s.Result → List Claim
  | .lockTransaction id, found => if found then [.transaction id] else []
  | .lockAccount _, row => row.toList.map fun row => .account row.id
  | .insertTransaction _, id => id.toList.map .transaction
  | _, _ => []

namespace Spi

variable {α β : Type}

/-- Sent with the claims `held`, the program is disciplined and ends with
claims and a result of the kind `Q`. -/
def Disciplined (Q : List Claim → α → Prop) : List Claim → Spi α → Prop
  | held, .pure a => Q held a
  | _, .fail _ => True
  | held, .stmt s k => s.Disciplined held ∧ ∀ r, (s.Dooms r → ∃ e, k r = .fail e) ∧
      Disciplined Q (held ++ s.gains r) (k r)

/-- Less may be shown at the end, and what was held is still held there. -/
theorem Disciplined.imp {Q Q' : List Claim → α → Prop} {x : Spi α} {held : List Claim}
    (h : x.Disciplined Q held) (hQ : ∀ c a, held ⊆ c → Q c a → Q' c a) :
    x.Disciplined Q' held := by
  induction x generalizing held with
  | pure a => exact hQ held a (List.Subset.refl _) h
  | fail e => trivial
  | stmt s k ih =>
      refine ⟨h.1, fun r => ⟨(h.2 r).1, ih r (h.2 r).2 fun c a hsub hc => ?_⟩⟩
      exact hQ c a (List.Subset.trans (List.subset_append_left _ _) hsub) hc

/-- **Sequencing**: the second part has to be disciplined with the claims that
the first ends with. -/
theorem Disciplined.bind {Q : List Claim → β → Prop} {x : Spi α} {f : α → Spi β}
    {held : List Claim} (h : x.Disciplined (fun c a => (f a).Disciplined Q c) held) :
    (x >>= f).Disciplined Q held := by
  induction x generalizing held with
  | pure a => exact h
  | fail e => trivial
  | stmt s k ih =>
      refine ⟨h.1, fun r => ⟨fun hdooms => ?_, ih r (h.2 r).2⟩⟩
      obtain ⟨e, he⟩ := (h.2 r).1 hdooms
      refine ⟨e, ?_⟩
      show (k r).bind f = _
      rw [he]
      rfl

/-- A computation claims nothing. -/
theorem Disciplined.ofExcept {Q : List Claim → α → Prop} {x : Except PgError α}
    {held : List Claim} (h : ∀ a, x = .ok a → Q held a) : (Spi.ofExcept x).Disciplined Q held := by
  cases x with
  | error e => trivial
  | ok a => exact h a rfl

/-- A statement that no failure depends on. -/
theorem Disciplined.send {s : Stmt} {Q : List Claim → s.Result → Prop} {held : List Claim}
    (hs : s.Disciplined held) (hdooms : ∀ r, ¬ s.Dooms r) (hQ : ∀ r, Q (held ++ s.gains r) r) :
    (Spi.send s).Disciplined Q held :=
  ⟨hs, fun r => ⟨fun h => absurd h (hdooms r), hQ r⟩⟩

/-- A statement that adds no claim either. -/
theorem Disciplined.quiet {s : Stmt} {Q : List Claim → s.Result → Prop} {held : List Claim}
    (hs : s.Disciplined held) (hdooms : ∀ r, ¬ s.Dooms r) (hgains : ∀ r, s.gains r = [])
    (hQ : ∀ r, Q held r) : (Spi.send s).Disciplined Q held := by
  refine .send hs hdooms fun r => ?_
  rw [hgains, List.append_nil]
  exact hQ r

/-- Holding more does no harm. -/
theorem Disciplined.more {x : Spi α} {held held' : List Claim}
    (h : x.Disciplined (fun _ _ => True) held) (hsub : held ⊆ held') :
    x.Disciplined (fun _ _ => True) held' := by
  induction x generalizing held held' with
  | pure a => trivial
  | fail e => trivial
  | stmt s k ih =>
      obtain ⟨hs, hrest⟩ := h
      refine ⟨?_, fun r => ⟨(hrest r).1, ih r (hrest r).2 ?_⟩⟩
      · cases s with
        | findReversal id => exact hsub hs
        | reversalPostings id => exact hsub hs
        | insertTransaction v => exact fun original horiginal => hsub (hs original horiginal)
        | updateAccount balance version id => exact hsub hs
        | insertEntry v => exact hsub hs
        | insertAccount v => exact hs
        | clockTimestamp | lockTransaction id | resolveKey key | lockAccount id
        | setInternalPosting value => trivial
      · refine List.append_subset.mpr ⟨?_, List.subset_append_right _ _⟩
        exact List.Subset.trans hsub (List.subset_append_left _ _)

end Spi

/-! ## the engine -/

variable {crates : Crates} {held : List Claim}

/-- The original must be locked; the new transaction is claimed. -/
theorem insertTransaction_disciplined {request : PostRequest} {createdAt : Timestamp}
    (h : ∀ original, request.reversesTransactionId = some original → .transaction original ∈ held) :
    (insertTransaction crates request createdAt).Disciplined
      (fun c outcome => ∀ id, outcome = .created id → .transaction id ∈ c) held := by
  refine .bind (.ofExcept fun hashes _ => .bind (.send h (fun _ => not_false) fun result => ?_))
  cases result with
  | some id =>
      intro id' hid
      obtain rfl := InsertOutcome.created.inj hid
      exact List.mem_append_right _ (List.mem_singleton_self _)
  | none =>
      cases request.idempotencyKey with
      | none => trivial
      | some key =>
          refine ⟨trivial, fun found => ⟨fun hnone => ?_, ?_⟩⟩
          · obtain rfl : found = none := hnone
            exact ⟨_, rfl⟩
          · cases found with
            | none => trivial
            | some found =>
                obtain ⟨id, existing⟩ := found
                show (if _ then _ else _ : Spi InsertOutcome).Disciplined _ _
                split
                · exact fun id' hid => InsertOutcome.noConfusion hid
                · trivial

/-- The rows that are returned are locked. -/
theorem selectForUpdate_disciplined (ids : List Uuid) : (selectForUpdate ids).Disciplined
    (fun c rows => ∀ row ∈ rows, .account row.id ∈ c) held := by
  induction ids generalizing held with
  | nil => exact fun _ h => absurd h List.not_mem_nil
  | cons id ids ih =>
      refine .bind
        (.send trivial (fun _ => not_false) fun found => .bind (ih.imp fun c rows hsub hrows => ?_))
      intro row hrow
      cases List.mem_append.mp hrow with
      | inl hfound =>
          obtain rfl := Option.mem_toList.mp hfound
          exact hsub (List.mem_append_right _ (List.mem_singleton_self _))
      | inr hrest => exact hrows row hrest

/-- The accounts that are returned are locked. -/
theorem lockAccounts_disciplined (postings : List LedgerPosting) :
    (lockAccounts postings).Disciplined (fun c accounts =>
      ∀ id account, accounts.lookup id = some account → .account id ∈ c) held := by
  refine .bind ((selectForUpdate_disciplined _).imp fun c rows _ hrows => ?_)
  split
  · trivial
  · intro id account haccount
    obtain ⟨row, hrow, heq⟩ := List.mem_map.mp (Assoc.mem_of_lookup haccount)
    obtain ⟨rfl, -⟩ := Prod.mk.inj heq
    exact hrows row hrow

/-- The loop needs the new transaction and the accounts. -/
theorem postAll_disciplined {transactionId : Uuid} {createdAt : Timestamp} {accounts : AccountMap}
    (postings : List LedgerPosting) (htransaction : .transaction transactionId ∈ held)
    (haccounts : ∀ id account, accounts.lookup id = some account → .account id ∈ held) :
    (postAll transactionId createdAt accounts postings).Disciplined (fun _ _ => True) held := by
  induction postings generalizing accounts with
  | nil => trivial
  | cons posting postings ih =>
      refine .bind ?_
      unfold postOne
      split
      · trivial
      · next account haccount =>
        have hposting := haccounts _ account haccount
        refine .bind (.ofExcept fun current _ => .bind ?_)
        refine .quiet hposting (fun _ => not_false) (fun _ => rfl) fun _ => .bind ?_
        refine .quiet htransaction (fun _ => not_false) (fun _ => rfl) fun _ =>
          ih fun id account' hlookup => ?_
        simp only [Assoc.lookup_modify] at hlookup
        split at hlookup
        · obtain ⟨old, hold, -⟩ := Option.map_eq_some_iff.mp hlookup
          exact haccounts id old hold
        · exact haccounts id account' hlookup

/-- Writing the entries needs the new transaction; it locks the accounts
itself. -/
theorem postEntries_disciplined {postings : List LedgerPosting} {transactionId : Uuid}
    {createdAt : Timestamp} (h : .transaction transactionId ∈ held) :
    (postEntries crates postings transactionId createdAt).Disciplined (fun _ _ => True) held := by
  refine .bind ((lockAccounts_disciplined _).imp fun c accounts hsub haccounts => ?_)
  refine .bind (.ofExcept fun _ _ => .bind ?_)
  refine .quiet trivial (fun _ => not_false) (fun _ => rfl) fun _ => .bind ?_
  refine (postAll_disciplined postings (hsub h) haccounts).imp fun c' accounts' _ _ => ?_
  exact .bind (.quiet trivial (fun _ => not_false) (fun _ => rfl) fun _ => trivial)

/-- The engine needs the original of a reversal, if there is one. -/
theorem post_disciplined {request : PostRequest}
    (h : ∀ original, request.reversesTransactionId = some original → .transaction original ∈ held) :
    (post crates request).Disciplined (fun _ _ => True) held := by
  refine .bind (.ofExcept fun _ _ => .bind ?_)
  refine .quiet trivial (fun _ => not_false) (fun _ => rfl) fun createdAt => .bind ?_
  refine (insertTransaction_disciplined h).imp fun c outcome _ houtcome => ?_
  cases outcome with
  | replayed id => trivial
  | created id => exact postEntries_disciplined (houtcome id rfl)

/-- The lookup of a reversal locks the original. -/
theorem findExisting_disciplined (transactionId : Uuid) :
    (findExisting crates transactionId).Disciplined
      (fun c _ => .transaction transactionId ∈ c) held := by
  refine ⟨trivial, fun found => ⟨fun hdooms => ?_, ?_⟩⟩
  · obtain rfl : found = false := hdooms
    exact ⟨_, rfl⟩
  · cases found with
    | false => trivial
    | true =>
        have hlocked : Claim.transaction transactionId ∈ held ++ [.transaction transactionId] :=
          List.mem_append_right _ (List.mem_singleton_self _)
        exact .quiet hlocked (fun _ => not_false) (fun _ => rfl) fun _ => hlocked

/-- A reversal needs nothing from outside. -/
theorem ledgerReverse_disciplined (transactionId : Uuid) (options : PostOptions) :
    (ledgerReverse crates transactionId options).Disciplined (fun _ _ => True) held := by
  refine .bind ((findExisting_disciplined transactionId).imp fun c existing _ hlocked => ?_)
  cases existing with
  | some id => trivial
  | none =>
      refine .bind (.quiet hlocked (fun _ => not_false) (fun _ => rfl) fun postings => ?_)
      refine post_disciplined fun original horiginal => ?_
      obtain rfl := Option.some.inj horiginal
      exact hlocked

/-- **Discipline**: every posting call has it. -/
theorem PostingCall.disciplined (crates : Crates) (call : PostingCall) :
    (call.program crates).Disciplined (fun _ _ => True) [] := by
  cases call with
  | post elements options =>
      refine .bind (.ofExcept fun postings _ => post_disciplined fun original horiginal => ?_)
      contradiction
  | transfer fromAccount toAccount amount options =>
      rw [program, ledgerTransfer]
      split
      · trivial
      · split
        · trivial
        · refine post_disciplined fun original horiginal => ?_
          contradiction
  | reverse transactionId options => exact ledgerReverse_disciplined transactionId options

end PgLedger
