import PgLedger.Concurrency.Disciplined
import PgLedger.Guard

/-!
# PgLedger.Guard.Relies

What a call relies on, when accounts may come and go.  An original is read and
linked, an account updated and an entry written only with the rows locked that
they refer to.  And a call that has looked for a row in vain cannot succeed
any more, since the row may be there when the transaction commits: it may go
on sending statements, but it does not return.

`Spi.Relies` is stated like `Spi.Disciplined`, with a second condition on the
results of a program that has looked for something in vain.
-/

namespace PgLedger

/-- The rows that must be locked when the statement is sent. -/
def Stmt.relies : Stmt → List Claim
  | .findReversal id => [.transaction id]
  | .reversalPostings id => [.transaction id]
  | .insertTransaction v => v.reversesTransactionId.toList.map .transaction
  | .updateAccount _ _ id => [.account id]
  | .insertEntry v => [.transaction v.transactionId, .account v.accountId]
  | _ => []

/-- A result that others may change: a row was not found. -/
def Stmt.Passing : (s : Stmt) → s.Result → Prop
  | .lockTransaction _, found => found = false
  | .resolveKey _, row => row = none
  | .lockAccount _, row => row = none
  | _, _ => False

namespace Spi

variable {α β : Type}

/-- The program fails, or its result is of the kind `D`, whatever its
statements return. -/
def Ends (D : α → Prop) : Spi α → Prop
  | .pure a => D a
  | .fail _ => True
  | .stmt _ k => ∀ r, (k r).Ends D

/-- The program cannot but fail. -/
def Hopeless (x : Spi α) : Prop := x.Ends fun _ => False

/-- Sent with the claims `held`, the program has what it relies on.  It ends
with claims and a result of the kind `Q`, or of the kind `D` once a row was not
found. -/
def Relies (Q : List Claim → α → Prop) (D : α → Prop) : List Claim → Spi α → Prop
  | held, .pure a => Q held a
  | _, .fail _ => True
  | held, .stmt s k => s.relies ⊆ held ∧ ∀ r, (s.Passing r → (k r).Ends D) ∧
      (¬ s.Passing r → Relies Q D (held ++ s.gains r) (k r))

/-- A weaker condition on the result. -/
theorem Ends.imp {D D' : α → Prop} {x : Spi α} (h : x.Ends D) (hD : ∀ a, D a → D' a) :
    x.Ends D' := by
  induction x with
  | pure a => exact hD a h
  | fail e => trivial
  | stmt s k ih => exact fun r => ih r (h r)

/-- What follows ends as it must for every result of the first part. -/
theorem Ends.bind {D : β → Prop} {x : Spi α} {f : α → Spi β} (h : x.Ends fun a => (f a).Ends D) :
    (x >>= f).Ends D := by
  induction x with
  | pure a => exact h
  | fail e => trivial
  | stmt s k ih => exact fun r => ih r (h r)

/-- A program that is stopped ends in no new way. -/
theorem Ends.interrupt {D : α → Prop} {x : Spi α} (h : x.Ends D) (e : PgError) (n : Nat) :
    (x.interrupt e n).Ends D := by
  induction x generalizing n with
  | pure a => cases n <;> exact h
  | fail e' => cases n <;> trivial
  | stmt s k ih =>
      cases n with
      | zero => trivial
      | succ n => exact fun r => ih r (h r) n

section
variable {held held' : List Claim}

/-- Less may be shown at the end, and what was held is still held there. -/
theorem Relies.imp {Q Q' : List Claim → α → Prop} {D D' : α → Prop} {x : Spi α}
    (h : x.Relies Q D held) (hQ : ∀ c a, held ⊆ c → Q c a → Q' c a) (hD : ∀ a, D a → D' a) :
    x.Relies Q' D' held := by
  induction x generalizing held with
  | pure a => exact hQ held a (List.Subset.refl _) h
  | fail e => trivial
  | stmt s k ih =>
      refine ⟨h.1, fun r => ⟨fun hr => ((h.2 r).1 hr).imp hD, fun hr => ?_⟩⟩
      refine ih r ((h.2 r).2 hr) fun c a hsub hc => ?_
      exact hQ c a (List.Subset.trans (List.subset_append_left _ _) hsub) hc

/-- **Sequencing**: the second part has to be all right with the claims and the
results that the first ends with. -/
theorem Relies.bind {Q : List Claim → β → Prop} {D : β → Prop} {x : Spi α} {f : α → Spi β}
    (h : x.Relies (fun c a => (f a).Relies Q D c) (fun a => (f a).Ends D) held) :
    (x >>= f).Relies Q D held := by
  induction x generalizing held with
  | pure a => exact h
  | fail e => trivial
  | stmt s k ih =>
      exact ⟨h.1, fun r => ⟨fun hr => ((h.2 r).1 hr).bind, fun hr => ih r ((h.2 r).2 hr)⟩⟩

/-- A computation claims nothing and relies on nothing. -/
theorem Relies.ofExcept {Q : List Claim → α → Prop} {D : α → Prop} {x : Except PgError α}
    (h : ∀ a, x = .ok a → Q held a) : (Spi.ofExcept x).Relies Q D held := by
  cases x with
  | error e => trivial
  | ok a => exact h a rfl

/-- A statement that always finds what it looks for. -/
theorem Relies.send {s : Stmt} {Q : List Claim → s.Result → Prop} {D : s.Result → Prop}
    (hs : s.relies ⊆ held) (hpassing : ∀ r, ¬ s.Passing r) (hQ : ∀ r, Q (held ++ s.gains r) r) :
    (Spi.send s).Relies Q D held :=
  ⟨hs, fun r => ⟨fun h => absurd h (hpassing r), fun _ => hQ r⟩⟩

/-- One that adds no claim either. -/
theorem Relies.quiet {s : Stmt} {Q : List Claim → s.Result → Prop} {D : s.Result → Prop}
    (hs : s.relies ⊆ held) (hpassing : ∀ r, ¬ s.Passing r) (hgains : ∀ r, s.gains r = [])
    (hQ : ∀ r, Q held r) : (Spi.send s).Relies Q D held := by
  refine .send hs hpassing fun r => ?_
  rw [hgains, List.append_nil]
  exact hQ r

/-- Holding more does no harm. -/
theorem Relies.more {D : α → Prop} {x : Spi α} (h : x.Relies (fun _ _ => True) D held)
    (hsub : held ⊆ held') : x.Relies (fun _ _ => True) D held' := by
  induction x generalizing held held' with
  | pure a => trivial
  | fail e => trivial
  | stmt s k ih =>
      refine ⟨List.Subset.trans h.1 hsub, fun r => ⟨(h.2 r).1, fun hr => ih r ((h.2 r).2 hr) ?_⟩⟩
      refine List.append_subset.mpr ⟨?_, List.subset_append_right _ _⟩
      exact List.Subset.trans hsub (List.subset_append_left _ _)

/-- A program that is stopped relies on nothing more. -/
theorem Relies.interrupt {Q : List Claim → α → Prop} {D : α → Prop} {x : Spi α}
    (h : x.Relies Q D held) (e : PgError) (n : Nat) : (x.interrupt e n).Relies Q D held := by
  induction x generalizing held n with
  | pure a => cases n <;> exact h
  | fail e' => cases n <;> trivial
  | stmt s k ih =>
      cases n with
      | zero => trivial
      | succ n =>
          refine ⟨h.1, fun r => ⟨fun hr => ?_, fun hr => ih r ((h.2 r).2 hr) n⟩⟩
          exact ((h.2 r).1 hr).interrupt e n

end

end Spi

/-! ## the engine -/

variable {crates : Crates} {held : List Claim}

/-- Inserting relies on the original being locked, and claims the new row. -/
theorem insertTransaction_relies {request : PostRequest} {createdAt : Timestamp}
    (h : ∀ original, request.reversesTransactionId = some original → .transaction original ∈ held) :
    (insertTransaction crates request createdAt).Relies
      (fun c outcome => ∀ id, outcome = .created id → .transaction id ∈ c) (fun _ => False)
      held := by
  have hlinked : request.reversesTransactionId.toList.map .transaction ⊆ held := by
    intro c hc
    obtain ⟨original, horiginal, rfl⟩ := List.mem_map.mp hc
    exact h original (Option.mem_toList.mp horiginal)
  refine .bind (.ofExcept fun hashes _ => .bind
    (.send hlinked (fun _ => not_false) fun result => ?_))
  cases result with
  | some id =>
      intro id' hid
      obtain rfl := InsertOutcome.created.inj hid
      exact List.mem_append_right _ (List.mem_singleton_self _)
  | none =>
      cases request.idempotencyKey with
      | none => trivial
      | some key =>
          refine ⟨List.nil_subset _, fun found => ⟨fun hnone => ?_, fun hfound => ?_⟩⟩
          · obtain rfl : found = none := hnone
            trivial
          · cases found with
            | none => exact absurd rfl hfound
            | some found =>
                obtain ⟨id, existing⟩ := found
                show (if _ then _ else _ : Spi InsertOutcome).Relies _ _ _
                split
                · exact fun id' hid => InsertOutcome.noConfusion hid
                · trivial

/-- Whatever is locked, there are no more rows than identifiers. -/
theorem selectForUpdate_ends (ids : List Uuid) :
    (selectForUpdate ids).Ends fun rows => rows.length ≤ ids.length := by
  induction ids with
  | nil => exact le_rfl
  | cons id ids ih =>
      refine .bind fun found => ?_
      show Spi.Ends _ (selectForUpdate ids >>= fun rows => pure (found.toList ++ rows))
      refine .bind (ih.imp fun rows hrows => ?_)
      show (found.toList ++ rows).length ≤ ids.length + 1
      cases found with
      | none => simp; omega
      | some row => simp; omega

/-- An account that is not found leaves the selection short. -/
theorem selectForUpdate_relies (ids : List Uuid) : (selectForUpdate ids).Relies
    (fun c rows => ∀ row ∈ rows, .account row.id ∈ c) (fun rows => rows.length < ids.length)
    held := by
  induction ids generalizing held with
  | nil => exact fun _ h => absurd h List.not_mem_nil
  | cons id ids ih =>
      refine .bind ⟨List.nil_subset _, fun found => ⟨fun hnone => ?_, fun _ => ?_⟩⟩
      · obtain rfl : found = none := hnone
        show Spi.Ends _ (selectForUpdate ids >>= fun rows => pure ([] ++ rows))
        exact .bind ((selectForUpdate_ends ids).imp fun rows hrows => Nat.lt_succ_of_le hrows)
      · show Spi.Relies _ _ _ (selectForUpdate ids >>= fun rows => pure (found.toList ++ rows))
        refine .bind (ih.imp (fun c rows hsub hrows => ?_) fun rows hrows => ?_)
        · intro row hrow
          cases List.mem_append.mp hrow with
          | inl hfound =>
              obtain rfl := Option.mem_toList.mp hfound
              exact hsub (List.mem_append_right _ (List.mem_singleton_self _))
          | inr hrest => exact hrows row hrest
        · show (found.toList ++ rows).length < ids.length + 1
          cases found with
          | none => simp; omega
          | some row => simp; omega

/-- All accounts that are returned are locked; with one missing the call fails. -/
theorem lockAccounts_relies (postings : List LedgerPosting) :
    (lockAccounts postings).Relies (fun c accounts =>
      ∀ id account, accounts.lookup id = some account → .account id ∈ c) (fun _ => False)
      held := by
  refine .bind ((selectForUpdate_relies _).imp (fun c rows _ hrows => ?_) fun rows hshort => ?_)
  · split
    · trivial
    · intro id account haccount
      obtain ⟨row, hrow, heq⟩ := List.mem_map.mp (Assoc.mem_of_lookup haccount)
      obtain ⟨rfl, -⟩ := Prod.mk.inj heq
      exact hrows row hrow
  · rw [if_pos hshort.ne]
    trivial

/-- The loop relies on the new transaction and the accounts. -/
theorem postAll_relies {transactionId : Uuid} {createdAt : Timestamp} {accounts : AccountMap}
    (postings : List LedgerPosting) (htransaction : .transaction transactionId ∈ held)
    (haccounts : ∀ id account, accounts.lookup id = some account → .account id ∈ held) :
    (postAll transactionId createdAt accounts postings).Relies (fun _ _ => True) (fun _ => False)
      held := by
  induction postings generalizing accounts with
  | nil => trivial
  | cons posting postings ih =>
      refine .bind ?_
      unfold postOne
      split
      · trivial
      · next account haccount =>
        have hposting := haccounts _ account haccount
        have hboth : [Claim.transaction transactionId, .account posting.accountId] ⊆ held := by
          simp [htransaction, hposting]
        refine .bind (.ofExcept fun current _ => .bind ?_)
        refine .quiet (by simpa [Stmt.relies] using hposting) (fun _ => not_false) (fun _ => rfl)
          fun _ => .bind ?_
        refine .quiet hboth (fun _ => not_false) (fun _ => rfl)
          fun _ => ih fun id account' hlookup => ?_
        simp only [Assoc.lookup_modify] at hlookup
        split at hlookup
        · obtain ⟨old, hold, -⟩ := Option.map_eq_some_iff.mp hlookup
          exact haccounts id old hold
        · exact haccounts id account' hlookup

/-- Writing the entries relies on the new transaction; it locks the accounts
itself. -/
theorem postEntries_relies {postings : List LedgerPosting} {transactionId : Uuid}
    {createdAt : Timestamp} (h : .transaction transactionId ∈ held) :
    (postEntries crates postings transactionId createdAt).Relies (fun _ _ => True)
      (fun _ => False) held := by
  refine .bind ((lockAccounts_relies _).imp (fun c accounts hsub haccounts => ?_)
    fun _ => False.elim)
  refine .bind (.ofExcept fun _ _ => .bind ?_)
  refine .quiet (List.nil_subset _) (fun _ => not_false) (fun _ => rfl) fun _ => .bind ?_
  refine (postAll_relies postings (hsub h) haccounts).imp (fun c' accounts' _ _ => ?_)
    fun _ => False.elim
  exact .bind (.quiet (List.nil_subset _) (fun _ => not_false) (fun _ => rfl) fun _ => trivial)

/-- The engine relies on the original of a reversal, if there is one. -/
theorem post_relies {request : PostRequest}
    (h : ∀ original, request.reversesTransactionId = some original → .transaction original ∈ held) :
    (post crates request).Relies (fun _ _ => True) (fun _ => False) held := by
  refine .bind (.ofExcept fun _ _ => .bind ?_)
  refine .quiet (List.nil_subset _) (fun _ => not_false) (fun _ => rfl) fun createdAt => .bind ?_
  refine (insertTransaction_relies h).imp (fun c outcome _ houtcome => ?_) fun _ => False.elim
  cases outcome with
  | replayed id => trivial
  | created id => exact postEntries_relies (houtcome id rfl)

/-- The lookup of a reversal locks the original before it reads, and fails
without one. -/
theorem findExisting_relies (transactionId : Uuid) : (findExisting crates transactionId).Relies
    (fun c _ => .transaction transactionId ∈ c) (fun _ => False) held := by
  refine ⟨List.nil_subset _, fun found => ⟨fun hnone => ?_, fun hfound => ?_⟩⟩
  · obtain rfl : found = false := hnone
    trivial
  · cases found with
    | false => exact absurd rfl hfound
    | true =>
        have hlocked : Claim.transaction transactionId ∈ held ++ [.transaction transactionId] :=
          List.mem_append_right _ (List.mem_singleton_self _)
        exact .quiet (List.cons_subset.mpr ⟨hlocked, List.nil_subset _⟩) (fun _ => not_false)
          (fun _ => rfl) fun _ => hlocked

/-- A reversal has locked its original when it reads its entries. -/
theorem ledgerReverse_relies (transactionId : Uuid) (options : PostOptions) :
    (ledgerReverse crates transactionId options).Relies (fun _ _ => True) (fun _ => False)
      held := by
  refine .bind ((findExisting_relies transactionId).imp (fun c existing _ hlocked => ?_)
    fun _ => False.elim)
  cases existing with
  | some id => trivial
  | none =>
      refine .bind (.quiet (List.cons_subset.mpr ⟨hlocked, List.nil_subset _⟩) (fun _ => not_false)
        (fun _ => rfl) fun postings => ?_)
      refine post_relies fun original horiginal => ?_
      obtain rfl := Option.some.inj horiginal
      exact hlocked

/-- **Reliance**: every call has locked what it relies on. -/
theorem Call.relies (crates : Crates) (call : Call) :
    (call.program crates).Relies (fun _ _ => True) (fun _ => False) [] := by
  cases call with
  | createAccount name asset balancePolicy metadata =>
      exact .send (List.nil_subset _) (fun _ => not_false) fun _ => trivial
  | posting call =>
      cases call with
      | post elements options =>
          refine .bind (.ofExcept fun postings _ => post_relies fun original horiginal => ?_)
          contradiction
      | transfer fromAccount toAccount amount options =>
          show (ledgerTransfer crates fromAccount toAccount amount options).Relies _ _ _
          rw [ledgerTransfer]
          split
          · trivial
          · split
            · trivial
            · refine post_relies fun original horiginal => ?_
              contradiction
      | reverse transactionId options => exact ledgerReverse_relies transactionId options

end PgLedger
