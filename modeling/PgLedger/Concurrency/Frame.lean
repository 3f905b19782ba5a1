import PgLedger.Concurrency.Disciplined
import PgLedger.Ledger
import PgLedger.Spi.Effects

/-!
# PgLedger.Concurrency.Frame

What a commit of another session leaves alone.  `Tables.Frame claims t u` says
that `u` looks like `t` to a session with these claims: the accounts it has
locked are the same, the transactions it has locked have the same entries and
no new reversal, nothing it has found is gone, and no value it has inserted
into a unique index has turned up elsewhere.

Writes of others, which touch none of the claims, lead into the frame
(`Frame.writes`); the session's own writes stay inside (`Frame.own`); and a
disciplined statement does the same on both sides (`Stmt.eval_frame`).
-/

namespace PgLedger

/-- The rows a new row refers to. -/
def Write.references : Write → List Claim
  | .insertTransaction row => row.reversesTransactionId.toList.map .transaction
  | .insertEntry row => [.transaction row.transactionId]
  | _ => []

/-- A write of a posting call: no account is created, and everything it
involves is claimed. -/
structure Write.Covered (claims : List Claim) (w : Write) : Prop where
  posting : ∀ row, w ≠ .insertAccount row
  claimed : w.claims ⊆ claims
  references : w.references ⊆ claims

/-- A write that involves none of the claims. -/
structure Write.Spares (claims : List Claim) (w : Write) : Prop where
  posting : ∀ row, w ≠ .insertAccount row
  claimed : ∀ c ∈ w.claims, c ∉ claims
  references : ∀ c ∈ w.references, c ∉ claims

namespace Write

variable {row : TransactionRow} {claims claims' : List Claim} {w : Write}

/-- A write stays covered when more is claimed. -/
theorem Covered.mono (h : w.Covered claims) (hsub : claims ⊆ claims') : w.Covered claims' where
  posting := h.posting
  claimed := List.Subset.trans h.claimed hsub
  references := List.Subset.trans h.references hsub

/-- A new transaction involves its key. -/
theorem idempotencyKey_mem_claims {key : Str} (h : row.idempotencyKey = some key) :
    .idempotencyKey key ∈ (insertTransaction row).claims := by
  refine List.mem_cons_of_mem _ (List.mem_append_left _ ?_)
  rw [h]
  exact List.mem_singleton_self _

/-- A new transaction involves the link to the one it reverses. -/
theorem reversal_mem_claims {original : Uuid} (h : row.reversesTransactionId = some original) :
    .reversal original ∈ (insertTransaction row).claims := by
  refine List.mem_cons_of_mem _ (List.mem_append_right _ ?_)
  rw [h]
  exact List.mem_singleton_self _

/-- A new transaction refers to the one it reverses. -/
theorem transaction_mem_references {original : Uuid}
    (h : row.reversesTransactionId = some original) :
    .transaction original ∈ (insertTransaction row).references := by
  rw [references, h]
  exact List.mem_singleton_self _

end Write

structure Tables.Frame (claims : List Claim) (t u : Tables) : Prop where
  accountIds : u.accountIds = t.accountIds
  account : ∀ id, .account id ∈ claims → u.account? id = t.account? id
  transactionIds : t.transactionIds ⊆ u.transactionIds
  newTransactions : ∀ id, .transaction id ∈ claims → id ∈ u.transactionIds → id ∈ t.transactionIds
  holder : ∀ key row, t.holder? key = some row → u.holder? key = some row
  newKeys : ∀ key, .idempotencyKey key ∈ claims → t.holder? key = none → u.holder? key = none
  reversal : ∀ id row, t.reversal? id = some row → u.reversal? id = some row
  newReversals : ∀ id, .transaction id ∈ claims ∨ .reversal id ∈ claims →
    t.reversal? id = none → u.reversal? id = none
  entries : ∀ id, .transaction id ∈ claims → u.transactionEntries id = t.transactionEntries id
  newEntryIds : ∀ id, .entry id ∈ claims → id ∈ u.entryIds → id ∈ t.entryIds
  newEntryVersions : ∀ id version, .entryVersion id version ∈ claims →
    (id, version) ∈ u.entryVersions → (id, version) ∈ t.entryVersions

namespace Tables

variable {t u v : Tables} {claims claims' : List Claim}

/-! ## tables after a write -/

/-- An update adds and removes no account. -/
@[simp] theorem accountIds_updateAccount (row : AccountRow) :
    (t.apply (.updateAccount row)).accountIds = t.accountIds := by
  show (t.accounts.map fun a => if a.id = row.id then row else a).map (·.id) = _
  rw [List.map_map]
  refine List.map_congr_left fun a _ => ?_
  by_cases h : a.id = row.id
  · rw [Function.comp_apply, if_pos h, h]
  · rw [Function.comp_apply, if_neg h]

/-- An update changes the account it names and no other. -/
theorem account?_updateAccount (row : AccountRow) (id : Uuid) :
    (t.apply (.updateAccount row)).account? id =
      if id = row.id then (t.account? id).map fun _ => row else t.account? id := by
  have hfind (accounts : List AccountRow) :
      (accounts.map fun a => if a.id = row.id then row else a).find? (fun a => a.id = id) =
        if id = row.id then (accounts.find? (fun a => a.id = id)).map fun _ => row
        else accounts.find? (fun a => a.id = id) := by
    induction accounts with
    | nil => simp
    | cons a accounts ih =>
        rw [List.map_cons, List.find?_cons, List.find?_cons, ih]
        by_cases ha : a.id = row.id
        · by_cases hid : id = row.id
          · simp [ha, hid]
          · simp [ha, hid, Ne.symm hid]
        · by_cases hid : id = row.id
          · simp [ha, hid]
          · simp [ha, hid]
  exact hfind t.accounts

/-- A new transaction holds its key unless another holds it already. -/
theorem holder?_insertTransaction (row : TransactionRow) (key : Str) :
    (t.apply (.insertTransaction row)).holder? key =
      (t.holder? key).or (if row.idempotencyKey = some key then some row else none) := by
  rw [holder?, apply, List.find?_append, List.find?_singleton]
  simp [holder?]

/-- A new transaction is the reversal of its original unless there is one
already. -/
theorem reversal?_insertTransaction (row : TransactionRow) (id : Uuid) :
    (t.apply (.insertTransaction row)).reversal? id =
      (t.reversal? id).or (if row.reversesTransactionId = some id then some row else none) := by
  rw [reversal?, apply, List.find?_append, List.find?_singleton]
  simp [reversal?]

/-- A new entry is the last one of its transaction. -/
theorem transactionEntries_insertEntry (row : EntryRow) (id : Uuid) :
    (t.apply (.insertEntry row)).transactionEntries id =
      t.transactionEntries id ++ if row.transactionId = id then [row] else [] := by
  rw [transactionEntries, apply, List.filter_append, List.filter_singleton]
  simp [transactionEntries]

@[simp] theorem entryIds_insertEntry (row : EntryRow) :
    (t.apply (.insertEntry row)).entryIds = t.entryIds ++ [row.id] := List.map_append

@[simp] theorem entryVersions_insertEntry (row : EntryRow) :
    (t.apply (.insertEntry row)).entryVersions =
      t.entryVersions ++ [(row.accountId, row.accountVersion)] := List.map_append

/-! ## frames -/

/-- No change is a frame for any claims. -/
theorem Frame.refl (claims : List Claim) (t : Tables) : Frame claims t t where
  accountIds := rfl
  account _ _ := rfl
  transactionIds := List.Subset.refl _
  newTransactions _ _ h := h
  holder _ _ h := h
  newKeys _ _ h := h
  reversal _ _ h := h
  newReversals _ _ h := h
  entries _ _ := rfl
  newEntryIds _ _ h := h
  newEntryVersions _ _ _ h := h

/-- Changes that leave the claims alone, one after another. -/
theorem Frame.trans (h : Frame claims t u) (h' : Frame claims u v) : Frame claims t v where
  accountIds := h'.accountIds.trans h.accountIds
  account id hid := (h'.account id hid).trans (h.account id hid)
  transactionIds := List.Subset.trans h.transactionIds h'.transactionIds
  newTransactions id hid hmem := h.newTransactions id hid (h'.newTransactions id hid hmem)
  holder key row hrow := h'.holder key row (h.holder key row hrow)
  newKeys key hkey hnone := h'.newKeys key hkey (h.newKeys key hkey hnone)
  reversal id row hrow := h'.reversal id row (h.reversal id row hrow)
  newReversals id hid hnone := h'.newReversals id hid (h.newReversals id hid hnone)
  entries id hid := (h'.entries id hid).trans (h.entries id hid)
  newEntryIds id hid hmem := h.newEntryIds id hid (h'.newEntryIds id hid hmem)
  newEntryVersions id version hid hmem :=
    h.newEntryVersions id version hid (h'.newEntryVersions id version hid hmem)

/-- With fewer claims, less has to stay the same. -/
theorem Frame.anti (h : Frame claims' t u) (hsub : claims ⊆ claims') : Frame claims t u where
  accountIds := h.accountIds
  account id hid := h.account id (hsub hid)
  transactionIds := h.transactionIds
  newTransactions id hid := h.newTransactions id (hsub hid)
  holder := h.holder
  newKeys key hkey := h.newKeys key (hsub hkey)
  reversal := h.reversal
  newReversals id hid := h.newReversals id (hid.imp (@hsub _) (@hsub _))
  entries id hid := h.entries id (hsub hid)
  newEntryIds id hid := h.newEntryIds id (hsub hid)
  newEntryVersions id version hid := h.newEntryVersions id version (hsub hid)

/-- A write of another session. -/
theorem Frame.write {w : Write} (h : w.Spares claims) : Frame claims t (t.apply w) := by
  cases w with
  | insertAccount row => exact absurd rfl (h.posting row)
  | updateAccount row =>
      refine { Frame.refl claims t with accountIds := ?_, account := ?_ }
      · exact accountIds_updateAccount row
      · intro id hid
        have hne : id ≠ row.id := by
          rintro rfl
          exact h.claimed _ (List.mem_singleton_self _) hid
        rw [account?_updateAccount, if_neg hne]
  | insertTransaction row =>
      have hrow : Claim.transaction row.id ∉ claims := h.claimed _ List.mem_cons_self
      refine { Frame.refl claims t with
        transactionIds := ?_, newTransactions := ?_, holder := ?_, newKeys := ?_, reversal := ?_
        newReversals := ?_ }
      · rw [transactionIds_insertTransaction]
        exact List.subset_append_left _ _
      · intro id hid hmem
        rw [transactionIds_insertTransaction, List.mem_append, List.mem_singleton] at hmem
        rcases hmem with hold | rfl
        · exact hold
        · exact absurd hid hrow
      · intro key found hfound
        rw [holder?_insertTransaction, hfound, Option.some_or]
      · intro key hclaim hnone
        have hne : row.idempotencyKey ≠ some key := fun heq =>
          h.claimed _ (Write.idempotencyKey_mem_claims heq) hclaim
        rw [holder?_insertTransaction, hnone, Option.none_or, if_neg hne]
      · intro id found hfound
        rw [reversal?_insertTransaction, hfound, Option.some_or]
      · intro id hclaim hnone
        have hne : row.reversesTransactionId ≠ some id := by
          intro heq
          cases hclaim with
          | inl hclaim => exact h.references _ (Write.transaction_mem_references heq) hclaim
          | inr hclaim => exact h.claimed _ (Write.reversal_mem_claims heq) hclaim
        rw [reversal?_insertTransaction, hnone, Option.none_or, if_neg hne]
  | insertEntry row =>
      refine { Frame.refl claims t with entries := ?_, newEntryIds := ?_, newEntryVersions := ?_ }
      · intro id hid
        have hne : row.transactionId ≠ id := by
          rintro rfl
          exact h.references _ (List.mem_singleton_self _) hid
        rw [transactionEntries_insertEntry, if_neg hne, List.append_nil]
      · intro id hid hmem
        rw [entryIds_insertEntry, List.mem_append, List.mem_singleton] at hmem
        rcases hmem with hold | rfl
        · exact hold
        · exact absurd hid (h.claimed _ List.mem_cons_self)
      · intro id version hid hmem
        rw [entryVersions_insertEntry, List.mem_append, List.mem_singleton] at hmem
        cases hmem with
        | inl hold => exact hold
        | inr heq =>
            obtain ⟨rfl, rfl⟩ := Prod.mk.inj heq
            exact absurd hid (h.claimed _ (List.mem_cons_of_mem _ (List.mem_singleton_self _)))

/-- The writes of another session. -/
theorem Frame.writes {ws : List Write} (h : ∀ w ∈ ws, w.Spares claims) :
    Frame claims t (t.applyAll ws) := by
  induction ws generalizing t with
  | nil => exact Frame.refl claims t
  | cons w ws ih =>
      have hfirst : Frame claims t (t.apply w) := Frame.write (h w List.mem_cons_self)
      exact hfirst.trans (ih fun w' hw' => h w' (List.mem_cons_of_mem _ hw'))

/-- What is found on both sides, or else added to both, is found on both. -/
theorem or_eq_some_of_kept {α : Type} {found found' added : Option α} {row : α}
    (hkept : ∀ old, found = some old → found' = some old)
    (hnew : added.isSome → found = none → found' = none) (h : found.or added = some row) :
    found'.or added = some row := by
  cases hold : found with
  | some old =>
      rw [hold, Option.some_or] at h
      rw [hkept old hold, Option.some_or, h]
  | none =>
      rw [hold, Option.none_or] at h
      have hadded : added.isSome := by rw [h, Option.isSome_some]
      rw [hnew hadded hold, Option.none_or, h]

/-- A write of the session itself, on both sides. -/
theorem Frame.own {w : Write} (h : Frame claims t u) (hw : w.Covered claims) :
    Frame claims (t.apply w) (u.apply w) := by
  cases w with
  | insertAccount row => exact absurd rfl (hw.posting row)
  | updateAccount row =>
      refine { h with accountIds := ?_, account := ?_ }
      · rw [accountIds_updateAccount, accountIds_updateAccount, h.accountIds]
      · intro id hid
        rw [account?_updateAccount, account?_updateAccount, h.account id hid]
  | insertTransaction row =>
      refine { h with
        transactionIds := ?_, newTransactions := ?_, holder := ?_, newKeys := ?_, reversal := ?_
        newReversals := ?_ }
      · rw [transactionIds_insertTransaction, transactionIds_insertTransaction]
        exact List.append_subset.mpr
          ⟨List.Subset.trans h.transactionIds (List.subset_append_left _ _),
          List.subset_append_right _ _⟩
      · intro id hid hmem
        rw [transactionIds_insertTransaction, List.mem_append] at hmem ⊢
        exact hmem.imp_left (h.newTransactions id hid)
      · intro key found hfound
        rw [holder?_insertTransaction] at hfound ⊢
        refine or_eq_some_of_kept (h.holder key) (fun hadded => h.newKeys key ?_) hfound
        split at hadded
        · next heq => exact hw.claimed (Write.idempotencyKey_mem_claims heq)
        · contradiction
      · intro key hclaim hnone
        rw [holder?_insertTransaction, Option.or_eq_none_iff] at hnone ⊢
        exact ⟨h.newKeys key hclaim hnone.1, hnone.2⟩
      · intro id found hfound
        rw [reversal?_insertTransaction] at hfound ⊢
        refine or_eq_some_of_kept (h.reversal id) (fun hadded => h.newReversals id ?_) hfound
        split at hadded
        · next heq => exact .inr (hw.claimed (Write.reversal_mem_claims heq))
        · contradiction
      · intro id hclaim hnone
        rw [reversal?_insertTransaction, Option.or_eq_none_iff] at hnone ⊢
        exact ⟨h.newReversals id hclaim hnone.1, hnone.2⟩
  | insertEntry row =>
      refine { h with entries := ?_, newEntryIds := ?_, newEntryVersions := ?_ }
      · intro id hid
        rw [transactionEntries_insertEntry, transactionEntries_insertEntry, h.entries id hid]
      · intro id hid hmem
        rw [entryIds_insertEntry, List.mem_append] at hmem ⊢
        exact hmem.imp_left (h.newEntryIds id hid)
      · intro id version hid hmem
        rw [entryVersions_insertEntry, List.mem_append] at hmem ⊢
        exact hmem.imp_left (h.newEntryVersions id version hid)

/-- What a session has written itself does not come between it and its claims. -/
theorem Frame.ownAll {ws : List Write} (h : Frame claims t u) (hws : ∀ w ∈ ws, w.Covered claims) :
    Frame claims (t.applyAll ws) (u.applyAll ws) := by
  induction ws generalizing t u with
  | nil => exact h
  | cons w ws ih =>
      exact ih (h.own (hws w List.mem_cons_self)) fun w' hw' => hws w' (List.mem_cons_of_mem _ hw')

end Tables

/-! ## statements -/

namespace Stmt

variable {env : Env} {t u : Tables} {b : Backend} {held claims : List Claim}

/-- A disciplined statement that is not doomed does the same inside the frame. -/
theorem eval_frame {s : Stmt} {effect : Effect s.Result} (h : t.Frame claims u)
    (hs : s.Disciplined held) (hheld : held ⊆ claims) (hlocks : s.locks effect.result ⊆ claims)
    (hwrites : ∀ w ∈ effect.writes, w.claims ⊆ claims) (hdooms : ¬ s.Dooms effect.result)
    (heval : s.eval env t b = .ok effect) : s.eval env u b = .ok effect := by
  cases s with
  | clockTimestamp => exact heval
  | setInternalPosting value => exact heval
  | lockTransaction id =>
      obtain rfl := Except.ok.inj heval
      have hfound : id ∈ t.transactionIds := by simpa [Dooms] using hdooms
      have hsame : decide (id ∈ u.transactionIds) = decide (id ∈ t.transactionIds) := by
        rw [decide_eq_true hfound, decide_eq_true (h.transactionIds hfound)]
      rw [eval, hsame]
  | findReversal id =>
      obtain rfl := Except.ok.inj heval
      have hsame : u.reversal? id = t.reversal? id := by
        cases hrow : t.reversal? id with
        | some row => exact h.reversal id row hrow
        | none => exact h.newReversals id (.inl (hheld hs)) hrow
      rw [eval, hsame]
  | reversalPostings id =>
      obtain rfl := Except.ok.inj heval
      rw [eval, h.entries id (hheld hs)]
  | resolveKey key =>
      obtain rfl := Except.ok.inj heval
      have hsame : u.holder? key = t.holder? key := by
        cases hrow : t.holder? key with
        | some row => exact h.holder key row hrow
        | none => exact absurd (by rw [hrow]; rfl) hdooms
      rw [eval, hsame]
  | lockAccount id =>
      obtain rfl := Except.ok.inj heval
      have hsame : u.account? id = t.account? id := by
        cases hrow : t.account? id with
        | some row =>
            have hlocked : Claim.account row.id ∈ claims := by
              refine hlocks ?_
              rw [locks, hrow]
              exact List.mem_singleton_self _
            rw [Tables.id_of_account? hrow] at hlocked
            rw [h.account id hlocked, hrow]
        | none =>
            rw [Tables.account?_eq_none] at hrow ⊢
            rw [h.accountIds]
            exact hrow
      rw [eval, hsame]
  | updateAccount balance version id =>
      have hsame : evalUpdateAccount env u b balance version id =
          evalUpdateAccount env t b balance version id := by
        rw [evalUpdateAccount, evalUpdateAccount, h.account id (hheld hs)]
      exact hsame.trans heval
  | insertAccount v => exact hs.elim
  | insertTransaction v =>
      rcases evalInsertTransaction_eq_ok heval with ⟨htaken, rfl⟩ | ⟨row, hvalues, hid, htakes, rfl⟩
      · have hkept : taken u.idempotencyKeys v.idempotencyKey = true := by
          cases hkey : v.idempotencyKey with
          | none =>
              simp only [hkey] at htaken
              contradiction
          | some key =>
              rw [hkey] at htaken
              have hmem : key ∈ t.idempotencyKeys := by simpa [taken] using htaken
              have hin : key ∈ u.idempotencyKeys := by
                by_contra hno
                cases hrow : t.holder? key with
                | none => exact Tables.holder?_eq_none_iff.mp hrow hmem
                | some row =>
                    have hsome := h.holder key row hrow
                    simp only [Tables.holder?_eq_none_iff.mpr hno] at hsome
                    contradiction
              simpa [taken] using hin
        show evalInsertTransaction env u b v = _
        rw [evalInsertTransaction, if_pos hkept]
      · have hclaims := hwrites _ (List.mem_singleton_self _)
        refine evalInsertTransaction_of_takes hvalues hid ⟨?_, ?_, ?_, ?_⟩
        · rw [Tables.taken_eq_false]
          intro key hkey
          have hclaim := hclaims (Write.idempotencyKey_mem_claims hkey)
          have hfree := Tables.taken_eq_false.mp htakes.key key hkey
          exact Tables.holder?_eq_none_iff.mp
            (h.newKeys key hclaim (Tables.holder?_eq_none_iff.mpr hfree))
        · exact fun hmem => htakes.id (h.newTransactions row.id (hclaims List.mem_cons_self) hmem)
        · rw [Tables.taken_eq_false]
          intro original horiginal
          have hclaim := hclaims (Write.reversal_mem_claims horiginal)
          have hfree := Tables.taken_eq_false.mp htakes.link original horiginal
          exact Tables.reversal?_eq_none_iff.mp
            (h.newReversals original (.inr hclaim) (Tables.reversal?_eq_none_iff.mpr hfree))
        · intro original horiginal
          exact List.cons_subset_cons _ h.transactionIds (htakes.original original horiginal)
  | insertEntry v =>
      obtain ⟨row, hvalues, hid, htakes, rfl⟩ := evalInsertEntry_eq_ok heval
      have hclaims := hwrites _ (List.mem_singleton_self _)
      refine evalInsertEntry_of_takes hvalues hid ⟨?_, ?_, ?_, ?_⟩
      · exact fun hmem => htakes.id (h.newEntryIds row.id (hclaims List.mem_cons_self) hmem)
      · exact fun hmem => htakes.version (h.newEntryVersions _ _
          (hclaims (List.mem_cons_of_mem _ (List.mem_singleton_self _))) hmem)
      · exact h.transactionIds htakes.transaction
      · rw [h.accountIds]
        exact htakes.account

end Stmt

end PgLedger
