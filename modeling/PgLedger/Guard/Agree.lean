import Mathlib.Data.List.Find
import PgLedger.Concurrency.Frame
import PgLedger.Guard.Deeds
import PgLedger.Guard.Relies

/-!
# PgLedger.Guard.Agree

When other transactions create, change and delete accounts.
`Tables.Agree claims t u` says that a session with these claims cannot tell
the tables `t` and `u` apart: about transactions and entries it is
`Tables.Frame`, the locked accounts are the same, and neither names it has
claimed nor references to its accounts have turned up.

A statement of another session leads to tables that agree (`eval_spares`), and
a statement of the session itself does the same on tables that agree, which
then still do (`eval_agree`).  Both hold of the statements of the public
functions and of direct statements.
-/

namespace PgLedger

namespace Tables

variable {t u v : Tables} {claims claims' : List Claim}

def withoutAccounts (t : Tables) : Tables := { t with accounts := [] }

structure Agree (claims : List Claim) (t u : Tables) : Prop where
  postings : Frame claims t.withoutAccounts u.withoutAccounts
  account : ∀ id, .account id ∈ claims → u.account? id = t.account? id
  named : ∀ name, .accountName name ∈ claims → ∀ a ∈ u.accounts, a.name = name →
    ∃ a' ∈ t.accounts, a'.name = name ∧ a'.id = a.id
  referenced : ∀ id, .account id ∈ claims → ∀ e ∈ u.entries, e.accountId = id →
    ∃ e' ∈ t.entries, e'.accountId = id

theorem Agree.refl (claims : List Claim) (t : Tables) : Agree claims t t where
  postings := Frame.refl claims _
  account _ _ := rfl
  named _ _ a ha hname := ⟨a, ha, hname, rfl⟩
  referenced _ _ e he hid := ⟨e, he, hid⟩

theorem Agree.trans (h : Agree claims t u) (h' : Agree claims u v) : Agree claims t v where
  postings := h.postings.trans h'.postings
  account id hid := (h'.account id hid).trans (h.account id hid)
  named name hname a ha haname := by
    obtain ⟨a₁, ha₁, hname₁, hid₁⟩ := h'.named name hname a ha haname
    obtain ⟨a₂, ha₂, hname₂, hid₂⟩ := h.named name hname a₁ ha₁ hname₁
    exact ⟨a₂, ha₂, hname₂, hid₂.trans hid₁⟩
  referenced id hid e he heid := by
    obtain ⟨e₁, he₁, heid₁⟩ := h'.referenced id hid e he heid
    exact h.referenced id hid e₁ he₁ heid₁

/-- With fewer claims, less has to stay the same. -/
theorem Agree.anti (h : Agree claims' t u) (hsub : claims ⊆ claims') : Agree claims t u where
  postings := h.postings.anti hsub
  account id hid := h.account id (hsub hid)
  named name hname := h.named name (hsub hname)
  referenced id hid := h.referenced id (hsub hid)

/-- Identifiers and names that are claimed and free stay free. -/
theorem Agree.freeId (h : Agree claims t u) {id : Uuid} (hclaim : .account id ∈ claims)
    (hfree : id ∉ t.accountIds) : id ∉ u.accountIds := by
  rw [← account?_eq_none] at hfree ⊢
  rw [h.account id hclaim, hfree]

theorem Agree.freeName (h : Agree claims t u) {name : Str} (hclaim : .accountName name ∈ claims)
    (hfree : name ∉ t.accountNames) : name ∉ u.accountNames := by
  intro hmem
  obtain ⟨a, ha, haname⟩ := List.mem_map.mp hmem
  obtain ⟨a', ha', hname', -⟩ := h.named name hclaim a ha haname
  exact hfree (List.mem_map.mpr ⟨a', ha', hname'⟩)

/-! ## accounts after a change -/

theorem account?_insertAccount (row : AccountRow) (id : Uuid) :
    (t.apply (.insertAccount row)).account? id =
      (t.account? id).or (if row.id = id then some row else none) := by
  rw [account?, apply, List.find?_append, List.find?_singleton]
  simp [account?]

/-- A row is found under its new identifier, and not under the old one. -/
theorem account?_replaceAccount {id : Uuid} {old row : AccountRow} (hold : t.account? id = some old)
    (hfree : row.id = id ∨ row.id ∉ t.accountIds) (x : Uuid) :
    (t.change (.replaceAccount id row)).account? x =
      if x = row.id then some row else if x = id then none else t.account? x := by
  show (t.accounts.map fun a => if a.id = id then row else a).find? (fun a => a.id = x) = _
  rw [List.find?_map]
  by_cases hx : x = row.id
  · have hsame (a : AccountRow) (ha : a ∈ t.accounts) :
        decide ((if a.id = id then row else a).id = x) = decide (a.id = id) := by
      by_cases haid : a.id = id
      · simp [haid, hx]
      · have hne : a.id ≠ x := by
          rintro rfl
          rcases hfree with heq | hfree
          · exact haid (hx.trans heq)
          · exact hfree (hx ▸ List.mem_map_of_mem ha)
        simp [haid, hne]
    have hfind : t.accounts.find? (fun a => decide ((if a.id = id then row else a).id = x)) =
        some old := by
      rw [List.find?_congr hsame]
      exact hold
    rw [if_pos hx]
    show (t.accounts.find? fun a => decide ((if a.id = id then row else a).id = x)).map _ = _
    rw [hfind, Option.map_some, if_pos (id_of_account? hold)]
  · rw [if_neg hx]
    show (t.accounts.find? fun a => decide ((if a.id = id then row else a).id = x)).map _ = _
    by_cases hxid : x = id
    · rw [if_pos hxid, Option.map_eq_none_iff, List.find?_eq_none]
      intro a _
      by_cases haid : a.id = id
      · simp [haid, Ne.symm hx]
      · simp [haid, hxid]
    · rw [if_neg hxid]
      have hsame (a : AccountRow) (ha : a ∈ t.accounts) :
          decide ((if a.id = id then row else a).id = x) = decide (a.id = x) := by
        by_cases haid : a.id = id
        · simp [haid, Ne.symm hx, Ne.symm hxid]
        · simp [haid]
      rw [List.find?_congr hsame]
      show (t.account? x).map _ = t.account? x
      cases ha : t.account? x with
      | none => rfl
      | some a =>
          have hne : a.id ≠ id := by
            rw [id_of_account? ha]
            exact hxid
          rw [Option.map_some, if_neg hne]

theorem account?_deleteAccount (id x : Uuid) :
    (t.change (.deleteAccount id)).account? x = if x = id then none else t.account? x := by
  show (t.accounts.filter (·.id ≠ id)).find? (fun a => a.id = x) = _
  rw [List.find?_filter]
  by_cases hx : x = id
  · rw [if_pos hx, List.find?_eq_none]
    intro a _
    simp [hx]
  · rw [if_neg hx]
    refine List.find?_congr fun a _ => ?_
    by_cases ha : a.id = x
    · simp [ha, hx]
    · simp [ha]

end Tables

/-! ## statements of the public functions -/

section
variable {env : Env} {t u : Tables} {b : Backend} {claims : List Claim}

/-- A statement of another session. -/
theorem Stmt.eval_spares {s : Stmt} {effect : Effect s.Result}
    (hrelies : ∀ c ∈ s.relies, c ∉ claims)
    (hwrites : ∀ w ∈ effect.writes, ∀ c ∈ w.claims, c ∉ claims)
    (heval : s.eval env t b = .ok effect) : t.Agree claims (t.applyAll effect.writes) := by
  cases s with
  | clockTimestamp | lockTransaction id | findReversal id | reversalPostings id | resolveKey key
  | lockAccount id | setInternalPosting value =>
      obtain rfl := Except.ok.inj heval
      exact .refl claims t
  | insertTransaction v =>
      rcases evalInsertTransaction_eq_ok heval with ⟨-, rfl⟩ | ⟨row, hvalues, -, -, rfl⟩
      · exact .refl claims t
      · have hspares : (Write.insertTransaction row).Spares claims := by
          refine ⟨fun _ => Write.noConfusion, hwrites _ (List.mem_singleton_self _), ?_⟩
          rw [Write.references, hvalues]
          exact hrelies
        have hagree := Tables.Agree.refl claims t
        exact ⟨Tables.Frame.write hspares, hagree.account, hagree.named, hagree.referenced⟩
  | insertEntry v =>
      obtain ⟨row, rfl, -, -, rfl⟩ := evalInsertEntry_eq_ok heval
      have hspares : (Write.insertEntry row).Spares claims := by
        refine ⟨fun _ => Write.noConfusion, hwrites _ (List.mem_singleton_self _), ?_⟩
        intro c hc
        rw [List.mem_singleton.mp hc]
        exact hrelies _ List.mem_cons_self
      have hagree := Tables.Agree.refl claims t
      refine ⟨Tables.Frame.write hspares, hagree.account, hagree.named, fun id hid e he heid => ?_⟩
      rcases List.mem_append.mp he with hold | hnew
      · exact ⟨e, hold, heid⟩
      · obtain rfl := List.mem_singleton.mp hnew
        refine absurd hid (hrelies _ ?_)
        rw [← heid]
        exact List.mem_cons_of_mem _ (List.mem_singleton_self _)
  | updateAccount balance version id =>
      rcases evalUpdateAccount_eq_ok heval with ⟨-, rfl⟩ | ⟨old, row, hold, hrow, rfl⟩
      · exact .refl claims t
      · obtain ⟨hvalues, hid, -⟩ := AccountRow.withBalance_eq_ok hrow
        have hunclaimed : Claim.account row.id ∉ claims :=
          hwrites _ (List.mem_singleton_self _) _ (List.mem_singleton_self _)
        refine ⟨Tables.Frame.refl claims _, fun x hx => ?_, fun name _ a ha hname => ?_,
          (Tables.Agree.refl claims t).referenced⟩
        · have hne : x ≠ row.id := fun heq => hunclaimed (heq ▸ hx)
          show (t.apply (.updateAccount row)).account? x = _
          rw [Tables.account?_updateAccount, if_neg hne]
        · obtain ⟨a₀, ha₀, rfl⟩ := List.mem_map.mp ha
          split at hname
          · refine ⟨old, Tables.mem_of_account? hold, ?_, ?_⟩
            · rw [← hname, hvalues]
            · rw [if_pos ‹_›, hid]
          · exact ⟨a₀, ha₀, hname, by rw [if_neg ‹_›]⟩
  | insertAccount v =>
      obtain ⟨row, -, -, -, -, rfl⟩ := evalInsertAccount_eq_ok heval
      have hunclaimed := hwrites _ (List.mem_singleton_self _)
      refine ⟨Tables.Frame.refl claims _, fun x hx => ?_, fun name hname a ha haname => ?_,
        (Tables.Agree.refl claims t).referenced⟩
      · have hne : row.id ≠ x := by
          rintro rfl
          exact hunclaimed _ List.mem_cons_self hx
        show (t.apply (.insertAccount row)).account? x = _
        rw [Tables.account?_insertAccount, if_neg hne, Option.or_none]
      · rcases List.mem_append.mp ha with hold | hnew
        · exact ⟨a, hold, haname, rfl⟩
        · obtain rfl := List.mem_singleton.mp hnew
          refine absurd hname (hunclaimed _ ?_)
          rw [← haname]
          exact List.mem_cons_of_mem _ (List.mem_singleton_self _)

/-- What a new version of a row does to the accounts is the same on both
sides. -/
theorem Tables.Agree.replaceAccount {id : Uuid} {old row : AccountRow} (h : t.Agree claims u)
    (hold : t.account? id = some old) (hid : .account id ∈ claims)
    (hrow : .account row.id ∈ claims) (hfree : row.id = id ∨ row.id ∉ t.accountIds) :
    (t.change (.replaceAccount id row)).Agree claims (u.change (.replaceAccount id row)) where
  postings := h.postings
  account x hx := by
    have hfound : u.account? id = some old := (h.account id hid).trans hold
    rw [account?_replaceAccount hold hfree,
      account?_replaceAccount hfound (hfree.imp_right (h.freeId hrow)), h.account x hx]
  named name hname a ha haname := by
    obtain ⟨a₀, ha₀, rfl⟩ := List.mem_map.mp ha
    split at haname
    · refine ⟨row, List.mem_map.mpr ⟨old, mem_of_account? hold, ?_⟩, haname, ?_⟩
      · exact if_pos (id_of_account? hold)
      · rw [if_pos ‹_›]
    · next hne =>
      obtain ⟨a', ha', hname', hid'⟩ := h.named name hname a₀ ha₀ haname
      refine ⟨a', List.mem_map.mpr ⟨a', ha', if_neg ?_⟩, hname', ?_⟩
      · rw [hid']
        exact hne
      · rw [if_neg hne]
        exact hid'
  referenced := h.referenced

theorem Tables.Agree.deleteAccount (h : t.Agree claims u) (id : Uuid) :
    (t.change (.deleteAccount id)).Agree claims (u.change (.deleteAccount id)) where
  postings := h.postings
  account x hx := by rw [account?_deleteAccount, account?_deleteAccount, h.account x hx]
  named name hname a ha haname := by
    obtain ⟨hmem, hne⟩ := List.mem_filter.mp ha
    obtain ⟨a', ha', hname', hid'⟩ := h.named name hname a hmem haname
    refine ⟨a', List.mem_filter.mpr ⟨ha', ?_⟩, hname', hid'⟩
    rw [hid']
    exact hne
  referenced := h.referenced

/-- A statement about transactions only, which finds what it looks for. -/
theorem Tables.Agree.eval_postings (h : t.Agree claims u) (s : Stmt) {effect : Effect s.Result}
    (hs : s.Disciplined claims) (hlocks : s.locks effect.result ⊆ claims)
    (hwrites : ∀ w ∈ effect.writes, w.claims ⊆ claims) (hpassing : ¬ s.Dooms effect.result)
    (hsame : ∀ t : Tables, s.eval env t b = s.eval env t.withoutAccounts b)
    (heval : s.eval env t b = .ok effect) : s.eval env u b = .ok effect := by
  rw [hsame] at heval ⊢
  exact Stmt.eval_frame h.postings hs (List.Subset.refl _) hlocks hwrites hpassing heval

/-- A statement of the session itself, on tables that agree. -/
theorem Stmt.eval_agree {s : Stmt} {effect : Effect s.Result} (h : t.Agree claims u)
    (hrelies : s.relies ⊆ claims) (hlocks : s.locks effect.result ⊆ claims)
    (hwrites : ∀ w ∈ effect.writes, w.claims ⊆ claims) (hpassing : ¬ s.Passing effect.result)
    (heval : s.eval env t b = .ok effect) : s.eval env u b = .ok effect ∧
      (t.applyAll effect.writes).Agree claims (u.applyAll effect.writes) := by
  cases s with
  | clockTimestamp | setInternalPosting value =>
      obtain rfl := Except.ok.inj heval
      exact ⟨rfl, h⟩
  | lockTransaction id =>
      have heval' := h.eval_postings (.lockTransaction id) trivial hlocks hwrites hpassing
        (fun _ => rfl) heval
      obtain rfl := Except.ok.inj heval
      exact ⟨heval', h⟩
  | findReversal id =>
      have heval' := h.eval_postings (.findReversal id) (hrelies List.mem_cons_self) hlocks hwrites
        not_false (fun _ => rfl) heval
      obtain rfl := Except.ok.inj heval
      exact ⟨heval', h⟩
  | reversalPostings id =>
      have heval' := h.eval_postings (.reversalPostings id) (hrelies List.mem_cons_self) hlocks
        hwrites not_false (fun _ => rfl) heval
      obtain rfl := Except.ok.inj heval
      exact ⟨heval', h⟩
  | resolveKey key =>
      have heval' := h.eval_postings (.resolveKey key) trivial hlocks hwrites hpassing
        (fun _ => rfl) heval
      obtain rfl := Except.ok.inj heval
      exact ⟨heval', h⟩
  | lockAccount id =>
      obtain rfl := Except.ok.inj heval
      cases hrow : t.account? id with
      | none => exact absurd hrow hpassing
      | some row =>
          have hlocked : Claim.account id ∈ claims := by
            rw [← Tables.id_of_account? hrow]
            refine hlocks ?_
            rw [locks, hrow]
            exact List.mem_singleton_self _
          refine ⟨?_, h⟩
          rw [eval, h.account id hlocked, hrow]
  | insertTransaction v =>
      have hlinked (original : Uuid) (horiginal : v.reversesTransactionId = some original) :
          Claim.transaction original ∈ claims :=
        hrelies (List.mem_map_of_mem (Option.mem_toList.mpr horiginal))
      have heval' := h.eval_postings (.insertTransaction v) hlinked hlocks hwrites not_false
        (fun _ => rfl) heval
      refine ⟨heval', ?_⟩
      rcases evalInsertTransaction_eq_ok heval with ⟨-, rfl⟩ | ⟨row, hvalues, -, -, rfl⟩
      · exact h
      · have hcovered : (Write.insertTransaction row).Covered claims := by
          refine ⟨fun _ => Write.noConfusion, hwrites _ (List.mem_singleton_self _), ?_⟩
          rw [Write.references, hvalues]
          exact hrelies
        exact ⟨h.postings.own hcovered, h.account, h.named, h.referenced⟩
  | insertEntry v =>
      obtain ⟨row, rfl, hid, htakes, rfl⟩ := evalInsertEntry_eq_ok heval
      have hclaims := hwrites _ (List.mem_singleton_self _)
      have hversion : Claim.entryVersion row.accountId row.accountVersion ∈ claims :=
        hclaims (List.mem_cons_of_mem _ (List.mem_singleton_self _))
      have haccount : Claim.account row.accountId ∈ claims :=
        hrelies (List.mem_cons_of_mem _ (List.mem_singleton_self _))
      refine ⟨evalInsertEntry_of_takes rfl hid ⟨?_, ?_, ?_, ?_⟩, ?_⟩
      · exact fun hmem =>
          htakes.id (h.postings.newEntryIds row.id (hclaims List.mem_cons_self) hmem)
      · exact fun hmem => htakes.version (h.postings.newEntryVersions _ _ hversion hmem)
      · exact h.postings.transactionIds htakes.transaction
      · by_contra hnone
        rw [← Tables.account?_eq_none, h.account _ haccount, Tables.account?_eq_none] at hnone
        exact hnone htakes.account
      · have hcovered : (Write.insertEntry row).Covered claims := by
          refine ⟨fun _ => Write.noConfusion, hclaims, fun c hc => ?_⟩
          rw [List.mem_singleton.mp hc]
          exact hrelies List.mem_cons_self
        refine ⟨h.postings.own hcovered, h.account, h.named, fun id hid e he heid => ?_⟩
        rcases List.mem_append.mp he with hold | hnew
        · obtain ⟨e', he', heid'⟩ := h.referenced id hid e hold heid
          exact ⟨e', List.mem_append_left _ he', heid'⟩
        · exact ⟨e, List.mem_append_right _ hnew, heid⟩
  | updateAccount balance version id =>
      have hlocked : Claim.account id ∈ claims := hrelies List.mem_cons_self
      have heval' : evalUpdateAccount env u b balance version id = .ok effect := by
        rw [evalUpdateAccount, h.account id hlocked]
        exact heval
      refine ⟨heval', ?_⟩
      rcases evalUpdateAccount_eq_ok heval with ⟨-, rfl⟩ | ⟨old, row, hold, hrow, rfl⟩
      · exact h
      · obtain ⟨-, hid, -⟩ := AccountRow.withBalance_eq_ok hrow
        have hsame : row.id = id := hid.trans (Tables.id_of_account? hold)
        have hlocked' : Claim.account row.id ∈ claims := hsame ▸ hlocked
        have hreplaced := h.replaceAccount hold hlocked hlocked' (.inl hsame)
        rw [← hsame] at hreplaced
        exact hreplaced
  | insertAccount v =>
      have hinsert := heval
      simp only [eval, evalInsertAccount] at hinsert
      obtain ⟨row, hrow, hinsert⟩ := bind_eq_ok.mp hinsert
      obtain ⟨hid, hinsert⟩ := guard_eq_ok.mp hinsert
      obtain ⟨hname, hinsert⟩ := guard_eq_ok.mp hinsert
      obtain rfl := Except.ok.inj hinsert
      have hclaims := hwrites _ (List.mem_singleton_self _)
      have hclaimed : Claim.accountName row.name ∈ claims :=
        hclaims (List.mem_cons_of_mem _ (List.mem_singleton_self _))
      have hname' : ¬ taken u.accountNames (some row.name) := by
        have hfree := h.freeName hclaimed (by simpa [taken] using hname)
        simpa [taken] using hfree
      refine ⟨?_, ⟨h.postings, fun x hx => ?_, fun name hx a ha haname => ?_, h.referenced⟩⟩
      · show evalInsertAccount env u b v = _
        rw [evalInsertAccount, hrow, ok_bind, if_neg (h.freeId (hclaims List.mem_cons_self) hid),
          if_neg hname']
      · show (u.apply (.insertAccount row)).account? x = (t.apply (.insertAccount row)).account? x
        rw [Tables.account?_insertAccount, Tables.account?_insertAccount, h.account x hx]
      · rcases List.mem_append.mp ha with hold | hnew
        · obtain ⟨a', ha', hname', hid'⟩ := h.named name hx a hold haname
          exact ⟨a', List.mem_append_left _ ha', hname', hid'⟩
        · exact ⟨a, List.mem_append_right _ hnew, haname, rfl⟩

/-! ## direct statements -/

namespace Direct

variable {id : Uuid} {set : AccountRow → AccountColumns} {old row : AccountRow}

/-- A direct statement of another session. -/
theorem eval_spares {statement : Direct} {effect : DirectEffect}
    (hclaims : ∀ c ∈ effect.claims, c ∉ claims) (heval : statement.eval env t b = .ok effect) :
    t.Agree claims (t.changeAll effect.changes) := by
  rcases eval_cases heval with rfl | ⟨id, set, old, row, -, hrenews, rfl⟩ |
    ⟨id, old, -, hremoves, rfl⟩
  · exact .refl claims t
  · have hid := Tables.id_of_account? hrenews.found
    have hfree : row.id = id ∨ row.id ∉ t.accountIds := by
      rw [← hid]
      exact hrenews.freeId
    simp only [renewal, List.mem_cons, List.not_mem_nil, or_false, forall_eq_or_imp, forall_eq]
      at hclaims
    obtain ⟨hold, -, hrow, hname⟩ := hclaims
    refine ⟨Tables.Frame.refl claims _, fun x hx => ?_, fun name hx a ha haname => ?_,
      (Tables.Agree.refl claims t).referenced⟩
    · have hne : x ≠ row.id := fun heq => hrow (heq ▸ hx)
      have hne' : x ≠ id := fun heq => hold (hid ▸ heq ▸ hx)
      show (t.change (.replaceAccount id row)).account? x = _
      rw [Tables.account?_replaceAccount hrenews.found hfree, if_neg hne, if_neg hne']
    · obtain ⟨a₀, ha₀, rfl⟩ := List.mem_map.mp ha
      split at haname
      · exact absurd hx (haname ▸ hname)
      · exact ⟨a₀, ha₀, haname, by rw [if_neg ‹_›]⟩
  · have hid := Tables.id_of_account? hremoves.found
    have hold := hclaims _ List.mem_cons_self
    refine ⟨Tables.Frame.refl claims _, fun x hx => ?_, fun name _ a ha haname => ?_,
      (Tables.Agree.refl claims t).referenced⟩
    · have hne : x ≠ id := fun heq => hold (hid ▸ heq ▸ hx)
      show (t.change (.deleteAccount id)).account? x = _
      rw [Tables.account?_deleteAccount, if_neg hne]
    · exact ⟨a, (List.mem_filter.mp ha).1, haname, rfl⟩

theorem Renews.agree (hrenews : Renews env t b id set old row) (h : t.Agree claims u)
    (hclaims : (renewal b id old row).claims ⊆ claims) : Renews env u b id set old row := by
  simp only [renewal, List.cons_subset] at hclaims
  obtain ⟨hold, -, hrow, hname, -⟩ := hclaims
  have hid := Tables.id_of_account? hrenews.found
  refine ⟨(h.account id (hid ▸ hold)).trans hrenews.found, hrenews.passed,
    hrenews.freeId.imp_right (h.freeId hrow), hrenews.freeName.imp_right (h.freeName hname),
    hrenews.unreferenced.imp_right fun hnone e he heq => ?_⟩
  obtain ⟨e', he', heq'⟩ := h.referenced old.id hold e he heq
  exact hnone e' he' heq'

theorem Removes.agree (hremoves : Removes t id old) (h : t.Agree claims u)
    (hclaims : (removal b id old).claims ⊆ claims) : Removes u id old := by
  have hold := hclaims List.mem_cons_self
  have hid := Tables.id_of_account? hremoves.found
  refine ⟨(h.account id (hid ▸ hold)).trans hremoves.found, fun e he heq => ?_⟩
  obtain ⟨e', he', heq'⟩ := h.referenced old.id hold e he heq
  exact hremoves.unreferenced e' he' heq'

/-- A direct statement of the session itself that has found its row. -/
theorem eval_agree {statement : Direct} {effect : DirectEffect} (h : t.Agree claims u)
    (hclaims : effect.claims ⊆ claims) (hfound : effect.changes ≠ [])
    (heval : statement.eval env t b = .ok effect) : statement.eval env u b = .ok effect ∧
      (t.changeAll effect.changes).Agree claims (u.changeAll effect.changes) := by
  rcases eval_cases heval with rfl | ⟨id, set, old, row, rfl, hrenews, rfl⟩ |
    ⟨id, old, rfl, hremoves, rfl⟩
  · exact absurd rfl hfound
  · refine ⟨(hrenews.agree h hclaims).eval, ?_⟩
    have hid := Tables.id_of_account? hrenews.found
    simp only [renewal, List.cons_subset] at hclaims
    exact h.replaceAccount hrenews.found (hid ▸ hclaims.1) hclaims.2.2.1 (hid ▸ hrenews.freeId)
  · exact ⟨(hremoves.agree h hclaims).eval, h.deleteAccount id⟩

end Direct

end

end PgLedger
