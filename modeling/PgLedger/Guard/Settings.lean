import PgLedger.Guard
import PgLedger.Transaction.Spec

/-!
# PgLedger.Guard.Settings

What the public functions do to `pg_ledger.internal_posting`.  Only `post` sets
it, after the last check that can end in a replay, and it sets it back before
it returns.  Between the two it can fail, but then it does not return.

`Spi.Leaves` is about every way a program can take, whatever its statements
return.
-/

namespace PgLedger

/-- The setting after a statement. -/
def Stmt.setting : Stmt → Option Str → Option Str
  | .setInternalPosting value, _ => some value
  | _, setting => setting

/-- Only `set_config` changes the setting. -/
theorem Stmt.eval_setting {env : Env} {t : Tables} {b : Backend} {s : Stmt}
    {effect : Effect s.Result} (h : s.eval env t b = .ok effect) :
    effect.backend.internalPosting = s.setting b.internalPosting := by
  cases s with
  | insertTransaction v =>
      rcases evalInsertTransaction_eq_ok h with ⟨-, rfl⟩ | ⟨row, -, -, -, rfl⟩
      · rfl
      · rfl
  | updateAccount balance version id =>
      rcases evalUpdateAccount_eq_ok h with ⟨-, rfl⟩ | ⟨row, row', -, -, rfl⟩
      · rfl
      · rfl
  | insertEntry v =>
      obtain ⟨row, -, -, -, rfl⟩ := evalInsertEntry_eq_ok h
      rfl
  | insertAccount v =>
      obtain ⟨row, -, -, -, -, rfl⟩ := evalInsertAccount_eq_ok h
      rfl
  | clockTimestamp | lockTransaction id | findReversal id | reversalPostings id | resolveKey key
  | lockAccount id | setInternalPosting value =>
      obtain rfl := Except.ok.inj h
      rfl

/-- A statement that does not touch the setting. -/
def Stmt.KeepsSetting (s : Stmt) : Prop := ∀ setting, s.setting setting = setting

namespace Spi

variable {α β : Type} {Q : Option Str → Prop} {setting : Option Str}

/-- A program that begins with this setting and returns, returns with a setting
of the kind `Q`. -/
def Leaves (Q : Option Str → Prop) : Option Str → Spi α → Prop
  | setting, .pure _ => Q setting
  | _, .fail _ => True
  | setting, .stmt s k => ∀ r, Leaves Q (s.setting setting) (k r)

/-- **Sequencing**: the second part begins with the setting that the first
leaves. -/
theorem Leaves.bind {x : Spi α} {f : α → Spi β}
    (h : x.Leaves (fun setting => ∀ a, (f a).Leaves Q setting) setting) :
    (x >>= f).Leaves Q setting := by
  induction x generalizing setting with
  | pure a => exact h a
  | fail e => trivial
  | stmt s k ih => exact fun r => ih r (h r)

/-- What keeps the setting leaves it as it was. -/
theorem Leaves.of_keeps {x : Spi α} (h : x.All Stmt.KeepsSetting) (hQ : Q setting) :
    x.Leaves Q setting := by
  induction x with
  | pure a => exact hQ
  | fail e => trivial
  | stmt s k ih =>
      intro r
      rw [h.1 setting]
      exact ih r (h.2 r)

/-- What keeps the setting can come first. -/
theorem Leaves.bind_keeps {x : Spi α} {f : α → Spi β} (hx : x.All Stmt.KeepsSetting)
    (hf : ∀ a, (f a).Leaves Q setting) : (x >>= f).Leaves Q setting :=
  .bind (.of_keeps hx hf)

theorem Leaves.bind_send {s : Stmt} {f : s.Result → Spi β}
    (h : ∀ r, (f r).Leaves Q (s.setting setting)) : (send s >>= f).Leaves Q setting := h

/-- A program that is interrupted does not return. -/
theorem Leaves.interrupt {x : Spi α} (h : x.Leaves Q setting) (e : PgError) (n : Nat) :
    (x.interrupt e n).Leaves Q setting := by
  induction x generalizing setting n with
  | pure a =>
      cases n with
      | zero => exact h
      | succ n => exact h
  | fail e' =>
      cases n with
      | zero => trivial
      | succ n => trivial
  | stmt s k ih =>
      cases n with
      | zero => trivial
      | succ n => exact fun r => ih r (h r) n

end Spi

/-! ## the engine -/

variable {crates : Crates}

/-- Inserting the transaction keeps the setting. -/
theorem insertTransaction_keeps (request : PostRequest) (createdAt : Timestamp) :
    (insertTransaction crates request createdAt).All Stmt.KeepsSetting := by
  refine .bind (.ofExcept _) fun hashes => .bind (.send fun _ => rfl) fun inserted => ?_
  cases inserted with
  | some id => trivial
  | none =>
      cases request.idempotencyKey with
      | none => trivial
      | some key =>
          refine .bind (.send fun _ => rfl) fun found => ?_
          cases found with
          | none => trivial
          | some found =>
              show (if _ then _ else _ : Spi InsertOutcome).All _
              split
              · trivial
              · trivial

/-- The guard of the balances is up. -/
def GuardUp (setting : Option Str) : Prop := setting ≠ some "on".toList

theorem guardUp_off : GuardUp (some "off".toList) := by
  unfold GuardUp
  decide

/-- The engine takes the guard down and puts it up again. -/
theorem postEntries_leaves (postings : List LedgerPosting) (transactionId : Uuid)
    (createdAt : Timestamp) (setting : Option Str) :
    (postEntries crates postings transactionId createdAt).Leaves GuardUp setting := by
  have hlock : (lockAccounts postings).All Stmt.KeepsSetting :=
    lockAccounts_all (fun _ _ => rfl) postings
  have hloop (accounts : AccountMap) :
      (postAll transactionId createdAt accounts postings).All Stmt.KeepsSetting :=
    postAll_all (fun _ _ _ _ => rfl) (fun _ _ => rfl) _ _ _ _
  refine .bind_keeps hlock fun accounts => ?_
  refine .bind_keeps (.ofExcept _) fun _ => .bind_send fun _ => ?_
  refine .bind_keeps (hloop accounts) fun _ => .bind_send fun _ => ?_
  exact guardUp_off

/-- The engine leaves the guard up, since it sets the setting to `off` at the
end. -/
theorem post_leaves (request : PostRequest) {setting : Option Str} (h : GuardUp setting) :
    (post crates request).Leaves GuardUp setting := by
  refine .bind_keeps (.ofExcept _) fun _ => ?_
  refine .bind_keeps (.send fun _ => rfl) fun createdAt => ?_
  refine .bind_keeps (insertTransaction_keeps request createdAt) fun outcome => ?_
  cases outcome with
  | replayed id => exact h
  | created id => exact postEntries_leaves _ id createdAt setting

/-- The lookup of a reversal keeps the setting. -/
theorem findExisting_keeps (transactionId : Uuid) :
    (findExisting crates transactionId).All Stmt.KeepsSetting := by
  refine .bind (.send fun _ => rfl) fun found => ?_
  cases found with
  | false => trivial
  | true => exact .send fun _ => rfl

/-- **The setting**: no public function returns with the guard down. -/
theorem Call.leaves (crates : Crates) (call : Call) {setting : Option Str} (h : GuardUp setting) :
    (call.program crates).Leaves GuardUp setting := by
  cases call with
  | createAccount name asset policy metadata => exact fun _ => h
  | posting call =>
      cases call with
      | post elements options => exact .bind_keeps (.ofExcept _) fun _ => post_leaves _ h
      | transfer fromAccount toAccount amount options =>
          rw [program, PostingCall.program, ledgerTransfer]
          split
          · trivial
          · split
            · trivial
            · exact post_leaves _ h
      | reverse transactionId options =>
          refine .bind_keeps (findExisting_keeps transactionId) fun existing => ?_
          cases existing with
          | some id => exact h
          | none => exact .bind_keeps (.send fun _ => rfl) fun _ => post_leaves _ h

end PgLedger
