import PgLedger.Runs
import PgLedger.Serial

/-!
# PgLedger.Concurrency

Posting calls that run at the same time, each in a transaction of its own, at
READ COMMITTED.  Every statement sees what is committed and what its own
transaction has written.  `FOR UPDATE` and `UPDATE` lock rows until the end of
the transaction, and an insert into a unique index waits for a transaction
that has inserted the same value and is still running.

Waiting is modelled by a statement that is not executed yet, so it reads what
is committed when the wait is over.  A session may be aborted at any time,
which is also how deadlocks end.
-/

namespace PgLedger

/-- What only one running transaction can have: a row that it has locked or
inserted, or a value that it has inserted into a unique index. -/
inductive Claim where
  | account (id : Uuid)
  | accountName (name : Str)
  | transaction (id : Uuid)
  | idempotencyKey (key : Str)
  | reversal (original : Uuid)
  | entry (id : Uuid)
  | entryVersion (accountId : Uuid) (version : Int64)
deriving DecidableEq

/-- The rows that `FOR UPDATE` returns and locks. -/
def Stmt.locks : (s : Stmt) → s.Result → List Claim
  | .lockTransaction id, found => if found then [.transaction id] else []
  | .lockAccount _, row => row.toList.map fun row => .account row.id
  | _, _ => []

/-- The row that is written, and the values it has in unique indexes.  The
references of a row are locked as well, but only against `FOR UPDATE`, which
the posting calls have on those rows themselves. -/
def Write.claims : Write → List Claim
  | .insertAccount row => [.account row.id, .accountName row.name]
  | .updateAccount row => [.account row.id]
  | .insertTransaction row => .transaction row.id ::
      (row.idempotencyKey.toList.map .idempotencyKey ++
        row.reversesTransactionId.toList.map .reversal)
  | .insertEntry row => [.entry row.id, .entryVersion row.accountId row.accountVersion]

/-- A session in the middle of its call: what is left of its program, what it
has written, and what it holds. -/
structure LocalState where
  program : Spi Uuid
  writes : List Write
  backend : Backend
  claims : List Claim

namespace LocalState

/-- The session after a statement, with the rest of its program. -/
def advance (l : LocalState) {s : Stmt} (k : s.Result → Spi Uuid) (effect : Effect s.Result) :
    LocalState where
  program := k effect.result
  writes := l.writes ++ effect.writes
  backend := effect.backend
  claims := l.claims ++ (s.locks effect.result ++ effect.writes.flatMap (·.claims))

/-- The next statement, on the committed tables. -/
def next (env : Env) (t : Tables) (l : LocalState) : Option LocalState :=
  match l.program with
  | .pure _ => some l
  | .fail _ => none
  | .stmt s k =>
      match s.eval env (t.applyAll l.writes) l.backend with
      | .error _ => none
      | .ok effect => some (l.advance k effect)

def finished (l : LocalState) : Option Uuid :=
  match l.program with
  | .pure id => some id
  | _ => none

end LocalState

section
variable {ι : Type} (crates : Crates) (calls : ι → PostingCall × Session)

/-- Session `i` runs the call `calls i`. -/
def concurrentCalls : Serial.System ι Tables LocalState Claim Uuid where
  start i := ⟨(calls i).1.program crates, [], (calls i).2.backend, []⟩
  next i := LocalState.next (calls i).2.env
  claims := (·.claims)
  finished := LocalState.finished
  publish t l := t.applyAll l.writes

variable [Fintype ι] [DecidableEq ι]

/-- The sessions at the end of a schedule that starts on the tables `t`. -/
def runConcurrently (t : Tables) (schedule : List (ι × Serial.Action)) :
    Serial.World ι Tables LocalState Uuid :=
  Serial.runSchedule (concurrentCalls crates calls) t schedule

end

end PgLedger
