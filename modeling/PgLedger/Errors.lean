/-!
# PgLedger.Errors

The errors a call can end with: a PostgreSQL error class and a message.
-/

namespace PgLedger

/-- The error classes that the extension and the executor raise. -/
inductive SqlState where
  /-- `22023` -/
  | invalidParameterValue
  /-- `23514` -/
  | checkViolation
  /-- `23503` -/
  | foreignKeyViolation
  /-- `23505` -/
  | uniqueViolation
  /-- `22004` -/
  | nullValueNotAllowed
  /-- `22003` -/
  | numericValueOutOfRange
  /-- `XX000` -/
  | internalError
  /-- `40001` -/
  | serializationFailure
  /-- `55000` -/
  | objectNotInPrerequisiteState
deriving DecidableEq, Repr

structure PgError where
  state : SqlState
  message : String
deriving DecidableEq, Repr

def failParameter (reason : String) : PgError := ⟨.invalidParameterValue, reason⟩

def failCheck (reason : String) : PgError := ⟨.checkViolation, reason⟩

def failForeignKey (reason : String) : PgError := ⟨.foreignKeyViolation, reason⟩

def failNull (reason : String) : PgError := ⟨.nullValueNotAllowed, reason⟩

def failInternal (reason : String) : PgError := ⟨.internalError, reason⟩

def failSerialization (reason : String) : PgError := ⟨.serializationFailure, reason⟩

/-! ## errors of the executor -/

/-- A violated `PRIMARY KEY` or `UNIQUE` constraint. -/
def uniqueViolation (constraint : String) : PgError :=
  ⟨.uniqueViolation, "duplicate key value violates unique constraint \"" ++ constraint ++ "\""⟩

/-- A violated `REFERENCES` constraint. -/
def foreignKeyViolation (table constraint : String) : PgError :=
  ⟨.foreignKeyViolation, "insert or update on table \"" ++ table ++
    "\" violates foreign key constraint \"" ++ constraint ++ "\""⟩

/-- A violated `CHECK` constraint. -/
def checkViolation (table constraint : String) : PgError :=
  ⟨.checkViolation, "new row for relation \"" ++ table ++ "\" violates check constraint \"" ++
    constraint ++ "\""⟩

end PgLedger
