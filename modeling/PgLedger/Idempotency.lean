import Mathlib.Data.Char
import Mathlib.Data.List.Lex
import Mathlib.Data.Prod.Lex
import PgLedger.Spi

/-!
# PgLedger.Idempotency

Payload fingerprints.  The content of a request is laid out as a JSON
document, the postings sorted by the text of their account and amount; the
fingerprint is the hexadecimal digest of its bytes.  Stored fingerprints
come in two formats: with a version field and the prefix `v1:`, and the older
one without either.
-/

namespace PgLedger

/-- A request of the posting engine. -/
structure PostRequest where
  postings : List LedgerPosting
  reference : Option Str
  idempotencyKey : Option Str
  eventAt : Option Timestamp
  metadata : Option Json
  reversesTransactionId : Option Uuid

def fingerprintVersion : Nat := 1

structure PostingFingerprint where
  accountId : Str
  amount : Str
deriving DecidableEq

namespace PostingFingerprint

/-- The key of `sort_by`: the account, then the amount. -/
def sortKey (p : PostingFingerprint) : Str ×ₗ Str := toLex (p.accountId, p.amount)

def json (p : PostingFingerprint) : Json :=
  .object [("account_id".toList, .string p.accountId), ("amount".toList, .string p.amount)]

end PostingFingerprint

section
variable (crates : Crates)

def LedgerPosting.fingerprint (posting : LedgerPosting) : PostingFingerprint :=
  ⟨crates.uuidToString posting.accountId, posting.amount.canonical⟩

def PostRequest.fingerprints (request : PostRequest) : List PostingFingerprint :=
  (request.postings.map (·.fingerprint crates)).insertionSort fun p q => p.sortKey ≤ q.sortKey

end

/-- An optional field; `None` is serialised as `null`. -/
def orNull {α : Type} (json : α → Json) : Option α → Json
  | none => .null
  | some a => json a

section
variable (crates : Crates) (request : PostRequest)

/-- The fields of `LegacyFingerprint`. -/
def legacyFields : List (Str × Json) :=
  [("postings".toList, .array ((request.fingerprints crates).map (·.json))),
    ("reference".toList, orNull .string request.reference),
    ("event_at".toList, orNull (fun time => .number (.ofInt time)) request.eventAt),
    ("metadata".toList, orNull id request.metadata),
    ("reverses_transaction_id".toList,
      orNull (fun id => .string (crates.pgUuidToString id)) request.reversesTransactionId)]

/-- The fields of `VersionedFingerprint`. -/
def versionedFields : List (Str × Json) :=
  ("version".toList, .number (.ofInt fingerprintVersion)) :: legacyFields crates request

structure PayloadHashes where
  current : Str
  legacy : Str

def digest (value : Json) : Except String Str :=
  (crates.toVec value).map fun bytes => crates.hexEncode (crates.sha256 bytes)

def tryPayloadHashes : Except String PayloadHashes := do
  let current ← digest crates (.object (versionedFields crates request))
  let legacy ← digest crates (.object (legacyFields crates request))
  .ok ⟨'v' :: natText fingerprintVersion ++ ':' :: current, legacy⟩

def payloadHashes : Except PgError PayloadHashes :=
  (tryPayloadHashes crates request).mapError fun error =>
    failInternal ("could not serialize request: " ++ error)

end

end PgLedger
