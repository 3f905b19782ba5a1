import PgLedger.Json

/-!
# PgLedger.Crates

The third-party crates the extension calls: `uuid` and `pgrx` for the text
of identifiers, `serde_json`, `sha2` and `hex` for fingerprints.  Their code
is not part of the repository, so they are parameters, and what their
documentation promises is stated once, in `UuidText` for the identifiers and
in `Digests` for the fingerprints.
-/

namespace PgLedger

/-- A UUID: sixteen bytes, most significant first. -/
abbrev Uuid := BitVec 128

structure Crates where
  /-- `Display` of `uuid::Uuid`. -/
  uuidToString : Uuid → Str
  /-- `uuid::Uuid::parse_str`. -/
  uuidParseStr : Str → Option Uuid
  /-- `Display` of `pgrx::Uuid`. -/
  pgUuidToString : Uuid → Str
  /-- `serde_json::to_vec`. -/
  toVec : Json → Except String (List UInt8)
  /-- `Sha256::digest`. -/
  sha256 : List UInt8 → List UInt8
  /-- `hex::encode`. -/
  hexEncode : List UInt8 → Str

namespace Crates

variable {crates : Crates}

/-- A hexadecimal digit in lower case. -/
def isHexDigit (c : Char) : Bool := c.isDigit || (97 ≤ c.toNat && c.toNat ≤ 102)

/-- Identifiers are printed as hexadecimal digits and hyphens, and what was
printed is read back. -/
structure UuidText (crates : Crates) : Prop where
  parse_toString : ∀ id, crates.uuidParseStr (crates.uuidToString id) = some id
  toString_chars : ∀ id, ∀ c ∈ crates.uuidToString id, isHexDigit c = true ∨ c = '-'
  pgToString_injective : Function.Injective crates.pgUuidToString

/-- Serialisation of a document succeeds and loses nothing, the digest has no
collisions, and its hexadecimal form loses nothing either. -/
structure Digests (crates : Crates) : Prop where
  toVec_ok : ∀ v, ∃ bytes, crates.toVec v = .ok bytes
  toVec_injective : ∀ v w, crates.toVec v = crates.toVec w → v = w
  sha256_injective : Function.Injective crates.sha256
  hexEncode_injective : Function.Injective crates.hexEncode
  hexEncode_chars : ∀ bytes, ∀ c ∈ crates.hexEncode bytes, isHexDigit c = true

theorem UuidText.toString_injective (h : crates.UuidText) :
    Function.Injective crates.uuidToString := by
  intro a b hab
  have ha := h.parse_toString a
  rw [hab, h.parse_toString b, Option.some.injEq] at ha
  exact ha.symm

/-- No character outside of the printed alphabet stands in an identifier. -/
theorem UuidText.not_mem_toString (h : crates.UuidText) {c : Char} (hc : isHexDigit c = false)
    (hne : c ≠ '-') (id : Uuid) : c ∉ crates.uuidToString id := by
  intro hmem
  cases h.toString_chars id c hmem with
  | inl hhex =>
      simp only [hc] at hhex
      contradiction
  | inr heq => exact hne heq

end Crates

end PgLedger
