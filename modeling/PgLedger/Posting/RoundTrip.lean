import PgLedger.Amount.RoundTrip
import PgLedger.Crates.Concrete
import PgLedger.Posting

/-!
# PgLedger.Posting.RoundTrip

Postings and amounts of short-form assets read back from their own text,
up to the size limit of the amount reader: the reader refuses more than 640
bytes, and arithmetic can build amounts that print longer than that.
-/

namespace PgLedger

variable {crates : Crates}

namespace LedgerPosting

/-- A posting reads back exactly when its amount does: the bar is found
again, because no printed identifier contains one. -/
theorem parse_canonical_iff (h : crates.UuidText) (posting : LedgerPosting) :
    parse crates (canonical crates posting) = .ok posting ↔
      LedgerAmount.parse posting.amount.canonical = .ok posting.amount := by
  have hbar : '|' ∉ crates.uuidToString posting.accountId :=
    h.not_mem_toString (by decide) (by decide) posting.accountId
  have hparse : parse crates (canonical crates posting) =
      (LedgerAmount.parse posting.amount.canonical >>= fun amount =>
        .ok ⟨posting.accountId, amount⟩) := by
    rw [parse, canonical, splitOnce_append hbar]
    simp only [h.parse_toString posting.accountId]
  rw [hparse, bind_eq_ok]
  constructor
  · intro hok
    obtain ⟨amount, hamount, heq⟩ := hok
    have hsame : amount = posting.amount := congrArg LedgerPosting.amount (Except.ok.inj heq)
    rw [hsame] at hamount
    exact hamount
  · intro hamount
    exact ⟨posting.amount, hamount, rfl⟩

end LedgerPosting

/-- Amounts of an asset that was read from a short form, and postings of
them, read back exactly when the text of the amount has at most 640 bytes. -/
theorem amount_posting_roundtrip_iff (hcrates : crates.UuidText) {input : Str} {asset : LedgerAsset}
    (hshort : "v1|".toList.isPrefixOf? input = none) (hparse : LedgerAsset.parse input = .ok asset)
    (units : Int) (accountId : Uuid) :
    (LedgerAmount.parse (LedgerAmount.canonical ⟨asset, units⟩) = .ok ⟨asset, units⟩ ↔
      utf8Len (LedgerAmount.canonical ⟨asset, units⟩) ≤ 640) ∧
    (LedgerPosting.parse crates (LedgerPosting.canonical crates ⟨accountId, asset, units⟩) =
        .ok ⟨accountId, asset, units⟩ ↔
      utf8Len (LedgerAmount.canonical ⟨asset, units⟩) ≤ 640) := by
  have hform : asset.ShortForm := shortForm_of_parse hshort hparse
  have hamount : LedgerAmount.parse (LedgerAmount.canonical ⟨asset, units⟩) = .ok ⟨asset, units⟩ ↔
      utf8Len (LedgerAmount.canonical ⟨asset, units⟩) ≤ 640 :=
    LedgerAmount.parse_canonical_iff hform
  constructor
  · exact hamount
  · rw [LedgerPosting.parse_canonical_iff hcrates]
    exact hamount

/-- The currency without minor units that `JPY` is read as. -/
def jpy : LedgerAsset where
  version := 1
  kind := .fiat
  symbol := "JPY".toList
  network := none
  scale := 0
  wellFormed := ⟨rfl, by decide, by decide, trivial⟩

def usd : LedgerAsset where
  version := 1
  kind := .fiat
  symbol := "USD".toList
  network := none
  scale := 2
  wellFormed := ⟨rfl, by decide, by decide, trivial⟩

theorem amount_posting_roundtrip_jpy :
    (LedgerAmount.parse (LedgerAmount.canonical ⟨jpy, 25⟩) = .ok ⟨jpy, 25⟩ ↔
      utf8Len (LedgerAmount.canonical ⟨jpy, 25⟩) ≤ 640) ∧
    (LedgerPosting.parse .concrete (LedgerPosting.canonical .concrete ⟨0x101#128, jpy, 25⟩) =
        .ok ⟨0x101#128, jpy, 25⟩ ↔
      utf8Len (LedgerAmount.canonical ⟨jpy, 25⟩) ≤ 640) :=
  amount_posting_roundtrip_iff Crates.concrete_uuidText
    (show "v1|".toList.isPrefixOf? "JPY".toList = none by decide)
    (show LedgerAsset.parse "JPY".toList = .ok jpy by decide) 25 0x101#128

/-- Without minor units, the text of an amount is at least as long as its
number. -/
theorem lt_utf8Len_canonical {asset : LedgerAsset} (hscale : asset.scale = 0) {k n : Nat}
    (hk : 0 < k) (hn : 10 ^ k ≤ n) : k < utf8Len (LedgerAmount.canonical ⟨asset, n⟩) := by
  have hpos : 0 < 10 ^ k := Nat.pow_pos (by decide)
  have hne : (n : Int) ≠ 0 := by omega
  have hdigits : k < (natText n).length := by
    rw [← Nat.not_le, Nat.length_toDigits_le_iff (by decide) hk]
    omega
  have hascii : Ascii (natText n) := fun c hc =>
    ascii_of_symbolChar (symbolChar_of_isDigit (natText_isDigit hc))
  have hdecimal : unitsToDecimal n asset.scale = natText n := by
    rw [unitsToDecimal, if_neg hne, hscale, if_pos rfl, if_neg (by omega), List.nil_append,
      Int.natAbs_natCast]
  rw [LedgerAmount.canonical, hdecimal, utf8Len_append, utf8Len_eq_length hascii]
  omega

/-- Ten to the power of 640 yen are an amount, but their text is too long. -/
theorem longAmount_not_roundtrip :
    ¬ ∀ (asset : LedgerAsset) (units : Int),
      (∃ input, "v1|".toList.isPrefixOf? input = none ∧ LedgerAsset.parse input = .ok asset) →
        LedgerAmount.parse (LedgerAmount.canonical ⟨asset, units⟩) = .ok ⟨asset, units⟩ := by
  intro h
  have hread := h jpy (10 ^ 640 : Nat) ⟨"JPY".toList, by decide, by decide⟩
  have hform : jpy.ShortForm := by decide
  have hlen : utf8Len (LedgerAmount.canonical ⟨jpy, (10 ^ 640 : Nat)⟩) ≤ 640 :=
    (LedgerAmount.parse_canonical_iff hform).mp hread
  have hlong : 640 < utf8Len (LedgerAmount.canonical ⟨jpy, (10 ^ 640 : Nat)⟩) :=
    lt_utf8Len_canonical rfl (by decide) le_rfl
  exact absurd hlen (Nat.not_le.mpr hlong)

end PgLedger
