import Mathlib.Data.List.DropRight
import PgLedger.Asset.Sound

/-!
# PgLedger.Amount

Amounts: an unbounded number of smallest units of an asset, the arithmetic
on them, and their text.  `decimalToUnits` and `unitsToDecimal` translate
between units and decimals at the scale of the asset; `LedgerAmount.parse`
takes the decimal and the asset in either order.
-/

namespace PgLedger

/-- A value of the SQL type `ledger_amount`. -/
structure LedgerAmount where
  asset : LedgerAsset
  units : Int
deriving DecidableEq

/-! ## big integers -/

/-- The magnitude part of `BigInt::parse_bytes` at radix ten: an optional
plus sign, then digits with underscores between them. -/
def parseMagnitude (s : Str) : Option Nat :=
  let digits := if s.head? = some '+' ∧ s.tail.head? ≠ some '+' then s.tail else s
  if digits = [] ∨ digits.head? = some '_' ∨ ¬ digits.all (fun c => c.isDigit || c == '_') then none
  else some (Nat.ofDigitChars 10 (digits.filter (· ≠ '_')) 0)

/-- `BigInt::parse_bytes` at radix ten. -/
def parseBigInt (s : Str) : Option Int :=
  if s.head? = some '-' then
    if s.tail.head? = some '+' then none else (parseMagnitude s.tail).map fun n => -(n : Int)
  else (parseMagnitude s).map Int.ofNat

def parseInteger (input : Str) : Except String Int :=
  match parseBigInt input with
  | some i => .ok i
  | none => .error "units must be an integer"

/-! ## decimals -/

/-- The text after a leading sign. -/
def stripSign (input : Str) : Str :=
  if input.head? = some '+' ∨ input.head? = some '-' then input.tail else input

def looksNumeric (input : Str) : Bool :=
  stripSign input ≠ [] && (stripSign input).all fun c => c.isDigit || c == '.'

def plainDecimalError : String := "amount must be a plain signed decimal"

/-- The units of an unsigned decimal. -/
def magnitudeToUnits (unsigned : Str) (scale : UInt8) : Except String Int :=
  let pieces := unsigned.splitOn '.'
  let whole := pieces.headD []
  let fraction := pieces.tail.headD []
  if pieces.tail.tail ≠ [] ∨ whole = [] ∨ ¬ whole.all Char.isDigit ∨
      ¬ fraction.all Char.isDigit then
    .error plainDecimalError
  else if scale.toNat < fraction.length then
    .error ("amount has more than " ++ toString scale ++ " fractional digits for this asset")
  else parseInteger (whole ++ fraction ++ List.replicate (scale.toNat - fraction.length) '0')

def decimalToUnits (input : Str) (scale : UInt8) : Except String Int :=
  if input.head? = some '-' then (magnitudeToUnits input.tail scale).map fun units => -units
  else magnitudeToUnits (if input.head? = some '+' then input.tail else input) scale

/-- Drop the zeros at the end, and then a point that is left there. -/
def trimFraction (output : Str) : Str :=
  let output := output.rdropWhile (· == '0')
  if output.getLast? = some '.' then output.dropLast else output

/-- Put a point in front of the last `scale` digits. -/
def placePoint (digits : Str) (scale : Nat) : Str :=
  if digits.length ≤ scale then
    '0' :: '.' :: (List.replicate (scale - digits.length) '0' ++ digits)
  else
    let point := digits.length - scale
    digits.take point ++ '.' :: digits.drop point

def unitsToDecimal (units : Int) (scale : UInt8) : Str :=
  if units = 0 then ['0']
  else
    let sign : Str := if units < 0 then ['-'] else []
    let digits := natText units.natAbs
    if scale = 0 then sign ++ digits
    else sign ++ trimFraction (placePoint digits scale.toNat)

/-! ## the SQL functions -/

namespace LedgerAmount

def canonical (amount : LedgerAmount) : Str :=
  unitsToDecimal amount.units amount.asset.scale ++ ' ' :: amount.asset.canonical

/-- The number first, in whichever order the two tokens were written. -/
def orderTokens (first second : Str) : Except String (Str × Str) :=
  match looksNumeric first, looksNumeric second with
  | true, false => .ok (first, second)
  | false, true => .ok (second, first)
  | _, _ => .error "expected exactly one decimal amount and one asset"

def parse (input : Str) : Except String LedgerAmount :=
  if 640 < utf8Len input then .error "ledger amount input exceeds 640 bytes"
  else match splitAsciiWhitespace input with
    | [first, second] => do
        let (number, assetText) ← orderTokens first second
        let asset ← LedgerAsset.parse assetText
        let units ← decimalToUnits number asset.scale
        .ok ⟨asset, units⟩
    | _ => .error "expected '<amount> <asset>' or '<asset> <amount>'"

/-- `ledger_amount_zero`. -/
def zero (asset : LedgerAsset) : LedgerAmount := ⟨asset, 0⟩

/-- `ledger_amount_from_units`, on the text of the `numeric`. -/
def fromUnits (units : Str) (asset : LedgerAsset) : Except String LedgerAmount :=
  (parseInteger units).map fun units => ⟨asset, units⟩

def requireSameAsset (left right : LedgerAmount) : Except String Unit :=
  if left.asset = right.asset then .ok ()
  else .error ("ledger asset mismatch: " ++ String.ofList left.asset.canonical ++ " and " ++
    String.ofList right.asset.canonical)

/-- `checked_add`, and `ledger_add` behind it. -/
def checkedAdd (left right : LedgerAmount) : Except String LedgerAmount := do
  left.requireSameAsset right
  .ok ⟨left.asset, left.units + right.units⟩

/-- `ledger_subtract`. -/
def checkedSub (left right : LedgerAmount) : Except String LedgerAmount := do
  left.requireSameAsset right
  .ok ⟨left.asset, left.units - right.units⟩

/-- `ledger_negate`. -/
def negate (amount : LedgerAmount) : LedgerAmount := ⟨amount.asset, -amount.units⟩

@[simp] theorem asset_negate (amount : LedgerAmount) : amount.negate.asset = amount.asset := rfl

@[simp] theorem units_negate (amount : LedgerAmount) : amount.negate.units = -amount.units := rfl

@[simp] theorem negate_negate (amount : LedgerAmount) : amount.negate.negate = amount := by
  cases amount
  simp [negate]

/-- Amounts can be combined exactly when they are of one asset. -/
theorem requireSameAsset_eq_ok {left right : LedgerAmount} :
    left.requireSameAsset right = .ok () ↔ left.asset = right.asset := by
  unfold requireSameAsset
  split <;> simp_all

/-- Amounts add exactly when they are of one asset. -/
theorem checkedAdd_eq_ok {left right total : LedgerAmount} : left.checkedAdd right = .ok total ↔
    left.asset = right.asset ∧ total = ⟨left.asset, left.units + right.units⟩ := by
  rw [checkedAdd, bind_eq_ok]
  constructor
  · rintro ⟨_, hasset, h⟩
    exact ⟨requireSameAsset_eq_ok.mp hasset, (Except.ok.inj h).symm⟩
  · rintro ⟨hasset, rfl⟩
    exact ⟨(), requireSameAsset_eq_ok.mpr hasset, rfl⟩

end LedgerAmount

end PgLedger
