import PgLedger.Amount.Grammar
import PgLedger.Export

/-!
# PgLedger.Amount.Arithmetic

Arithmetic on amounts, from text to text.  The units are integers of any size,
so the functions compute with the denoted numbers exactly; what they print is
the canonical numeral of the exact result at the asset of the arguments.
-/

namespace PgLedger

/-! ## functions on text -/

/-- A function of two amounts, applied to text and printed. -/
def onText (function : LedgerAmount → LedgerAmount → Except String LedgerAmount)
    (left right : Str) : Except String Str := do
  let left ← LedgerAmount.parse left
  let right ← LedgerAmount.parse right
  let result ← function left right
  .ok result.canonical

/-- `ledger_negate` of a text, printed. -/
def negateText (value : Str) : Except String Str := do
  let value ← LedgerAmount.parse value
  .ok value.negate.canonical

/-- The text of a number of an asset. -/
def Prints (text : Str) (asset : LedgerAsset) (number : ℚ) : Prop :=
  ∃ d : Numeral, d.Canonical ∧ d.value = number ∧ text = d.text ++ ' ' :: asset.canonical

/-- An amount is printed as the canonical numeral of its number. -/
theorem prints_iff {amount : LedgerAmount} {text : Str} :
    Prints text amount.asset amount.number ↔ text = amount.canonical := by
  obtain ⟨d, hd, hvalue, hcanonical⟩ := unitsToDecimal_numeral amount.units amount.asset.scale
  constructor
  · rintro ⟨e, he, hnumber, rfl⟩
    have hsame : d.value = e.value := hvalue.trans hnumber.symm
    obtain ⟨hle, heq⟩ := hcanonical.shortest hsame
    obtain ⟨hge, -⟩ := he.shortest hsame.symm
    rw [LedgerAmount.canonical, ← hd, heq (Nat.le_antisymm hle hge)]
  · rintro rfl
    exact ⟨d, hcanonical, hvalue, by rw [LedgerAmount.canonical, hd]⟩

/-- What is read from an input is the number its numeral denotes. -/
theorem LedgerAmount.parse_eq_ok_iff {input : Str} {amount : LedgerAmount} :
    LedgerAmount.parse input = .ok amount ↔
      ∃ d, AmountInput input amount.asset d ∧ amount.number = d.value := by
  have hnumber (d : Numeral) : (amount.units : ℚ) = d.value * 10 ^ amount.asset.scale.toNat ↔
      amount.number = d.value := by
    rw [LedgerAmount.number, div_eq_iff (pow_scale_pos _).ne']
  rw [LedgerAmount.parse_eq_ok]
  simp only [hnumber]

/-- Every input of the grammar is read. -/
theorem AmountInput.parse {input : Str} {asset : LedgerAsset} {d : Numeral}
    (h : AmountInput input asset d) :
    ∃ units, LedgerAmount.parse input = .ok ⟨asset, units⟩ ∧
      LedgerAmount.number ⟨asset, units⟩ = d.value := by
  obtain ⟨units, hunits⟩ := exists_decimalToUnits d h.places
  obtain ⟨e, htext, -, hvalue⟩ := decimalToUnits_eq_ok.mp hunits
  obtain rfl := Numeral.text_injective htext
  have hread : LedgerAmount.parse input = .ok ⟨asset, units⟩ :=
    LedgerAmount.parse_eq_ok.mpr ⟨e, h, hvalue⟩
  refine ⟨units, hread, ?_⟩
  rw [LedgerAmount.number, hvalue, mul_div_cancel_right₀ _ (pow_scale_pos _).ne']

/-- What units stand for adds, subtracts and negates with them. -/
theorem LedgerAmount.number_units (asset : LedgerAsset) (x y : Int) :
    LedgerAmount.number ⟨asset, x + y⟩ =
        LedgerAmount.number ⟨asset, x⟩ + LedgerAmount.number ⟨asset, y⟩ ∧
      LedgerAmount.number ⟨asset, x - y⟩ =
        LedgerAmount.number ⟨asset, x⟩ - LedgerAmount.number ⟨asset, y⟩ ∧
      LedgerAmount.number ⟨asset, -x⟩ = -LedgerAmount.number ⟨asset, x⟩ := by
  simp only [LedgerAmount.number]
  push_cast
  exact ⟨add_div _ _ _, sub_div _ _ _, neg_div _ _⟩

/-! ## whole numbers -/

/-- What is left when the plus sign is taken off. -/
theorem parseMagnitude_unsigned (d : Numeral) :
    parseMagnitude d.unsigned = (if d.fraction = none then some (digitsValue d.whole) else none) ∧
      parseMagnitude ('+' :: d.unsigned) = parseMagnitude d.unsigned := by
  have hplus := d.head?_unsigned_ne (c := '+') (by decide)
  have hunderscore := d.head?_unsigned_ne (c := '_') (by decide)
  have hne : d.unsigned ≠ [] := by simp [Numeral.unsigned, d.wholeNe]
  have hkept : (if d.unsigned.head? = some '+' ∧ d.unsigned.tail.head? ≠ some '+'
      then d.unsigned.tail else d.unsigned) = d.unsigned := if_neg fun h => hplus h.1
  have hdropped : (if ('+' :: d.unsigned).head? = some '+' ∧
      ('+' :: d.unsigned).tail.head? ≠ some '+' then ('+' :: d.unsigned).tail
      else '+' :: d.unsigned) = d.unsigned := if_pos ⟨rfl, hplus⟩
  simp only [parseMagnitude, hkept, hdropped, and_true]
  cases hf : d.fraction with
  | none =>
      have hwhole : d.unsigned = d.whole := by simp [Numeral.unsigned, Numeral.pointPart, hf]
      have hall : d.whole.all (fun c => c.isDigit || c == '_') = true :=
        List.all_eq_true.mpr fun c hc => by rw [d.wholeDigits c hc, Bool.true_or]
      have hfilter : d.whole.filter (· ≠ '_') = d.whole := by
        rw [List.filter_eq_self]
        intro c hc
        have hund : c ≠ '_' := by rintro rfl; exact absurd (d.wholeDigits '_' hc) (by decide)
        simpa using hund
      rw [hwhole] at hne hunderscore ⊢
      rw [if_neg (by simp [hne, hunderscore, hall]), hfilter, if_pos rfl]
  | some f =>
      have hpoint : d.unsigned.all (fun c => c.isDigit || c == '_') = false := by
        rw [List.all_eq_false]
        exact ⟨'.', by simp [Numeral.unsigned, Numeral.pointPart, hf], by decide⟩
      rw [if_pos (by simp [hpoint]), if_neg (by simp)]

/-- A numeral without a point stands for its digits. -/
theorem magnitude_of_whole {d : Numeral} (h : d.fraction = none) :
    d.magnitude = digitsValue d.whole := by
  simp [Numeral.magnitude, Numeral.places, h]

/-- Of the numerals, the integer reader takes those without a point. -/
theorem parseInteger_text (d : Numeral) {i : Int} :
    parseInteger d.text = .ok i ↔ d.fraction = none ∧ (i : ℚ) = d.value := by
  obtain ⟨hmagnitude, hskip⟩ := parseMagnitude_unsigned d
  have hread : parseBigInt d.text = (parseMagnitude d.unsigned).map fun n : Nat =>
      if d.sign = some .minus then -(n : Int) else (n : Int) := by
    have hplus := d.head?_unsigned_ne (c := '+') (by decide)
    have hminus := d.head?_unsigned_ne (c := '-') (by decide)
    unfold Numeral.text parseBigInt
    cases d.sign with
    | none =>
        show (if d.unsigned.head? = some '-' then _ else _) = _
        rw [if_neg hminus]
        rfl
    | some sign =>
        cases sign with
        | plus =>
            show (if some '+' = some '-' then _ else _) = _
            rw [if_neg (by decide)]
            show (parseMagnitude ('+' :: d.unsigned)).map Int.ofNat = _
            rw [hskip]
            rfl
        | minus =>
            show (if some '-' = some '-' then _ else _) = _
            have htail : ((some Sign.minus).map Sign.char).toList ++ d.unsigned =
                '-' :: d.unsigned := rfl
            rw [if_pos rfl, htail, List.tail_cons, if_neg hplus]
            cases parseMagnitude d.unsigned with
            | none => rfl
            | some n => rfl
  rw [parseInteger, hread, hmagnitude]
  cases hf : d.fraction with
  | some f => simp
  | none =>
      rw [if_pos rfl, Option.map_some, Numeral.value, magnitude_of_whole hf]
      simp only [Except.ok.injEq, true_and]
      by_cases hsign : d.sign = some .minus
      · rw [if_pos hsign, if_pos hsign]
        exact_mod_cast eq_comm
      · rw [if_neg hsign, if_neg hsign]
        exact_mod_cast eq_comm

/-- `ledger_amount_from_units` takes the whole numbers that are written without
a point. -/
theorem LedgerAmount.fromUnits_eq_ok {d : Numeral} {asset : LedgerAsset} {amount : LedgerAmount} :
    LedgerAmount.fromUnits d.text asset = .ok amount ↔
      d.fraction = none ∧ amount.asset = asset ∧ (amount.units : ℚ) = d.value := by
  obtain ⟨asset', units⟩ := amount
  rw [fromUnits]
  cases hread : parseInteger d.text with
  | error e =>
      simp only [Except.map, reduceCtorEq, false_iff]
      rintro ⟨hfraction, -, hvalue⟩
      simp [(parseInteger_text d).mpr ⟨hfraction, hvalue⟩] at hread
  | ok i =>
      obtain ⟨hfraction, hvalue⟩ := (parseInteger_text d).mp hread
      simp only [Except.map, Except.ok.injEq, LedgerAmount.mk.injEq, hfraction, true_and,
        ← hvalue, Int.cast_inj]
      exact and_congr eq_comm eq_comm

/-- A numeral without a point denotes a whole number. -/
theorem exists_units {d : Numeral} (h : d.fraction = none) :
    ∃ units : Int, (units : ℚ) = d.value := by
  rw [Numeral.value, magnitude_of_whole h]
  split
  · exact ⟨-(digitsValue d.whole), by push_cast; rfl⟩
  · exact ⟨digitsValue d.whole, by push_cast; rfl⟩

/-! ## exactness -/

/-- A function that computes with the units of one asset. -/
structure OnUnits (function : LedgerAmount → LedgerAmount → Except String LedgerAmount)
    (units : Int → Int → Int) (number : ℚ → ℚ → ℚ) : Prop where
  eq_ok : ∀ left right result, function left right = .ok result ↔
    left.asset = right.asset ∧ result = ⟨left.asset, units left.units right.units⟩
  number_eq : ∀ asset x y, LedgerAmount.number ⟨asset, units x y⟩ =
    number (LedgerAmount.number ⟨asset, x⟩) (LedgerAmount.number ⟨asset, y⟩)

/-- Addition is addition of units, and of numbers. -/
theorem onUnits_checkedAdd : OnUnits LedgerAmount.checkedAdd (· + ·) (· + ·) where
  eq_ok _ _ _ := LedgerAmount.checkedAdd_eq_ok
  number_eq asset x y := (LedgerAmount.number_units asset x y).1

/-- Subtraction is subtraction of units, and of numbers. -/
theorem onUnits_checkedSub : OnUnits LedgerAmount.checkedSub (· - ·) (· - ·) where
  eq_ok left right result := by
    rw [LedgerAmount.checkedSub, bind_eq_ok]
    constructor
    · rintro ⟨_, hasset, h⟩
      exact ⟨LedgerAmount.requireSameAsset_eq_ok.mp hasset, (Except.ok.inj h).symm⟩
    · rintro ⟨hasset, rfl⟩
      exact ⟨(), LedgerAmount.requireSameAsset_eq_ok.mpr hasset, rfl⟩
  number_eq asset x y := (LedgerAmount.number_units asset x y).2.1

theorem OnUnits.onText_eq_ok {function : LedgerAmount → LedgerAmount → Except String LedgerAmount}
    {units : Int → Int → Int} {number : ℚ → ℚ → ℚ} (h : OnUnits function units number)
    (left right text : Str) : onText function left right = .ok text ↔
      ∃ asset d e, AmountInput left asset d ∧ AmountInput right asset e ∧
        Prints text asset (number d.value e.value) := by
  simp only [onText, bind_eq_ok, h.eq_ok]
  constructor
  · rintro ⟨⟨asset, x⟩, hleft, ⟨asset', y⟩, hright, result, ⟨hasset, rfl⟩, htext⟩
    obtain rfl : asset = asset' := hasset
    obtain ⟨d, hd, hx⟩ := LedgerAmount.parse_eq_ok_iff.mp hleft
    obtain ⟨e, he, hy⟩ := LedgerAmount.parse_eq_ok_iff.mp hright
    refine ⟨asset, d, e, hd, he, ?_⟩
    rw [← hx, ← hy, ← h.number_eq]
    exact prints_iff.mpr (Except.ok.inj htext).symm
  · rintro ⟨asset, d, e, hd, he, hprints⟩
    obtain ⟨x, hleft, hx⟩ := hd.parse
    obtain ⟨y, hright, hy⟩ := he.parse
    rw [← hx, ← hy, ← h.number_eq] at hprints
    have htext := prints_iff.mp hprints
    exact ⟨_, hleft, _, hright, _, ⟨rfl, rfl⟩, by rw [htext]⟩

/-- Negation from text to text. -/
theorem negateText_eq_ok (value text : Str) : negateText value = .ok text ↔
    ∃ asset d, AmountInput value asset d ∧ Prints text asset (-d.value) := by
  simp only [negateText, bind_eq_ok]
  constructor
  · rintro ⟨⟨asset, x⟩, hread, htext⟩
    obtain ⟨d, hd, hx⟩ := LedgerAmount.parse_eq_ok_iff.mp hread
    refine ⟨asset, d, hd, ?_⟩
    rw [← hx, ← (LedgerAmount.number_units asset x 0).2.2]
    exact prints_iff.mpr (Except.ok.inj htext).symm
  · rintro ⟨asset, d, hd, hprints⟩
    obtain ⟨x, hread, hx⟩ := hd.parse
    rw [← hx, ← (LedgerAmount.number_units asset x 0).2.2] at hprints
    have htext := prints_iff.mp hprints
    exact ⟨_, hread, by rw [htext]; rfl⟩

/-- Units from text to text: whole numbers, divided by the size of the unit. -/
theorem fromUnitsText_eq_ok (d : Numeral) (asset : LedgerAsset) (text : Str) :
    (LedgerAmount.fromUnits d.text asset).map LedgerAmount.canonical = .ok text ↔
      d.fraction = none ∧ Prints text asset (d.value / 10 ^ asset.scale.toNat) := by
  have hnumber (units : Int) (h : (units : ℚ) = d.value) :
      d.value / 10 ^ asset.scale.toNat = LedgerAmount.number ⟨asset, units⟩ := by
    rw [← h]
    rfl
  constructor
  · intro h
    cases hread : LedgerAmount.fromUnits d.text asset with
    | error e => simp [hread, Except.map] at h
    | ok amount =>
        obtain ⟨hfraction, rfl, hunits⟩ := LedgerAmount.fromUnits_eq_ok.mp hread
        simp only [hread, Except.map, Except.ok.injEq] at h
        rw [hnumber _ hunits]
        exact ⟨hfraction, prints_iff.mpr h.symm⟩
  · rintro ⟨hfraction, hprints⟩
    obtain ⟨units, hunits⟩ := exists_units hfraction
    rw [hnumber units hunits] at hprints
    have hread : LedgerAmount.fromUnits d.text asset = .ok ⟨asset, units⟩ :=
      LedgerAmount.fromUnits_eq_ok.mpr ⟨hfraction, rfl, hunits⟩
    rw [hread, prints_iff.mp hprints]
    rfl

/-- **Exact arithmetic**: `ledger_add` and `ledger_subtract` of two texts give a
result exactly when both are amounts of one asset, and it is printed as the
canonical numeral of the sum or the difference of the numbers that the texts
denote; `ledger_negate` likewise.  `ledger_amount_from_units` takes the numbers
that are written without a point, and divides them by the size of the unit. -/
theorem arithmeticExact (left right text : Str) :
    (onText LedgerAmount.checkedAdd left right = .ok text ↔
      ∃ asset d e, AmountInput left asset d ∧ AmountInput right asset e ∧
        Prints text asset (d.value + e.value)) ∧
    (onText LedgerAmount.checkedSub left right = .ok text ↔
      ∃ asset d e, AmountInput left asset d ∧ AmountInput right asset e ∧
        Prints text asset (d.value - e.value)) ∧
    (negateText left = .ok text ↔
      ∃ asset d, AmountInput left asset d ∧ Prints text asset (-d.value)) ∧
    ∀ (d : Numeral) (asset : LedgerAsset),
      (LedgerAmount.fromUnits d.text asset).map LedgerAmount.canonical = .ok text ↔
        d.fraction = none ∧ Prints text asset (d.value / 10 ^ asset.scale.toNat) :=
  ⟨onUnits_checkedAdd.onText_eq_ok left right text,
    onUnits_checkedSub.onText_eq_ok left right text, negateText_eq_ok left text,
    fun d asset => fromUnitsText_eq_ok d asset text⟩

example : onText LedgerAmount.checkedAdd "0.10 USD".toList "USD 0.2".toList =
    .ok "0.3 USD".toList := by decide

end PgLedger
