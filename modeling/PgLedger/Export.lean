import PgLedger.Amount.Decimal
import PgLedger.Errors

/-!
# PgLedger.Export

The adapters that hand amounts to the optional money and cryptocurrency
extensions.  Each writes some fields of the asset next to the decimal value
of the amount, and none writes the scale.  So two amounts become the same
external datum exactly when they agree in the fields that are written and in
the number they stand for, whatever their scales are; `ledger_to_money` and
`ledger_to_money_minor` do not look at the kind of the asset either.
-/

namespace PgLedger

/-- The `numeric` type of PostgreSQL: how `pgrx` makes a value from text and
what `format` writes for it. -/
structure NumericType (ν : Type) where
  /-- `AnyNumeric::try_from`. -/
  tryFrom : Str → Except String ν
  /-- The text under `%s`. -/
  toText : ν → Str

/-- A decimal without superfluous digits is written the way it was read. -/
def NumericType.Exact {ν : Type} (numeric : NumericType ν) : Prop :=
  ∀ d : Numeral, d.Canonical → ∀ x, numeric.tryFrom d.text = .ok x → numeric.toText x = d.text

/-- Plain decimals within the digits that `numeric` has room for. -/
def plainNumeric : NumericType Str where
  tryFrom text :=
    let digits := (text.takeWhile (· ≠ '.')).filter Char.isDigit
    if 131072 < digits.length then .error "value overflows numeric format" else .ok text
  toText text := text

theorem plainNumeric_exact : plainNumeric.Exact := by
  intro d _ x h
  obtain ⟨-, h⟩ := guard_eq_ok.mp h
  exact (Except.ok.inj h).symm

section Adapters

variable {ν : Type} (numeric : NumericType ν)

def ledgerAmountValue (value : LedgerAmount) : Except PgError ν :=
  let decimal := unitsToDecimal value.units value.asset.scale
  let text := if value.asset.scale = 0 then intText value.units else decimal
  (numeric.tryFrom text).mapError fun error =>
    failParameter ("could not produce PostgreSQL numeric: " ++ error)

/-- `ledger_to_crypto`, up to the cast of the text. -/
def ledgerToCrypto (value : LedgerAmount) : Except PgError Str :=
  if value.asset.kind ≠ .crypto then
    .error ⟨.invalidParameterValue, "ledger amount is not a cryptocurrency amount"⟩
  else do
    let number ← ledgerAmountValue numeric value
    .ok (numeric.toText number ++ ' ' ::
      (value.asset.symbol ++ '@' :: value.asset.network.getD []))

/-- `ledger_to_money_minor`, up to the cast of the text. -/
def ledgerToMoneyMinor (value : LedgerAmount) : Except PgError Str := do
  let number ← ledgerAmountValue numeric value
  .ok (value.asset.symbol ++ ' ' :: numeric.toText number)

/-- `ledger_to_money`: the arguments of `money_make`. -/
def ledgerToMoney (value : LedgerAmount) : Except PgError (ν × Str) := do
  let number ← ledgerAmountValue numeric value
  .ok (number, value.asset.symbol)

end Adapters

/-! ## examples of amounts -/

/-- Away from the known tokens every scale fits. -/
theorem networkFits_unknown {symbol network : Str} (hvalid : validateNetwork network = .ok ())
    (hlower : asciiLowercase network = network) (hnone : cryptoScale symbol network = none)
    (scale : UInt8) : NetworkFits symbol scale .crypto (some network) :=
  ⟨hvalid, hlower, fun canonical h => by simp [hnone] at h⟩

/-- The token `FOO@eth` under a scale of its own. -/
def foo (scale : UInt8) : LedgerAsset where
  version := 1
  kind := .crypto
  symbol := "FOO".toList
  network := some "eth".toList
  scale := scale
  wellFormed := ⟨rfl, show validateSymbol "FOO".toList = .ok () by decide,
    show asciiUppercase "FOO".toList = "FOO".toList by decide,
    networkFits_unknown (by decide) (by decide)
      (show cryptoScale "FOO".toList "eth".toList = none by decide) scale⟩

theorem dollar_wellFormed :
    WireAsset.WellFormed ⟨1, .fiat, "USD".toList, none, 2⟩ :=
  ⟨rfl, by decide, by decide, trivial⟩

def dollar : LedgerAsset where
  version := 1
  kind := .fiat
  symbol := "USD".toList
  network := none
  scale := 2
  wellFormed := dollar_wellFormed

/-- A token under the symbol of a currency. -/
def dollarToken : LedgerAsset where
  version := 1
  kind := .crypto
  symbol := "USD".toList
  network := some "ethereum".toList
  scale := 2
  wellFormed := ⟨rfl, by decide, by decide,
    networkFits_unknown (by decide) (by decide) (by decide) 2⟩

/-! ## the decimal value -/

/-- The number an amount stands for. -/
def LedgerAmount.number (value : LedgerAmount) : ℚ := value.units / 10 ^ value.asset.scale.toNat

/-- Without minor units the printer writes the integer. -/
theorem unitsToDecimal_zero_scale (units : Int) : unitsToDecimal units 0 = intText units := by
  unfold unitsToDecimal intText
  by_cases hzero : units = 0
  · subst hzero
    rfl
  · by_cases hneg : units < 0
    · simp [hzero, hneg]
    · simp [hzero, hneg]

/-- The value is the number that the decimal text is read as. -/
theorem ledgerAmountValue_eq_ok {ν : Type} {numeric : NumericType ν} {value : LedgerAmount}
    {x : ν} : ledgerAmountValue numeric value = .ok x ↔
      numeric.tryFrom (unitsToDecimal value.units value.asset.scale) = .ok x := by
  rw [ledgerAmountValue, mapError_eq_ok]
  by_cases hscale : value.asset.scale = 0
  · rw [if_pos hscale, hscale, unitsToDecimal_zero_scale]
  · rw [if_neg hscale]

section Exact

variable {ν : Type} {numeric : NumericType ν} {v w : LedgerAmount}

/-- The value is written as the decimal of the amount. -/
theorem toText_ledgerAmountValue (h : numeric.Exact) {x : ν}
    (hx : ledgerAmountValue numeric v = .ok x) :
    numeric.toText x = unitsToDecimal v.units v.asset.scale := by
  obtain ⟨d, hd, -, hcanonical⟩ := unitsToDecimal_numeral v.units v.asset.scale
  rw [← hd]
  refine h d hcanonical x ?_
  rw [hd]
  exact ledgerAmountValue_eq_ok.mp hx

/-- Two amounts have one decimal exactly when they stand for one number. -/
theorem decimal_eq_iff : unitsToDecimal v.units v.asset.scale =
    unitsToDecimal w.units w.asset.scale ↔ v.number = w.number := by
  obtain ⟨d, hd, hdvalue, hdcanonical⟩ := unitsToDecimal_numeral v.units v.asset.scale
  obtain ⟨e, he, hevalue, hecanonical⟩ := unitsToDecimal_numeral w.units w.asset.scale
  rw [LedgerAmount.number, LedgerAmount.number, ← hdvalue, ← hevalue, ← hd, ← he]
  constructor
  · intro htext
    rw [Numeral.text_injective htext]
  · intro hvalue
    obtain ⟨hle, heq⟩ := hdcanonical.shortest hvalue
    obtain ⟨hge, -⟩ := hecanonical.shortest hvalue.symm
    rw [heq (Nat.le_antisymm hle hge)]

/-- And one value then. -/
theorem ledgerAmountValue_eq_iff (h : numeric.Exact) {x y : ν}
    (hx : ledgerAmountValue numeric v = .ok x) (hy : ledgerAmountValue numeric w = .ok y) :
    x = y ↔ v.number = w.number := by
  rw [← decimal_eq_iff]
  constructor
  · rintro rfl
    rw [← toText_ledgerAmountValue h hx, toText_ledgerAmountValue h hy]
  · intro hdecimal
    rw [ledgerAmountValue_eq_ok, hdecimal, ledgerAmountValue_eq_ok.mp hy] at hx
    exact (Except.ok.inj hx).symm

/-- No blank is in a decimal. -/
theorem not_mem_decimal (units : Int) (scale : UInt8) : ' ' ∉ unitsToDecimal units scale := by
  intro hmem
  have hspace :=
    isAsciiWhitespace_of_looksNumeric (looksNumeric_unitsToDecimal units scale) ' ' hmem
  exact absurd hspace (by decide)

/-! ## what the adapters hand over -/

/-- Two amounts are handed over as the same money exactly when symbol and
number agree. -/
theorem ledgerToMoney_eq_iff (h : numeric.Exact) {x y : ν × Str}
    (hx : ledgerToMoney numeric v = .ok x) (hy : ledgerToMoney numeric w = .ok y) :
    x = y ↔ v.asset.symbol = w.asset.symbol ∧ v.number = w.number := by
  obtain ⟨m, hm, hx⟩ := bind_eq_ok.mp hx
  obtain ⟨n, hn, hy⟩ := bind_eq_ok.mp hy
  obtain rfl := Except.ok.inj hx
  obtain rfl := Except.ok.inj hy
  rw [Prod.mk.injEq, ledgerAmountValue_eq_iff h hm hn, and_comm]

/-- The symbol ends at the first blank. -/
theorem ledgerToMoneyMinor_eq_iff (h : numeric.Exact) {x y : Str}
    (hx : ledgerToMoneyMinor numeric v = .ok x) (hy : ledgerToMoneyMinor numeric w = .ok y) :
    x = y ↔ v.asset.symbol = w.asset.symbol ∧ v.number = w.number := by
  obtain ⟨m, hm, hx⟩ := bind_eq_ok.mp hx
  obtain ⟨n, hn, hy⟩ := bind_eq_ok.mp hy
  obtain rfl := Except.ok.inj hx
  obtain rfl := Except.ok.inj hy
  rw [toText_ledgerAmountValue h hm, toText_ledgerAmountValue h hn, ← decimal_eq_iff]
  constructor
  · intro htext
    have hblank (asset : LedgerAsset) : ' ' ∉ asset.symbol :=
      not_mem_symbol asset.wellFormed.symbol (by decide)
    have hsplit := splitOnce_append (hblank v.asset) (unitsToDecimal v.units v.asset.scale)
    rw [htext, splitOnce_append (hblank w.asset), Option.some.injEq, Prod.mk.injEq] at hsplit
    exact ⟨hsplit.1.symm, hsplit.2.symm⟩
  · rintro ⟨hsymbol, hdecimal⟩
    rw [hsymbol, hdecimal]

/-- The number ends at the first blank, and the symbol at the `@`. -/
theorem ledgerToCrypto_eq_iff (h : numeric.Exact) {x y : Str}
    (hx : ledgerToCrypto numeric v = .ok x) (hy : ledgerToCrypto numeric w = .ok y) :
    x = y ↔ v.asset.symbol = w.asset.symbol ∧ v.asset.network = w.asset.network ∧
      v.number = w.number := by
  obtain ⟨hv, hx⟩ := guard_eq_ok.mp hx
  obtain ⟨hw, hy⟩ := guard_eq_ok.mp hy
  obtain ⟨m, hm, hx⟩ := bind_eq_ok.mp hx
  obtain ⟨n, hn, hy⟩ := bind_eq_ok.mp hy
  obtain rfl := Except.ok.inj hx
  obtain rfl := Except.ok.inj hy
  have hnetwork (asset : LedgerAsset) (hkind : ¬ asset.kind ≠ .crypto) :
      asset.network = some (asset.network.getD []) := by
    have heq := asset.wellFormed.kind_eq
    rw [not_not.mp hkind] at heq
    cases hn : asset.network with
    | none => simp [hn] at heq
    | some network => rfl
  rw [toText_ledgerAmountValue h hm, toText_ledgerAmountValue h hn, ← decimal_eq_iff]
  constructor
  · intro htext
    have hsplit := splitOnce_append (not_mem_decimal v.units v.asset.scale)
      (v.asset.symbol ++ '@' :: v.asset.network.getD [])
    rw [htext, splitOnce_append (not_mem_decimal w.units w.asset.scale), Option.some.injEq,
      Prod.mk.injEq] at hsplit
    obtain ⟨hdecimal, hrest⟩ := hsplit
    have hat (asset : LedgerAsset) : '@' ∉ asset.symbol :=
      not_mem_symbol asset.wellFormed.symbol (by decide)
    have hcut := splitOnce_append (hat v.asset) (v.asset.network.getD [])
    rw [← hrest, splitOnce_append (hat w.asset), Option.some.injEq, Prod.mk.injEq] at hcut
    refine ⟨hcut.1.symm, ?_, hdecimal.symm⟩
    rw [hnetwork v.asset hv, hnetwork w.asset hw, hcut.2]
  · rintro ⟨hsymbol, hsame, hdecimal⟩
    rw [hsymbol, hsame, hdecimal]

/-- **Adapters**: two amounts that an adapter accepts are handed over as
different data exactly when they differ in what the adapter writes, the
symbol, for tokens the network, and the number. -/
theorem adapters_distinguish_iff (h : numeric.Exact) :
    (∀ x y, ledgerToCrypto numeric v = .ok x → ledgerToCrypto numeric w = .ok y →
      ((v ≠ w → x ≠ y) ↔ v = w ∨ v.asset.symbol ≠ w.asset.symbol ∨
        v.asset.network ≠ w.asset.network ∨ v.number ≠ w.number)) ∧
    (∀ x y, ledgerToMoneyMinor numeric v = .ok x → ledgerToMoneyMinor numeric w = .ok y →
      ((v ≠ w → x ≠ y) ↔ v = w ∨ v.asset.symbol ≠ w.asset.symbol ∨ v.number ≠ w.number)) ∧
    ∀ x y, ledgerToMoney numeric v = .ok x → ledgerToMoney numeric w = .ok y →
      ((v ≠ w → x ≠ y) ↔ v = w ∨ v.asset.symbol ≠ w.asset.symbol ∨ v.number ≠ w.number) := by
  refine ⟨fun x y hx hy => ?_, fun x y hx hy => ?_, fun x y hx hy => ?_⟩
  · rw [ne_eq x, ledgerToCrypto_eq_iff h hx hy]
    tauto
  · rw [ne_eq x, ledgerToMoneyMinor_eq_iff h hx hy]
    tauto
  · rw [ne_eq x, ledgerToMoney_eq_iff h hx hy]
    tauto

/-- Two amounts of one token are told apart by their numbers. -/
theorem adapters_distinguish_foo :
    ((⟨foo 2, 100⟩ : LedgerAmount) ≠ ⟨foo 2, 250⟩ →
      "1 FOO@eth".toList ≠ "2.5 FOO@eth".toList) ↔
    (⟨foo 2, 100⟩ : LedgerAmount) = ⟨foo 2, 250⟩ ∨ (foo 2).symbol ≠ (foo 2).symbol ∨
      (foo 2).network ≠ (foo 2).network ∨
      LedgerAmount.number ⟨foo 2, 100⟩ ≠ LedgerAmount.number ⟨foo 2, 250⟩ :=
  (adapters_distinguish_iff plainNumeric_exact).1 _ _ (by decide) (by decide)

/-- Amounts that are read from text become the same external amount: tokens
that differ in their scale, and a currency and a token of one symbol. -/
theorem adapters_confuse :
    (¬ ∀ s t v w, LedgerAmount.parse s = .ok v → LedgerAmount.parse t = .ok w → v ≠ w →
      ∀ x y, ledgerToCrypto plainNumeric v = .ok x → ledgerToCrypto plainNumeric w = .ok y →
        x ≠ y) ∧
    (¬ ∀ s t v w, LedgerAmount.parse s = .ok v → LedgerAmount.parse t = .ok w → v ≠ w →
      ∀ x y, ledgerToMoneyMinor plainNumeric v = .ok x →
        ledgerToMoneyMinor plainNumeric w = .ok y → x ≠ y) ∧
    ¬ ∀ s t v w, LedgerAmount.parse s = .ok v → LedgerAmount.parse t = .ok w → v ≠ w →
      ∀ x y, ledgerToMoney plainNumeric v = .ok x → ledgerToMoney plainNumeric w = .ok y →
        x ≠ y := by
  refine ⟨fun h => ?_, fun h => ?_, fun h => ?_⟩
  · have hcents : LedgerAmount.parse "1 FOO@eth/2".toList = .ok ⟨foo 2, 100⟩ := by decide
    have hmills : LedgerAmount.parse "1 FOO@eth/3".toList = .ok ⟨foo 3, 1000⟩ := by decide
    exact h _ _ _ _ hcents hmills (by decide) "1 FOO@eth".toList _ (by decide) (by decide) rfl
  · have hfiat : LedgerAmount.parse "1 USD".toList = .ok ⟨dollar, 100⟩ := by decide
    have htoken : LedgerAmount.parse "1 USD@ethereum/2".toList = .ok ⟨dollarToken, 100⟩ := by
      decide
    exact h _ _ _ _ hfiat htoken (by decide) "USD 1".toList _ (by decide) (by decide) rfl
  · have hfiat : LedgerAmount.parse "1 USD".toList = .ok ⟨dollar, 100⟩ := by decide
    have htoken : LedgerAmount.parse "1 USD@ethereum/2".toList = .ok ⟨dollarToken, 100⟩ := by
      decide
    exact h _ _ _ _ hfiat htoken (by decide) ("1".toList, "USD".toList) _ (by decide) (by decide)
      rfl

end Exact

end PgLedger
