import PgLedger.Amount.Grammar
import PgLedger.Export

/-!
# PgLedger.Import

The adapters that take amounts from the optional money and cryptocurrency
extensions, against the adapters of `PgLedger.Export` that hand them over.

No adapter hands over a scale.  A token comes back with the number of decimals
that the other extension knows for it, and of a money amount only the symbol
comes back, so its asset is the one that the symbol stands for alone.  The
number never changes: an amount comes back as the same number of what it is
taken for, or is refused.
-/

namespace PgLedger

/-! ## the other extensions -/

/-- What the adapters use of the cryptocurrency extension, whose amounts are
represented by their text. -/
structure CryptoExtension (ν : Type) where
  /-- `crypto_amount_value` -/
  value : Str → Except String ν
  /-- `crypto_amount_symbol` -/
  symbol : Str → Str
  /-- `crypto_amount_network` -/
  network : Str → Str
  /-- `crypto_amount_decimals` -/
  decimals : Str → Int

/-- What the adapters use of the money extension: the texts of its values. -/
structure MoneyExtension (ν : Type) where
  /-- The text of a `money_minor` that was cast from a text. -/
  minor : Str → Str
  /-- The text of `money_make`. -/
  make : ν → Str → Str

section
variable {ν : Type} (numeric : NumericType ν)

/-- The text of a token amount for the other extension: the decimal, and the
asset without its scale. -/
def LedgerAmount.cryptoText (amount : LedgerAmount) : Str :=
  unitsToDecimal amount.units amount.asset.scale ++ ' ' :: amount.asset.identity

/-- The extension takes such a text apart again. -/
structure CryptoExtension.Reads (crypto : CryptoExtension ν) : Prop where
  value : ∀ amount : LedgerAmount, amount.asset.kind = .crypto →
    crypto.value amount.cryptoText =
      numeric.tryFrom (unitsToDecimal amount.units amount.asset.scale)
  symbol : ∀ amount : LedgerAmount, amount.asset.kind = .crypto →
    crypto.symbol amount.cryptoText = amount.asset.symbol
  network : ∀ amount : LedgerAmount, amount.asset.kind = .crypto →
    some (crypto.network amount.cryptoText) = amount.asset.network

/-- A text shows a currency and an amount, in either order. -/
def ShowsMoney (text currency : Str) (amount : ν) : Prop :=
  text = currency ++ ' ' :: numeric.toText amount ∨ text = numeric.toText amount ++ ' ' :: currency

/-- The extension shows the currency and the amount that it was given. -/
structure MoneyExtension.Writes (money : MoneyExtension ν) : Prop where
  minor : ∀ amount currency,
    ShowsMoney numeric (money.minor (currency ++ ' ' :: numeric.toText amount)) currency amount
  make : ∀ amount currency, ShowsMoney numeric (money.make amount currency) currency amount

/-! ## the adapters -/

/-- `ledger_amount(crypto_amount)`; errors are given by their messages. -/
def ledgerAmountOfCrypto (crypto : CryptoExtension ν) (value : Str) :
    Except String LedgerAmount := do
  let number ← crypto.value value
  LedgerAmount.parse (numeric.toText number ++ ' ' :: (crypto.symbol value ++
    '@' :: (crypto.network value ++ '/' :: intText (crypto.decimals value))))

/-- `ledger_amount(money_minor)` and `ledger_amount(money_with_currency)`, on the
text of the value. -/
def ledgerAmountOfMoney (value : Str) : Except String LedgerAmount := LedgerAmount.parse value

end

/-! ## the extensions of the tests -/

/-- `split_part` for a single delimiter; fields are counted from one. -/
def splitPart (text : Str) (delimiter : Char) (field : Nat) : Str :=
  (text.splitOn delimiter).getD (field - 1) []

def cryptoAmountSymbol (value : Str) : Str := splitPart (splitPart value ' ' 2) '@' 1

def cryptoAmountNetwork (value : Str) : Str :=
  if '@' ∈ splitPart value ' ' 2 then splitPart (splitPart value ' ' 2) '@' 2
  else if cryptoAmountSymbol value = "BTC".toList then "bitcoin".toList
  else if cryptoAmountSymbol value = "ETH".toList then "ethereum".toList
  else "unknown".toList

def cryptoAmountDecimals (value : Str) : Int :=
  if cryptoAmountSymbol value = "BTC".toList then 8
  else if cryptoAmountSymbol value = "ETH".toList then 18
  else if cryptoAmountSymbol value = "USDC".toList then 6
  else 8

section
variable {ν : Type} (numeric : NumericType ν)

def CryptoExtension.fixture : CryptoExtension ν where
  value value := numeric.tryFrom (splitPart value ' ' 1)
  symbol := cryptoAmountSymbol
  network := cryptoAmountNetwork
  decimals := cryptoAmountDecimals

def MoneyExtension.fixture : MoneyExtension ν where
  minor text := text
  make amount currency := currency ++ ' ' :: numeric.toText amount

/-- The first field ends at the delimiter. -/
theorem splitPart_first {c : Char} {a : Str} (h : c ∉ a) (b : Str) :
    splitPart (a ++ c :: b) c 1 = a := by
  rw [splitPart, List.splitOn_append_cons_self_of_not_mem h]
  rfl

/-- The second field follows it. -/
theorem splitPart_second {c : Char} {a b : Str} (ha : c ∉ a) (hb : c ∉ b) :
    splitPart (a ++ c :: b) c 2 = b := by
  rw [splitPart, List.splitOn_append_cons_self_of_not_mem ha, List.splitOn_eq_singleton hb]
  rfl

/-- The identity of a token is its symbol and its network. -/
theorem identity_of_crypto {asset : LedgerAsset} (h : asset.kind = .crypto) :
    ∃ network, asset.network = some network ∧ asset.identity = asset.symbol ++ '@' :: network ∧
      validateNetwork network = .ok () := by
  have hkind := asset.wellFormed.kind_eq
  cases hn : asset.network with
  | none => simp [h, hn] at hkind
  | some network =>
      refine ⟨network, rfl, ?_, (asset.wellFormed.networkValid hn).1⟩
      rw [WireAsset.identity, hn]

/-- The extension of the tests reads back what it is handed. -/
theorem CryptoExtension.fixture_reads : (CryptoExtension.fixture numeric).Reads numeric := by
  have hblank (amount : LedgerAmount) : ' ' ∉ amount.asset.identity := fun hmem =>
    absurd (amount.asset.wellFormed.identity_chars ' ' hmem).1 (by decide)
  have hsecond (amount : LedgerAmount) :
      splitPart amount.cryptoText ' ' 2 = amount.asset.identity :=
    splitPart_second (not_mem_decimal _ _) (hblank amount)
  have hsymbol (asset : LedgerAsset) : '@' ∉ asset.symbol :=
    not_mem_symbol asset.wellFormed.symbol (by decide)
  refine ⟨fun amount hkind => ?_, fun amount hkind => ?_, fun amount hkind => ?_⟩
  · exact congrArg numeric.tryFrom (splitPart_first (not_mem_decimal _ _) _)
  · obtain ⟨network, -, hidentity, -⟩ := identity_of_crypto hkind
    show splitPart (splitPart amount.cryptoText ' ' 2) '@' 1 = _
    rw [hsecond, hidentity, splitPart_first (hsymbol _)]
  · obtain ⟨network, hnetwork, hidentity, hvalid⟩ := identity_of_crypto hkind
    have hat : '@' ∉ network := fun hmem =>
      absurd ((validateNetwork_eq_ok.mp hvalid).2.2 '@' hmem) (by decide)
    show some (cryptoAmountNetwork amount.cryptoText) = _
    rw [cryptoAmountNetwork, hsecond, hidentity, if_pos (by simp),
      splitPart_second (hsymbol _) hat, hnetwork]

/-- It shows the currency first. -/
theorem MoneyExtension.fixture_writes : (MoneyExtension.fixture numeric).Writes numeric where
  minor _ _ := .inl rfl
  make _ _ := .inl rfl

end

/-! ## amounts of two words -/

/-- A decimal and a printed asset are two words. -/
theorem splitAsciiWhitespace_decimal (amount : LedgerAmount) {word : Str}
    (hchars : ∀ c ∈ word, assetChar c = true) (hne : word ≠ []) :
    splitAsciiWhitespace (unitsToDecimal amount.units amount.asset.scale ++ ' ' :: word) =
        [unitsToDecimal amount.units amount.asset.scale, word] ∧
      splitAsciiWhitespace (word ++ ' ' :: unitsToDecimal amount.units amount.asset.scale) =
        [word, unitsToDecimal amount.units amount.asset.scale] := by
  have hnumber := looksNumeric_unitsToDecimal amount.units amount.asset.scale
  have hnumberNe : unitsToDecimal amount.units amount.asset.scale ≠ [] := by
    intro hnil
    rw [hnil] at hnumber
    exact absurd hnumber (by decide)
  have hblanks := isAsciiWhitespace_of_looksNumeric hnumber
  have hwordBlanks : ∀ c ∈ word, isAsciiWhitespace c = false := fun c hc =>
    isAsciiWhitespace_of_assetChar (hchars c hc)
  exact ⟨splitAsciiWhitespace_append hblanks hwordBlanks hnumberNe hne,
    splitAsciiWhitespace_append hwordBlanks hblanks hne hnumberNe⟩

/-- A printed decimal is read at another scale as the same number, if at all. -/
theorem decimalToUnits_eq_iff {v w : LedgerAmount} :
    decimalToUnits (unitsToDecimal v.units v.asset.scale) w.asset.scale = .ok w.units ↔
      w.number = v.number := by
  constructor
  · intro h
    obtain ⟨d, hd, -, hunits⟩ := decimalToUnits_eq_ok.mp h
    obtain ⟨e, he, hvalue, -⟩ := unitsToDecimal_numeral v.units v.asset.scale
    obtain rfl : d = e := Numeral.text_injective (hd.trans he.symm)
    rw [LedgerAmount.number, hunits, mul_div_cancel_right₀ _ (pow_scale_pos _).ne', hvalue,
      LedgerAmount.number]
  · intro h
    rw [decimal_eq_iff.mpr h.symm]
    exact decimalToUnits_unitsToDecimal w.units w.asset.scale

/-! ## the assets that are read -/

/-- Version and kind are implied by the other fields. -/
theorem LedgerAsset.fields_eq (asset : LedgerAsset) : asset.toWireAsset =
    ⟨1, if asset.network.isSome then .crypto else .fiat, asset.symbol, asset.network,
      asset.scale⟩ := by
  rw [← asset.wellFormed.kind_eq, ← asset.wellFormed.version]

/-- Text made of the characters of printed assets is read as a short form. -/
theorem parseFields_of_chars {input : Str} (h : ∀ c ∈ input, assetChar c = true)
    {fields : WireAsset} : parseFields input = .ok fields ↔ utf8Len input ≤ 128 ∧
      ∃ parts, splitScale input = .ok parts ∧ parseShort parts.1 parts.2 = .ok fields := by
  have hv1 : "v1|".toList.isPrefixOf? input = none := by
    cases hp : "v1|".toList.isPrefixOf? input with
    | none => rfl
    | some rest =>
        have hbar := h '|' (by rw [eq_append_of_isPrefixOf? hp]; simp)
        exact absurd hbar (by decide)
  have htrim : trim input = input := trim_eq_self fun c hc => isWhitespace_of_assetChar (h c hc)
  rw [parseFields, guard_eq_ok, hv1, Nat.not_lt]
  simp only [htrim, bind_eq_ok]

theorem assetChar_of_mem_intText {i : Int} {c : Char} (h : c ∈ intText i) :
    assetChar c = true := by
  have hdigit (n : Nat) (hc : c ∈ natText n) : assetChar c = true := by
    simp [assetChar, symbolChar_of_isDigit (natText_isDigit hc)]
  simp only [intText] at h
  split at h
  · rcases List.mem_cons.mp h with rfl | h
    · decide
    · exact hdigit _ h
  · exact hdigit _ h

theorem scaled_chars (asset : LedgerAsset) (decimals : Int) :
    ∀ c ∈ asset.identity ++ '/' :: intText decimals, assetChar c = true := by
  intro c hc
  rw [List.mem_append, List.mem_cons] at hc
  rcases hc with hc | rfl | hc
  · exact (asset.wellFormed.identity_chars c hc).1
  · decide
  · exact assetChar_of_mem_intText hc

/-- Digits behind the last slash are the scale, if they fit. -/
theorem splitScale_natText {identity : Str} {n : Nat} {parts : Str × Option UInt8} :
    splitScale (identity ++ '/' :: natText n) = .ok parts ↔
      ∃ scale : UInt8, scale.toNat = n ∧ parts = (identity, some scale) := by
  have hdigits : (natText n).all Char.isDigit = true :=
    List.all_eq_true.mpr fun c hc => natText_isDigit hc
  rw [splitScale, rsplitOnce_append _ (not_mem_natText (by decide))]
  simp only [hdigits, if_true, parseScale]
  by_cases hn : n < 256
  · obtain ⟨scale, rfl⟩ : ∃ scale : UInt8, scale.toNat = n :=
      ⟨UInt8.ofNat n, UInt8.toNat_ofNat_of_lt' hn⟩
    simp only [parseU8_natText, ok_bind, Except.ok.injEq]
    constructor
    · rintro rfl
      exact ⟨scale, rfl, rfl⟩
    · rintro ⟨scale', hscale, rfl⟩
      rw [UInt8.toNat_inj.mp hscale]
  · have hnone : parseU8 (natText n) = none := by
      have hplus : ['+'].isPrefixOf? (natText n) = none :=
        isPrefixOf?_singleton_eq_none (head_natText_ne (by decide))
      rw [parseU8, hplus, Option.getD_none, if_neg]
      rintro ⟨-, -, hlt⟩
      rw [Nat.ofDigitChars_ten_toDigits] at hlt
      exact hn hlt
    simp only [hnone, error_bind, reduceCtorEq, false_iff]
    rintro ⟨scale, rfl, -⟩
    exact hn scale.toNat_lt

/-- A token is read with the scale that is written. -/
theorem parseToken_scaled {symbol network : Str} (hlower : asciiLowercase network = network)
    {scale : UInt8} {fields : WireAsset}
    (h : parseToken symbol network (some scale) = .ok fields) :
    fields = ⟨1, .crypto, symbol, some network, scale⟩ := by
  simp only [parseToken, hlower, bind_eq_ok] at h
  obtain ⟨_, -, h⟩ := h
  cases hscale : cryptoScale symbol network with
  | none =>
      simp only [hscale] at h
      exact (Except.ok.inj h).symm
  | some canonical =>
      simp only [hscale] at h
      obtain ⟨-, h⟩ := guard_eq_ok.mp h
      exact (Except.ok.inj h).symm

section Token

variable {asset : LedgerAsset} {network : Str}

theorem parseShort_token (hidentity : asset.identity = asset.symbol ++ '@' :: network)
    (rest : Str) (explicitScale : Option UInt8) :
    parseShort (asset.identity ++ rest) explicitScale =
      parseToken asset.symbol (network ++ rest) explicitScale := by
  have hat : '@' ∉ asset.symbol := not_mem_symbol asset.wellFormed.symbol (by decide)
  rw [parseShort, hidentity, List.append_assoc, List.cons_append, splitOnce_append hat]
  simp only [asset.wellFormed.symbol, asset.wellFormed.upper, ok_bind]

/-- A token is read from its symbol, its network and a number of decimals as
the token with that scale. -/
theorem parse_token_iff (h : asset.kind = .crypto) {decimals : Int} {asset' : LedgerAsset} :
    LedgerAsset.parse (asset.identity ++ '/' :: intText decimals) = .ok asset' ↔
      asset'.symbol = asset.symbol ∧ asset'.network = asset.network ∧
        (asset'.scale.toNat : Int) = decimals := by
  obtain ⟨network, hnetwork, hidentity, hvalid⟩ := identity_of_crypto h
  have hlower := (asset.wellFormed.networkValid hnetwork).2
  have hchars := scaled_chars asset decimals
  rw [LedgerAsset.parse_eq_ok, parseFields_of_chars hchars]
  by_cases hneg : decimals < 0
  · -- no digits follow the slash, so it goes to the network, where it must not stand
    have hslash : '/' ∉ intText decimals := by
      intro hmem
      rw [intText, if_pos hneg, List.mem_cons] at hmem
      rcases hmem with heq | hmem
      · exact absurd heq (by decide)
      · exact not_mem_natText (by decide) hmem
    have hdigits : (intText decimals).all Char.isDigit = false := by
      rw [intText, if_pos hneg]
      rfl
    have hsplit : splitScale (asset.identity ++ '/' :: intText decimals) =
        .ok (asset.identity ++ '/' :: intText decimals, none) := by
      rw [splitScale, rsplitOnce_append _ hslash]
      simp only [hdigits, Bool.false_eq_true, if_false]
    constructor
    · rintro ⟨-, parts, hparts, hshort⟩
      obtain rfl := Except.ok.inj (hsplit.symm.trans hparts)
      rw [parseShort_token hidentity] at hshort
      obtain ⟨_, hinvalid, -⟩ := bind_eq_ok.mp hshort
      exact absurd ((validateNetwork_eq_ok.mp hinvalid).2.2 '/' (by simp)) (by decide)
    · rintro ⟨-, -, hscale⟩
      omega
  · obtain ⟨n, rfl⟩ := Int.eq_ofNat_of_zero_le (Int.not_lt.mp hneg)
    have htext : intText n = natText n := by rw [intText, if_neg hneg, Int.natAbs_natCast]
    have hshort (scale : UInt8) : parseShort asset.identity (some scale) =
        parseToken asset.symbol network (some scale) := by
      have htoken := parseShort_token hidentity [] (some scale)
      rwa [List.append_nil, List.append_nil] at htoken
    rw [htext]
    constructor
    · rintro ⟨-, parts, hparts, hread⟩
      obtain ⟨scale, rfl, rfl⟩ := splitScale_natText.mp hparts
      have hfields := parseToken_scaled hlower ((hshort scale).symm.trans hread)
      rw [hfields, hnetwork]
      exact ⟨rfl, rfl, rfl⟩
    · rintro ⟨hsymbol, hsame, hscale⟩
      obtain rfl : asset'.scale.toNat = n := Int.ofNat.inj hscale
      have hfits := asset'.wellFormed.network
      rw [asset'.wellFormed.kind_eq, hsymbol, hsame, hnetwork] at hfits
      refine ⟨?_, _, splitScale_natText.mpr ⟨asset'.scale, rfl, rfl⟩, ?_⟩
      · rw [htext] at hchars
        have hidentityLen := asset.wellFormed.length_identity
        have hscaleLen := length_natText_byte asset'.scale
        rw [utf8Len_eq_length fun c hc => ascii_of_assetChar (hchars c hc), List.length_append,
          List.length_cons]
        omega
      · rw [hshort, parseToken_eq_ok hfits rfl, asset'.fields_eq, hsymbol, hsame, hnetwork]
        rfl

end Token

/-- The assets that a symbol alone stands for. -/
def WireAsset.Bare (asset : WireAsset) : Prop :=
  match asset.network with
  | some network => nativeCrypto asset.symbol = some (network, asset.scale)
  | none => asset.ShortForm ∧ asset.scale = fiatScale asset.symbol

instance (asset : WireAsset) : Decidable asset.Bare := by
  unfold WireAsset.Bare
  cases asset.network <;> infer_instance

/-- A symbol alone is read as the asset it stands for. -/
theorem parse_bare_iff {asset asset' : LedgerAsset} :
    LedgerAsset.parse asset.symbol = .ok asset' ↔ asset'.Bare ∧ asset'.symbol = asset.symbol := by
  have hsymbolChars := (validateSymbol_eq_ok.mp asset.wellFormed.symbol).2
  have hchars : ∀ c ∈ asset.symbol, assetChar c = true := fun c hc => by
    simp [assetChar, hsymbolChars c hc]
  have hlen := (validateSymbol_eq_ok.mp asset.wellFormed.symbol).1.2
  have hsplit : splitScale asset.symbol = .ok (asset.symbol, none) := by
    rw [splitScale, rsplitOnce_eq_none (not_mem_symbol asset.wellFormed.symbol (by decide))]
  have hshort : parseShort asset.symbol none = parseBare asset.symbol none := by
    rw [parseShort, splitOnce_eq_none (not_mem_symbol asset.wellFormed.symbol (by decide))]
    simp only [asset.wellFormed.symbol, asset.wellFormed.upper, ok_bind]
  have hread : LedgerAsset.parse asset.symbol = .ok asset' ↔
      parseBare asset.symbol none = .ok asset'.toWireAsset := by
    rw [LedgerAsset.parse_eq_ok, parseFields_of_chars hchars, hsplit, ← hshort]
    constructor
    · rintro ⟨-, parts, hparts, hparse⟩
      obtain rfl := Except.ok.inj hparts
      exact hparse
    · intro hparse
      exact ⟨by omega, _, rfl, hparse⟩
  rw [hread, parseBare]
  constructor
  · intro h
    cases hnative : nativeCrypto asset.symbol with
    | some token =>
        simp only [hnative, guard_eq_ok] at h
        rw [WireAsset.Bare, ← Except.ok.inj h.2]
        exact ⟨hnative, rfl⟩
    | none =>
        simp only [hnative] at h
        split at h
        · next hcode =>
          rw [WireAsset.Bare, ← Except.ok.inj h]
          exact ⟨⟨.inr ⟨hcode, hnative⟩, rfl⟩, rfl⟩
        · contradiction
  · rintro ⟨hbare, hsymbol⟩
    rw [asset'.fields_eq, hsymbol]
    simp only [WireAsset.Bare, hsymbol] at hbare
    cases hn : asset'.network with
    | some network =>
        simp only [hn] at hbare
        simp [hbare]
    | none =>
        simp only [hn] at hbare
        obtain ⟨hshortForm, hscale⟩ := hbare
        have hkind : asset'.kind = .fiat := by rw [asset'.wellFormed.kind_eq, hn]; rfl
        rcases hshortForm with hcrypto | ⟨hcode, hnative⟩
        · simp [hkind] at hcrypto
        · rw [hsymbol] at hcode hnative
          simp only [hnative, if_pos hcode, hscale, Option.getD_none]
          rfl

/-- Such a symbol has a letter. -/
theorem looksNumeric_of_bare {asset : LedgerAsset} (h : asset.Bare) :
    looksNumeric asset.symbol = false := by
  rw [WireAsset.Bare] at h
  cases hn : asset.network with
  | some network =>
      simp only [hn] at h
      have hall : ∀ e ∈ nativeTable, looksNumeric e.1 = false := by decide
      exact hall _ (nativeCrypto_mem h)
  | none =>
      simp only [hn] at h
      have hcanonical : asset.canonical = asset.symbol := by
        rw [WireAsset.canonical, hn]
        exact if_pos h.2.symm
      rw [← hcanonical]
      exact looksNumeric_canonical h.1

/-! ## what comes back -/

section Exact

variable {ν : Type} {numeric : NumericType ν} {v : LedgerAmount}

/-- What is handed over is the decimal and the identity of a token. -/
theorem ledgerToCrypto_eq_ok (h : numeric.Exact) {text : Str}
    (htext : ledgerToCrypto numeric v = .ok text) :
    text = v.cryptoText ∧ v.asset.kind = .crypto ∧
      ∃ number, numeric.tryFrom (unitsToDecimal v.units v.asset.scale) = .ok number ∧
        numeric.toText number = unitsToDecimal v.units v.asset.scale := by
  obtain ⟨hkind, htext⟩ := guard_eq_ok.mp htext
  obtain ⟨number, hnumber, htext⟩ := bind_eq_ok.mp htext
  obtain rfl := Except.ok.inj htext
  obtain ⟨network, hnetwork, hidentity, -⟩ := identity_of_crypto (not_not.mp hkind)
  refine ⟨?_, not_not.mp hkind, number, ledgerAmountValue_eq_ok.mp hnumber,
    toText_ledgerAmountValue h hnumber⟩
  rw [toText_ledgerAmountValue h hnumber, LedgerAmount.cryptoText, hidentity, hnetwork]
  rfl

/-- **Tokens come back**: of what `ledger_to_crypto` hands over, exactly the
amount of the same token comes back that has the scale the other extension
knows and the same number, provided the text with that scale fits. -/
theorem cryptoReadBack (h : numeric.Exact) {crypto : CryptoExtension ν}
    (hcrypto : crypto.Reads numeric) {text : Str} (htext : ledgerToCrypto numeric v = .ok text)
    (w : LedgerAmount) : ledgerAmountOfCrypto numeric crypto text = .ok w ↔
      (w.asset.symbol = v.asset.symbol ∧ w.asset.network = v.asset.network ∧
        (w.asset.scale.toNat : Int) = crypto.decimals text) ∧ w.number = v.number ∧
      utf8Len (text ++ '/' :: intText (crypto.decimals text)) ≤ 640 := by
  obtain ⟨rfl, hkind, number, hnumber, hprinted⟩ := ledgerToCrypto_eq_ok h htext
  have hnetwork := hcrypto.network v hkind
  rw [ledgerAmountOfCrypto, hcrypto.value v hkind, hnumber, ok_bind, hcrypto.symbol v hkind,
    hprinted]
  generalize crypto.network v.cryptoText = network at hnetwork ⊢
  generalize crypto.decimals v.cryptoText = decimals
  have hidentity : v.asset.identity = v.asset.symbol ++ '@' :: network := by
    rw [WireAsset.identity, ← hnetwork]
  have hinput : unitsToDecimal v.units v.asset.scale ++ ' ' :: (v.asset.symbol ++
      '@' :: (network ++ '/' :: intText decimals)) = v.cryptoText ++ '/' :: intText decimals := by
    rw [LedgerAmount.cryptoText, hidentity]
    simp only [List.append_assoc, List.cons_append]
  have hwords : splitAsciiWhitespace (v.cryptoText ++ '/' :: intText decimals) =
      [unitsToDecimal v.units v.asset.scale, v.asset.identity ++ '/' :: intText decimals] := by
    rw [LedgerAmount.cryptoText, List.append_assoc, List.cons_append]
    exact (splitAsciiWhitespace_decimal v (scaled_chars v.asset decimals) (by simp)).1
  have hword : looksNumeric (v.asset.identity ++ '/' :: intText decimals) = false := by
    rw [← Bool.not_eq_true]
    intro hnumeric
    have hat := char_of_looksNumeric hnumeric '@' (by simp [hidentity])
    exact absurd hat (by decide)
  rw [hinput, LedgerAmount.parse_words (.inl hwords) (looksNumeric_unitsToDecimal _ _),
    parse_token_iff hkind, decimalToUnits_eq_iff]
  simp only [hword, true_and]
  tauto

/-- An amount of a token with two decimals comes back with eight. -/
theorem cryptoReadBack_foo :
    ledgerAmountOfCrypto plainNumeric (.fixture plainNumeric) "2.5 FOO@eth".toList =
        .ok ⟨foo 8, 250000000⟩ ↔
      ((foo 8).symbol = (foo 2).symbol ∧ (foo 8).network = (foo 2).network ∧
        ((foo 8).scale.toNat : Int) = cryptoAmountDecimals "2.5 FOO@eth".toList) ∧
      LedgerAmount.number ⟨foo 8, 250000000⟩ = LedgerAmount.number ⟨foo 2, 250⟩ ∧
      utf8Len ("2.5 FOO@eth".toList ++
        '/' :: intText (cryptoAmountDecimals "2.5 FOO@eth".toList)) ≤ 640 :=
  cryptoReadBack (v := ⟨foo 2, 250⟩) plainNumeric_exact (CryptoExtension.fixture_reads _)
    (by decide) ⟨foo 8, 250000000⟩

example : (ledgerAmountOfCrypto plainNumeric (.fixture plainNumeric) "1.25 BTC".toList).map
    LedgerAmount.canonical = .ok "1.25 BTC@bitcoin".toList := by decide

/-- **Money comes back**: of what the money adapters hand over, exactly the
amount of the asset comes back that the symbol stands for alone and that has
the same number, provided the text fits. -/
theorem moneyReadBack (h : numeric.Exact) {money : MoneyExtension ν} (hmoney : money.Writes numeric)
    {text : Str}
    (htext : (∃ written, ledgerToMoneyMinor numeric v = .ok written ∧ text = money.minor written) ∨
      ∃ number symbol, ledgerToMoney numeric v = .ok (number, symbol) ∧
        text = money.make number symbol) (w : LedgerAmount) :
    ledgerAmountOfMoney text = .ok w ↔ (w.asset.Bare ∧ w.asset.symbol = v.asset.symbol) ∧
      w.number = v.number ∧ utf8Len text ≤ 640 := by
  have hprinted (number : ν) (hnumber : ledgerAmountValue numeric v = .ok number) :
      numeric.toText number = unitsToDecimal v.units v.asset.scale :=
    toText_ledgerAmountValue h hnumber
  have horder : text = v.asset.symbol ++ ' ' :: unitsToDecimal v.units v.asset.scale ∨
      text = unitsToDecimal v.units v.asset.scale ++ ' ' :: v.asset.symbol := by
    rcases htext with ⟨written, htext, rfl⟩ | ⟨number, symbol, htext, rfl⟩
    · obtain ⟨number, hnumber, htext⟩ := bind_eq_ok.mp htext
      obtain rfl := Except.ok.inj htext
      rw [← hprinted number hnumber]
      exact hmoney.minor number v.asset.symbol
    · obtain ⟨number', hnumber, htext⟩ := bind_eq_ok.mp htext
      obtain ⟨rfl, rfl⟩ := Prod.mk.inj (Except.ok.inj htext)
      rw [← hprinted number' hnumber]
      exact hmoney.make number' v.asset.symbol
  have hchars : ∀ c ∈ v.asset.symbol, assetChar c = true := fun c hc => by
    simp [assetChar, (validateSymbol_eq_ok.mp v.asset.wellFormed.symbol).2 c hc]
  have hne : v.asset.symbol ≠ [] := by
    intro hnil
    have hlen := (validateSymbol_eq_ok.mp v.asset.wellFormed.symbol).1.1
    simp [hnil] at hlen
  have hwords : splitAsciiWhitespace text =
        [unitsToDecimal v.units v.asset.scale, v.asset.symbol] ∨
      splitAsciiWhitespace text = [v.asset.symbol, unitsToDecimal v.units v.asset.scale] := by
    rcases horder with rfl | rfl
    · exact .inr (splitAsciiWhitespace_decimal v hchars hne).2
    · exact .inl (splitAsciiWhitespace_decimal v hchars hne).1
  rw [ledgerAmountOfMoney, LedgerAmount.parse_words hwords (looksNumeric_unitsToDecimal _ _),
    parse_bare_iff, decimalToUnits_eq_iff]
  constructor
  · rintro ⟨hlen, -, hbare, hnumber⟩
    exact ⟨hbare, hnumber, hlen⟩
  · rintro ⟨hbare, hnumber, hlen⟩
    refine ⟨hlen, ?_, hbare, hnumber⟩
    rw [← hbare.2]
    exact looksNumeric_of_bare hbare.1

/-- An amount of a token comes back as the currency of its symbol, from either
type of the money extension. -/
theorem moneyReadBack_token :
    (ledgerAmountOfMoney ((MoneyExtension.fixture plainNumeric).minor "USD 1".toList) =
        .ok ⟨dollar, 100⟩ ↔
      (dollar.Bare ∧ dollar.symbol = dollarToken.symbol) ∧
        LedgerAmount.number ⟨dollar, 100⟩ = LedgerAmount.number ⟨dollarToken, 100⟩ ∧
        utf8Len "USD 1".toList ≤ 640) ∧
    (ledgerAmountOfMoney ((MoneyExtension.fixture plainNumeric).make "1".toList "USD".toList) =
        .ok ⟨dollar, 100⟩ ↔
      (dollar.Bare ∧ dollar.symbol = dollarToken.symbol) ∧
        LedgerAmount.number ⟨dollar, 100⟩ = LedgerAmount.number ⟨dollarToken, 100⟩ ∧
        utf8Len "USD 1".toList ≤ 640) :=
  ⟨moneyReadBack (v := ⟨dollarToken, 100⟩) plainNumeric_exact (MoneyExtension.fixture_writes _)
      (.inl ⟨"USD 1".toList, by decide, rfl⟩) ⟨dollar, 100⟩,
    moneyReadBack (v := ⟨dollarToken, 100⟩) plainNumeric_exact (MoneyExtension.fixture_writes _)
      (.inr ⟨"1".toList, "USD".toList, by decide, rfl⟩) ⟨dollar, 100⟩⟩

end Exact

end PgLedger
