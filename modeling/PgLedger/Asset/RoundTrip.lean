import PgLedger.Asset.Sound

/-!
# PgLedger.Asset.RoundTrip

The printer against the reader.  The printed form is split at the last `/`
and then at the first `@`, so the first half of the module shows that the
pieces of a well-formed record contain neither; the second half follows the
two branches of the short form.

Tokens always read back.  A currency reads back exactly when the short form
would have accepted it (`ShortForm`): the `v1|` form and the wire also admit
a currency whose symbol is a native token or not a three-letter code, and
the printed symbol of such a record means something else, or nothing, to the
reader.
-/

namespace PgLedger

/-! ## the characters of printed assets -/

/-- The characters a printed asset is made of. -/
def assetChar (c : Char) : Bool := symbolChar c || c ∈ ['@', '/']

/-- Assets are printed in ASCII. -/
theorem ascii_of_assetChar {c : Char} (h : assetChar c = true) : c.toNat < 128 := by
  simp only [assetChar, Bool.or_eq_true, decide_eq_true_eq, List.mem_cons, List.not_mem_nil,
    or_false] at h
  rcases h with h | rfl | rfl
  · exact ascii_of_symbolChar h
  all_goals decide

/-- Digits may stand in a symbol. -/
theorem symbolChar_of_isDigit {c : Char} (h : c.isDigit = true) : symbolChar c = true := by
  simp [symbolChar, Char.isAlphanum, h]

/-- No blank is in a printed asset. -/
theorem isWhitespace_of_assetChar {c : Char} (h : assetChar c = true) :
    isWhitespace c = false :=
  ascii_induction (P := fun c => assetChar c = true → isWhitespace c = false) (by decide)
    (ascii_of_assetChar h) h

/-- No ASCII blank is in a printed asset. -/
theorem isAsciiWhitespace_of_assetChar {c : Char} (h : assetChar c = true) :
    isAsciiWhitespace c = false :=
  ascii_induction (P := fun c => assetChar c = true → isAsciiWhitespace c = false) (by decide)
    (ascii_of_assetChar h) h

/-- None of the separators of the readers can stand in a symbol. -/
theorem not_mem_symbol {symbol : Str} (h : validateSymbol symbol = .ok ()) {c : Char}
    (hc : symbolChar c = false) : c ∉ symbol := by
  intro hmem
  simp only [(validateSymbol_eq_ok.mp h).2 c hmem] at hc
  contradiction

/-- Nothing but digits is in the text of a number. -/
theorem not_mem_natText {n : Nat} {c : Char} (hc : c.isDigit = false) : c ∉ natText n := by
  intro hmem
  simp only [natText_isDigit hmem] at hc
  contradiction

/-- A printed scale has at most three digits. -/
theorem length_natText_byte (n : UInt8) : (natText n.toNat).length ≤ 3 :=
  (Nat.length_toDigits_le_iff (by decide) (by decide)).mpr
    (Nat.lt_of_lt_of_le n.toNat_lt (by decide))

/-! ## cases of a printed asset -/

/-- The printed identity, before the scale. -/
def WireAsset.identity (asset : WireAsset) : Str :=
  match asset.network with
  | some network => asset.symbol ++ '@' :: network
  | none => asset.symbol

/-- The scale the reader assumes where none is written. -/
def WireAsset.impliedScale (asset : WireAsset) : Option UInt8 :=
  match asset.network with
  | some network => cryptoScale asset.symbol network
  | none => some (fiatScale asset.symbol)

/-- The scale the printer writes: none where it is implied. -/
def WireAsset.writtenScale (asset : WireAsset) : Option UInt8 :=
  if asset.impliedScale = some asset.scale then none else some asset.scale

/-- Written or implied, the scale can be recovered. -/
theorem writtenScale_or (asset : WireAsset) :
    asset.writtenScale.or asset.impliedScale = some asset.scale := by
  unfold WireAsset.writtenScale
  split
  · next himplied => rw [Option.none_or, himplied]
  · rfl

/-- The scale is printed where the identity does not imply it. -/
theorem canonical_eq (asset : WireAsset) : asset.canonical =
    if asset.impliedScale = some asset.scale then asset.identity
    else asset.identity ++ '/' :: natText asset.scale.toNat := by
  obtain ⟨version, kind, symbol, network, scale⟩ := asset
  cases network with
  | none => simp [WireAsset.canonical, WireAsset.impliedScale, WireAsset.identity]
  | some network => simp [WireAsset.canonical, WireAsset.impliedScale, WireAsset.identity]

namespace WireAsset.WellFormed

variable {asset : WireAsset}

/-- The network of a valid asset is valid and in lower case. -/
theorem networkValid (h : asset.WellFormed) {network : Str} (hn : asset.network = some network) :
    validateNetwork network = .ok () ∧ asciiLowercase network = network := by
  obtain ⟨version, kind, symbol, network', scale⟩ := asset
  have hfits : NetworkFits symbol scale kind network' := h.network
  obtain rfl : network' = some network := hn
  cases kind with
  | fiat => exact hfits.elim
  | crypto => exact ⟨hfits.1, hfits.2.1⟩

/-- No slash is in the identity, so the one before the scale is found. -/
theorem identity_chars (h : asset.WellFormed) :
    ∀ c ∈ asset.identity, assetChar c = true ∧ c ≠ '/' := by
  have hsymbol : ∀ c ∈ asset.symbol, assetChar c = true ∧ c ≠ '/' := by
    intro c hc
    have hchar := (validateSymbol_eq_ok.mp h.symbol).2 c hc
    exact ⟨by simp [assetChar, hchar], by rintro rfl; exact absurd hchar (by decide)⟩
  intro c hc
  cases hn : asset.network with
  | none =>
      rw [identity, hn] at hc
      exact hsymbol c hc
  | some network =>
      rw [identity, hn, List.mem_append, List.mem_cons] at hc
      rcases hc with hc | rfl | hc
      · exact hsymbol c hc
      · decide
      · have hchar := symbolChar_of_networkChar
          ((validateNetwork_eq_ok.mp (h.networkValid hn).1).2.2 c hc)
        exact ⟨by simp [assetChar, hchar], by rintro rfl; exact absurd hchar (by decide)⟩

/-- The identity takes at most 49 characters: a symbol, `@` and a network. -/
theorem length_identity (h : asset.WellFormed) : asset.identity.length ≤ 49 := by
  have hsymbol := (validateSymbol_eq_ok.mp h.symbol).1
  rw [utf8Len_eq_length (ascii_of_validateSymbol h.symbol)] at hsymbol
  cases hn : asset.network with
  | none =>
      rw [identity, hn]
      dsimp only
      omega
  | some network =>
      have hvalid := (h.networkValid hn).1
      have hnetwork := (validateNetwork_eq_ok.mp hvalid).2.1
      rw [utf8Len_eq_length (ascii_of_validateNetwork hvalid)] at hnetwork
      rw [identity, hn]
      simp only [List.length_append, List.length_cons]
      omega

/-- The characters of a printed asset. -/
theorem canonical_chars (h : asset.WellFormed) : ∀ c ∈ asset.canonical, assetChar c = true := by
  intro c hc
  simp only [canonical_eq] at hc
  split at hc
  · exact (h.identity_chars c hc).1
  · rw [List.mem_append, List.mem_cons] at hc
    rcases hc with hc | rfl | hc
    · exact (h.identity_chars c hc).1
    · decide
    · simp [assetChar, symbolChar_of_isDigit (natText_isDigit hc)]

/-- A printed asset takes at most 53 characters. -/
theorem length_canonical (h : asset.WellFormed) : asset.canonical.length ≤ 53 := by
  have hidentity := h.length_identity
  have hscale := length_natText_byte asset.scale
  rw [canonical_eq]
  split
  · omega
  · simp only [List.length_append, List.length_cons]
    omega

/-- A printed asset is not empty. -/
theorem canonical_ne_nil (h : asset.WellFormed) : asset.canonical ≠ [] := by
  have hsymbol : asset.symbol ≠ [] := by
    intro hnil
    have := (validateSymbol_eq_ok.mp h.symbol).1.1
    rw [hnil, utf8Len_nil] at this
    omega
  have hidentity : asset.identity ≠ [] := by
    unfold identity
    split
    · simp
    · exact hsymbol
  rw [canonical_eq]
  split
  · exact hidentity
  · simp

/-! ## reading a printed asset -/

/-- What follows the last slash of a printed asset is its scale. -/
theorem splitScale_canonical (h : asset.WellFormed) : splitScale asset.canonical =
    .ok (asset.identity, asset.writtenScale) := by
  have hslash : '/' ∉ asset.identity := fun hmem => (h.identity_chars '/' hmem).2 rfl
  rw [canonical_eq, WireAsset.writtenScale]
  split
  · rw [splitScale, rsplitOnce_eq_none hslash]
  · have hdigits : (natText asset.scale.toNat).all Char.isDigit = true :=
      List.all_eq_true.mpr fun c hc => natText_isDigit hc
    rw [splitScale, rsplitOnce_append _ (not_mem_natText (by decide))]
    simp only [hdigits, if_true, parseScale, parseU8_natText, ok_bind]

/-- The reader takes a printed asset as a short form. -/
theorem parseFields_canonical (h : asset.WellFormed) : parseFields asset.canonical =
    parseShort asset.identity asset.writtenScale := by
  have hchars := h.canonical_chars
  have hlen : utf8Len asset.canonical ≤ 53 := by
    rw [utf8Len_eq_length fun c hc => ascii_of_assetChar (hchars c hc)]
    exact h.length_canonical
  have hv1 : "v1|".toList.isPrefixOf? asset.canonical = none := by
    cases hp : "v1|".toList.isPrefixOf? asset.canonical with
    | none => rfl
    | some rest =>
        have hbar := hchars '|' (by rw [eq_append_of_isPrefixOf? hp]; simp)
        exact absurd hbar (by decide)
  have htrim : trim asset.canonical = asset.canonical :=
    trim_eq_self fun c hc => isWhitespace_of_assetChar (hchars c hc)
  rw [parseFields, if_neg (by omega), hv1]
  simp only [htrim, h.splitScale_canonical, ok_bind]

/-- The kind of a record shows in whether it has a network. -/
theorem kind_eq (h : asset.WellFormed) :
    asset.kind = if asset.network.isSome then .crypto else .fiat := by
  obtain ⟨version, kind, symbol, network, scale⟩ := asset
  have hfits : NetworkFits symbol scale kind network := h.network
  cases kind with
  | fiat =>
      cases network with
      | none => rfl
      | some network => exact hfits.elim
  | crypto =>
      cases network with
      | none => exact hfits.elim
      | some network => rfl

/-- The identity is split again at the only `@` it can contain. -/
theorem splitOnce_identity (h : asset.WellFormed) : splitOnce '@' asset.identity =
    asset.network.map fun network => (asset.symbol, network) := by
  have hat : '@' ∉ asset.symbol := not_mem_symbol h.symbol (by decide)
  cases hn : asset.network with
  | none => rw [identity, hn, splitOnce_eq_none hat, Option.map_none]
  | some network => rw [identity, hn, splitOnce_append hat, Option.map_some]

end WireAsset.WellFormed

/-- Distinct assets print differently. -/
theorem canonical_injective {a b : LedgerAsset} (h : a.canonical = b.canonical) : a = b := by
  have hsplit := a.wellFormed.splitScale_canonical
  rw [h, b.wellFormed.splitScale_canonical] at hsplit
  obtain ⟨hidentity, hwritten⟩ := Prod.mk.inj (Except.ok.inj hsplit)
  have hparts := a.wellFormed.splitOnce_identity
  rw [← hidentity, b.wellFormed.splitOnce_identity] at hparts
  have hnetwork : b.network = a.network := by
    have hmap := congrArg (Option.map Prod.snd) hparts
    simpa [Option.map_map, Function.comp_def] using hmap
  have hsymbol : b.symbol = a.symbol := by
    cases hn : a.network with
    | none =>
        rw [WireAsset.identity, WireAsset.identity, hnetwork, hn] at hidentity
        exact hidentity
    | some network =>
        rw [hnetwork, hn, Option.map_some, Option.map_some, Option.some.injEq] at hparts
        exact (Prod.mk.inj hparts).1
  have himplied : b.impliedScale = a.impliedScale := by
    rw [WireAsset.impliedScale, WireAsset.impliedScale, hnetwork, hsymbol]
  have hscale : b.scale = a.scale := by
    have hb := writtenScale_or b.toWireAsset
    rw [hwritten, himplied, writtenScale_or a.toWireAsset, Option.some.injEq] at hb
    exact hb.symm
  have hkind : a.kind = b.kind := by
    rw [a.wellFormed.kind_eq, b.wellFormed.kind_eq, hnetwork]
  have hversion : a.version = b.version := by
    rw [a.wellFormed.version, b.wellFormed.version]
  obtain ⟨⟨version, kind, symbol, network, scale⟩, ha⟩ := a
  obtain ⟨⟨version', kind', symbol', network', scale'⟩, hb⟩ := b
  simp only at hnetwork hsymbol hscale hkind hversion
  subst hnetwork hsymbol hscale hkind hversion
  rfl

/-! ## the round trip -/

/-- The records the short form describes: a token, or a currency with a
three-letter code that is not a native token. -/
def WireAsset.ShortForm (asset : WireAsset) : Prop :=
  asset.kind = .crypto ∨
    (utf8Len asset.symbol = 3 ∧ asset.symbol.all Char.isAlpha = true) ∧
      nativeCrypto asset.symbol = none

instance (asset : WireAsset) : Decidable asset.ShortForm := by
  unfold WireAsset.ShortForm
  infer_instance

/-- A token reads back from its symbol, its network and, unless it is the
known one, its scale. -/
theorem parseToken_eq_ok {symbol network : Str} {scale : UInt8} {explicitScale : Option UInt8}
    (h : NetworkFits symbol scale .crypto (some network))
    (hscale : explicitScale.or (cryptoScale symbol network) = some scale) :
    parseToken symbol network explicitScale = .ok ⟨1, .crypto, symbol, some network, scale⟩ := by
  obtain ⟨hvalid, hlower, hknown⟩ := h
  simp only [parseToken, hvalid, hlower, ok_bind]
  cases explicitScale with
  | none =>
      rw [Option.none_or] at hscale
      simp only [hscale]
  | some provided =>
      obtain rfl : provided = scale := Option.some.inj hscale
      cases hc : cryptoScale symbol network with
      | none => rfl
      | some canonical =>
          obtain rfl := hknown canonical hc
          exact if_neg (not_not.mpr rfl)

/-- A bare symbol reads as a currency exactly when it is a three-letter code
other than those of the native tokens. -/
theorem parseBare_eq_fiat {symbol : Str} {scale : UInt8} {explicitScale : Option UInt8}
    (hscale : explicitScale.getD (fiatScale symbol) = scale) :
    parseBare symbol explicitScale = .ok ⟨1, .fiat, symbol, none, scale⟩ ↔
      (utf8Len symbol = 3 ∧ symbol.all Char.isAlpha = true) ∧ nativeCrypto symbol = none := by
  rw [parseBare, hscale]
  cases hn : nativeCrypto symbol with
  | none =>
      by_cases hcode : utf8Len symbol = 3 ∧ symbol.all Char.isAlpha = true
      · simp only [hcode, and_self, if_true]
      · simp only [hcode, if_false, reduceCtorEq, false_and]
  | some p =>
      -- the symbol is taken for a token, whose kind already differs
      simp only [guard_eq_ok, Except.ok.injEq, WireAsset.mk.injEq, reduceCtorEq, false_and,
        and_false]

/-- **The round trip**: a printed asset is read as itself exactly when the
short form stands for it. -/
theorem parseFields_canonical_iff {asset : WireAsset} (h : asset.WellFormed) :
    parseFields asset.canonical = .ok asset ↔ asset.ShortForm := by
  rw [h.parseFields_canonical]
  have hscale := writtenScale_or asset
  generalize asset.writtenScale = written at hscale
  obtain ⟨hversion, hsymbol, hupper, hfits⟩ := h
  obtain ⟨version, kind, symbol, network, scale⟩ := asset
  obtain rfl : version = 1 := hversion
  have hat : '@' ∉ symbol := not_mem_symbol hsymbol (by decide)
  match kind, network, hfits, hscale with
  | .fiat, none, _, hscale =>
      have hscale : written.getD (fiatScale symbol) = scale := by
        cases written with
        | none => exact Option.some.inj hscale
        | some written => exact Option.some.inj hscale
      rw [WireAsset.identity, parseShort]
      simp only [splitOnce_eq_none hat, hsymbol, hupper, ok_bind]
      rw [parseBare_eq_fiat hscale]
      simp only [WireAsset.ShortForm, reduceCtorEq, false_or]
  | .crypto, some network, hfits, hscale =>
      rw [WireAsset.identity, parseShort]
      simp only [splitOnce_append hat, hsymbol, hupper, ok_bind]
      rw [parseToken_eq_ok hfits hscale]
      simp only [WireAsset.ShortForm, true_or]

/-- **Asset round trip**: an asset reads back from its printed text exactly
when it is one that the short form describes. -/
theorem asset_roundtrip_iff (asset : LedgerAsset) :
    LedgerAsset.parse asset.canonical = .ok asset ↔ asset.ShortForm := by
  rw [LedgerAsset.parse_eq_ok]
  exact parseFields_canonical_iff asset.wellFormed

/-- With a network the kind is `crypto` in every branch that succeeds. -/
theorem kind_of_parseToken {symbol network : Str} {explicitScale : Option UInt8}
    {asset : WireAsset} (h : parseToken symbol network explicitScale = .ok asset) :
    asset.kind = .crypto := by
  simp only [parseToken, bind_eq_ok] at h
  obtain ⟨_, -, h⟩ := h
  split at h
  · obtain ⟨-, h⟩ := guard_eq_ok.mp h
    rw [← Except.ok.inj h]
  · rw [← Except.ok.inj h]
  · rw [← Except.ok.inj h]
  · contradiction

/-- Everything that is read from a text without the `v1|` prefix is a short
form. -/
theorem shortForm_of_parse {input : Str} {asset : LedgerAsset}
    (hv1 : "v1|".toList.isPrefixOf? input = none)
    (h : LedgerAsset.parse input = .ok asset) : asset.ShortForm := by
  rw [LedgerAsset.parse_eq_ok, parseFields, guard_eq_ok, hv1] at h
  obtain ⟨⟨identity, explicitScale⟩, -, h⟩ := bind_eq_ok.mp h.2
  generalize asset.toWireAsset = fields at h
  simp only [parseShort] at h
  split at h
  · obtain ⟨_, -, h⟩ := bind_eq_ok.mp h
    exact .inl (kind_of_parseToken h)
  · obtain ⟨_, -, h⟩ := bind_eq_ok.mp h
    simp only [parseBare] at h
    split at h
    · obtain ⟨-, h⟩ := guard_eq_ok.mp h
      left
      rw [← Except.ok.inj h]
    · next hnative =>
      split at h
      · next hcode =>
        right
        rw [← Except.ok.inj h]
        exact ⟨hcode, hnative⟩
      · contradiction

/-- The currency that `v1|fiat|BTC|-|2` is read as. -/
def fiatBtc : LedgerAsset where
  version := 1
  kind := .fiat
  symbol := "BTC".toList
  network := none
  scale := 2
  wellFormed := ⟨rfl, by decide, by decide, trivial⟩

/-- A currency under the symbol of a native token is read, and printed as a
text that means the token. -/
theorem fiatBtc_not_roundtrip :
    ¬ ∀ asset : LedgerAsset, ((∃ input, LedgerAsset.parse input = .ok asset) ∨
      ∃ wire, LedgerAsset.deserialize wire = .ok asset) →
      LedgerAsset.parse asset.canonical = .ok asset := by
  intro h
  have hread : LedgerAsset.parse "v1|fiat|BTC|-|2".toList = .ok fiatBtc := by decide
  have hback : LedgerAsset.parse fiatBtc.canonical ≠ .ok fiatBtc := by decide
  exact hback (h fiatBtc (.inl ⟨_, hread⟩))

end PgLedger
