import PgLedger.Asset.RoundTrip

/-!
# PgLedger.Asset.Admits

The text reader against the wire decoder.  Both only return well-formed
records (`PgLedger.Asset.Sound`), and the decoder returns all of them.  So
does the text reader: every well-formed record has a text in the `v1|` form
(`v1Text`) that is read as it, also where its printed form is not.

`WireAsset.Admitted` says in terms of characters, lengths and the scale
table what a well-formed record looks like.
-/

namespace PgLedger

/-! ## records character by character -/

/-- What may stand in the symbol of an admitted asset. -/
def upperSymbolChar (c : Char) : Bool := c.isUpper || c.isDigit || c ∈ ['.', '_', '-']

/-- What may stand in the network of an admitted asset. -/
def lowerNetworkChar (c : Char) : Bool := c.isLower || c.isDigit || c ∈ ['_', '-']

/-- The records that exist as assets. -/
structure WireAsset.Admitted (asset : WireAsset) : Prop where
  version : asset.version = 1
  symbolLength : 2 ≤ asset.symbol.length ∧ asset.symbol.length ≤ 16
  symbolChars : ∀ c ∈ asset.symbol, upperSymbolChar c = true
  kind : asset.kind = .crypto ↔ asset.network.isSome
  networkLength : ∀ network ∈ asset.network, 1 ≤ network.length ∧ network.length ≤ 32
  networkChars : ∀ network ∈ asset.network, ∀ c ∈ network, lowerNetworkChar c = true
  scale : ∀ network ∈ asset.network, ∀ known ∈ cryptoScale asset.symbol network,
    asset.scale = known

theorem upperSymbolChar_iff {c : Char} :
    upperSymbolChar c = true ↔ symbolChar c = true ∧ c.toUpper = c := by
  constructor
  · intro h
    have hchar : symbolChar c = true := by
      simp only [upperSymbolChar, Bool.or_eq_true] at h
      rcases h with (h | h) | h
      · have halpha : c.isAlpha = true := by
          show (c.isUpper || c.isLower) = true
          rw [h, Bool.true_or]
        simp [symbolChar, Char.isAlphanum, halpha]
      · exact symbolChar_of_isDigit h
      · simp only [symbolChar, h, Bool.or_true]
    refine ⟨hchar, ?_⟩
    exact ascii_induction (P := fun c => upperSymbolChar c = true → c.toUpper = c) (by decide)
      (ascii_of_symbolChar hchar) h
  · rintro ⟨hchar, hup⟩
    exact ascii_induction
      (P := fun c => symbolChar c = true → c.toUpper = c → upperSymbolChar c = true) (by decide)
      (ascii_of_symbolChar hchar) hchar hup

theorem lowerNetworkChar_iff {c : Char} :
    lowerNetworkChar c = true ↔ networkChar c = true ∧ c.toLower = c := by
  constructor
  · intro h
    have hchar : networkChar c = true := by
      simp only [lowerNetworkChar, Bool.or_eq_true] at h
      rcases h with (h | h) | h
      · have halpha : c.isAlpha = true := by
          show (c.isUpper || c.isLower) = true
          rw [h, Bool.or_true]
        simp [networkChar, Char.isAlphanum, halpha]
      · simp [networkChar, Char.isAlphanum, h]
      · simp only [networkChar, h, Bool.or_true]
    refine ⟨hchar, ?_⟩
    exact ascii_induction (P := fun c => lowerNetworkChar c = true → c.toLower = c) (by decide)
      (ascii_of_symbolChar (symbolChar_of_networkChar hchar)) h
  · rintro ⟨hchar, hlow⟩
    exact ascii_induction
      (P := fun c => networkChar c = true → c.toLower = c → lowerNetworkChar c = true) (by decide)
      (ascii_of_symbolChar (symbolChar_of_networkChar hchar)) hchar hlow

/-- Mapping a list leaves it alone exactly when it leaves every element alone. -/
theorem map_eq_self_iff {f : Char → Char} {s : Str} : s.map f = s ↔ ∀ c ∈ s, f c = c := by
  induction s with
  | nil => simp
  | cons c s ih => rw [List.map_cons, List.cons.injEq, ih, List.forall_mem_cons]

/-- A valid symbol in upper case, character by character. -/
theorem validSymbol_iff {symbol : Str} :
    validateSymbol symbol = .ok () ∧ asciiUppercase symbol = symbol ↔
      (2 ≤ symbol.length ∧ symbol.length ≤ 16) ∧ ∀ c ∈ symbol, upperSymbolChar c = true := by
  simp only [upperSymbolChar_iff, forall_and]
  rw [asciiUppercase, map_eq_self_iff, ← and_assoc, and_congr_left_iff]
  intro _
  constructor
  · intro h
    have hlen := (validateSymbol_eq_ok.mp h).1
    rw [utf8Len_eq_length (ascii_of_validateSymbol h)] at hlen
    exact ⟨hlen, (validateSymbol_eq_ok.mp h).2⟩
  · rintro ⟨hlen, hchars⟩
    refine validateSymbol_eq_ok.mpr ⟨?_, hchars⟩
    rwa [utf8Len_eq_length fun c hc => ascii_of_symbolChar (hchars c hc)]

/-- A valid network in lower case, character by character. -/
theorem validNetwork_iff {network : Str} :
    validateNetwork network = .ok () ∧ asciiLowercase network = network ↔
      (1 ≤ network.length ∧ network.length ≤ 32) ∧ ∀ c ∈ network, lowerNetworkChar c = true := by
  simp only [lowerNetworkChar_iff, forall_and]
  rw [asciiLowercase, map_eq_self_iff, ← and_assoc, and_congr_left_iff]
  intro _
  constructor
  · intro h
    obtain ⟨hne, hlen, hchars⟩ := validateNetwork_eq_ok.mp h
    rw [utf8Len_eq_length (ascii_of_validateNetwork h)] at hlen
    exact ⟨⟨List.length_pos_iff.mpr hne, hlen⟩, hchars⟩
  · rintro ⟨⟨hpos, hlen⟩, hchars⟩
    refine validateNetwork_eq_ok.mpr ⟨List.length_pos_iff.mp hpos, ?_, hchars⟩
    rwa [utf8Len_eq_length fun c hc =>
      ascii_of_symbolChar (symbolChar_of_networkChar (hchars c hc))]

/-- The checks of the readers in terms of characters. -/
theorem wellFormed_iff_admitted {asset : WireAsset} : asset.WellFormed ↔ asset.Admitted := by
  obtain ⟨version, kind, symbol, network, scale⟩ := asset
  constructor
  · intro h
    obtain ⟨hlen, hchars⟩ := validSymbol_iff.mp ⟨h.symbol, h.upper⟩
    have hnetwork : ∀ n ∈ network, (1 ≤ n.length ∧ n.length ≤ 32) ∧
        ∀ c ∈ n, lowerNetworkChar c = true :=
      fun n hn => validNetwork_iff.mp (h.networkValid hn)
    have hfits : NetworkFits symbol scale kind network := h.network
    refine ⟨h.version, hlen, hchars, ?_, fun n hn => (hnetwork n hn).1,
      fun n hn => (hnetwork n hn).2, ?_⟩
    · rw [h.kind_eq]
      cases network <;> simp
    · rintro n ⟨⟩
      cases kind with
      | fiat => exact hfits.elim
      | crypto => exact hfits.2.2
  · intro h
    obtain ⟨hsymbol, hupper⟩ := validSymbol_iff.mpr ⟨h.symbolLength, h.symbolChars⟩
    refine ⟨h.version, hsymbol, hupper, ?_⟩
    have hkind : kind = .crypto ↔ network.isSome := h.kind
    match kind, network, hkind with
    | .fiat, none, _ => trivial
    | .fiat, some network, hkind => exact absurd (hkind.mpr rfl) (by decide)
    | .crypto, none, hkind => exact absurd (hkind.mp rfl) (by decide)
    | .crypto, some network, _ =>
        obtain ⟨hvalid, hlower⟩ :=
          validNetwork_iff.mpr ⟨h.networkLength network rfl, h.networkChars network rfl⟩
        exact ⟨hvalid, hlower, h.scale network rfl⟩

/-! ## a text for every record -/

def kindText : AssetKind → Str
  | .fiat => "fiat".toList
  | .crypto => "crypto".toList

/-- A record in the `v1|` form. -/
def WireAsset.v1Text (asset : WireAsset) : Str :=
  "v1|".toList ++ (kindText asset.kind ++ '|' :: (asset.symbol ++ '|' ::
    (asset.network.getD ['-'] ++ '|' :: natText asset.scale.toNat)))

/-- A kind is read from its text. -/
theorem parseKind_kindText (kind : AssetKind) : parseKind (kindText kind) = .ok kind := by
  cases kind <;> rfl

theorem isPrefixOf?_append (p s : Str) : p.isPrefixOf? (p ++ s) = some s := by
  induction p with
  | nil => rfl
  | cons c p ih => rw [List.cons_append, List.isPrefixOf?, if_pos (beq_self_eq_true c), ih]

/-- Four fields with bars between them are the four fields. -/
theorem splitOn_fields {a b c d : Str} (ha : '|' ∉ a) (hb : '|' ∉ b) (hc : '|' ∉ c)
    (hd : '|' ∉ d) : (a ++ '|' :: (b ++ '|' :: (c ++ '|' :: d))).splitOn '|' = [a, b, c, d] := by
  rw [List.splitOn_append_cons_self_of_not_mem ha, List.splitOn_append_cons_self_of_not_mem hb,
    List.splitOn_append_cons_self_of_not_mem hc, List.splitOn_eq_singleton hd]

namespace WireAsset.WellFormed

variable {asset : WireAsset}

/-- The network, or the dash that stands for none, is ASCII text of at most
32 characters without a bar. -/
theorem networkField (h : asset.WellFormed) : Ascii (asset.network.getD ['-']) ∧
    (asset.network.getD ['-']).length ≤ 32 ∧ '|' ∉ asset.network.getD ['-'] := by
  cases hn : asset.network with
  | none => exact ⟨by simp [Ascii], by decide, by decide⟩
  | some network =>
      have hvalid := (h.networkValid hn).1
      have hascii := ascii_of_validateNetwork hvalid
      obtain ⟨-, hlen, hchars⟩ := validateNetwork_eq_ok.mp hvalid
      rw [utf8Len_eq_length hascii] at hlen
      exact ⟨hascii, hlen, fun hmem => absurd (hchars '|' hmem) (by decide)⟩

/-- The text of a valid asset is within the limit of the reader. -/
theorem utf8Len_v1Text (h : asset.WellFormed) : utf8Len asset.v1Text ≤ 128 := by
  obtain ⟨hnetworkAscii, hnetworkLen, -⟩ := h.networkField
  have hsymbol := (validateSymbol_eq_ok.mp h.symbol).1.2
  have hscaleAscii : Ascii (natText asset.scale.toNat) := fun c hc =>
    ascii_of_symbolChar (symbolChar_of_isDigit (natText_isDigit hc))
  have hscale := length_natText_byte asset.scale
  have hkind : utf8Len (kindText asset.kind) ≤ 6 := by cases asset.kind <;> decide
  have hv1 : utf8Len "v1|".toList = 3 := by decide
  have hbar : '|'.utf8Size = 1 := by decide
  simp only [v1Text, utf8Len_append, utf8Len_cons, utf8Len_eq_length hnetworkAscii,
    utf8Len_eq_length hscaleAscii]
  omega

/-- Every well-formed record is read from its text in the `v1|` form. -/
theorem parseFields_v1Text (h : asset.WellFormed) : parseFields asset.v1Text = .ok asset := by
  have hsize := h.utf8Len_v1Text
  have hkindBar : '|' ∉ kindText asset.kind := by cases asset.kind <;> decide
  have hsymbolBar : '|' ∉ asset.symbol := not_mem_symbol h.symbol (by decide)
  have hscaleBar : '|' ∉ natText asset.scale.toNat := not_mem_natText (by decide)
  rw [parseFields, if_neg (Nat.not_lt.mpr hsize), v1Text, isPrefixOf?_append]
  simp only [parseCanonical, splitOn_fields hkindBar hsymbolBar h.networkField.2.2 hscaleBar,
    parseKind_kindText, h.symbol, h.upper, parseScale, parseU8_natText, ok_bind]
  obtain ⟨hversion, -, -, hfits⟩ := h
  obtain ⟨version, kind, symbol, network, scale⟩ := asset
  obtain rfl : version = 1 := hversion
  cases kind with
  | fiat =>
      cases network with
      | none => rfl
      | some network => exact hfits.elim
  | crypto =>
      cases network with
      | none => exact hfits.elim
      | some network =>
          obtain ⟨hvalid, hlower, hknown⟩ := hfits
          simp only [Option.getD_some, hvalid, hlower, ok_bind]
          cases hc : cryptoScale symbol network with
          | none => rfl
          | some canonical =>
              obtain rfl : scale = canonical := hknown canonical hc
              exact if_neg (not_not.mpr rfl)

end WireAsset.WellFormed

/-! ## the two readers -/

/-- **Admission**: the text reader returns a record for some text exactly
when the wire decoder returns it unchanged, and these are the admitted
records. -/
theorem readers_admit_same (asset : WireAsset) :
    ((∃ input read, LedgerAsset.parse input = .ok read ∧ read.toWireAsset = asset) ↔
      ∃ read, LedgerAsset.deserialize asset = .ok read ∧ read.toWireAsset = asset) ∧
    ((∃ input read, LedgerAsset.parse input = .ok read ∧ read.toWireAsset = asset) ↔
      asset.Admitted) := by
  have hparse : (∃ input read, LedgerAsset.parse input = .ok read ∧ read.toWireAsset = asset) ↔
      asset.WellFormed := by
    constructor
    · rintro ⟨input, read, -, rfl⟩
      exact read.wellFormed
    · intro h
      exact ⟨asset.v1Text, ⟨asset, h⟩, LedgerAsset.parse_eq_ok.mpr h.parseFields_v1Text, rfl⟩
  have hwire : (∃ read, LedgerAsset.deserialize asset = .ok read ∧ read.toWireAsset = asset) ↔
      asset.WellFormed := by
    constructor
    · rintro ⟨read, -, rfl⟩
      exact read.wellFormed
    · intro h
      exact ⟨⟨asset, h⟩, LedgerAsset.deserialize_eq_ok.mpr rfl, rfl⟩
  exact ⟨hparse.trans hwire.symm, hparse.trans wellFormed_iff_admitted⟩

end PgLedger
