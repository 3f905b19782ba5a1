import PgLedger.Asset

/-!
# PgLedger.Asset.Sound

What the readers admit.  `WireAsset.WellFormed` lists what is checked of a
record, both readers are shown to return well-formed records only
(`parseFields_wellFormed`, `deserializeFields_wellFormed`), and the wire
decoder is shown to return every well-formed record unchanged.  So
`LedgerAsset`, the records with a proof of `WellFormed`, holds exactly the
values of the SQL type.
-/

namespace PgLedger

/-! ## what is checked -/

/-- A network goes with a token and not with a currency, and where the scale
of a token is known the record has that scale. -/
def NetworkFits (symbol : Str) (scale : UInt8) : AssetKind → Option Str → Prop
  | .fiat, none => True
  | .crypto, some network =>
      validateNetwork network = .ok () ∧ asciiLowercase network = network ∧
        ∀ canonical, cryptoScale symbol network = some canonical → scale = canonical
  | _, _ => False

structure WireAsset.WellFormed (asset : WireAsset) : Prop where
  version : asset.version = 1
  symbol : validateSymbol asset.symbol = .ok ()
  upper : asciiUppercase asset.symbol = asset.symbol
  network : NetworkFits asset.symbol asset.scale asset.kind asset.network

/-- A value of the SQL type `ledger_asset`. -/
structure LedgerAsset extends WireAsset where
  wellFormed : toWireAsset.WellFormed
deriving DecidableEq

/-! ## symbols and networks -/

/-- Symbols are ASCII. -/
theorem ascii_of_symbolChar {c : Char} (h : symbolChar c = true) : c.toNat < 128 := by
  simp only [symbolChar, Bool.or_eq_true, decide_eq_true_eq, List.mem_cons, List.not_mem_nil,
    or_false] at h
  rcases h with h | rfl | rfl | rfl
  · have hascii : (decide (65 ≤ c.val ∧ c.val ≤ 90) ||
        (decide (97 ≤ c.val) && decide (c.val ≤ 122)) ||
        (decide (48 ≤ c.val) && decide (c.val ≤ 57))) = true := h
    simp only [Bool.or_eq_true, Bool.and_eq_true, decide_eq_true_eq,
      UInt32.le_iff_toNat_le] at hascii
    change ((65 ≤ c.toNat ∧ c.toNat ≤ 90) ∨ (97 ≤ c.toNat ∧ c.toNat ≤ 122)) ∨
      (48 ≤ c.toNat ∧ c.toNat ≤ 57) at hascii
    omega
  all_goals decide

/-- Every character of a network may stand in a symbol too. -/
theorem symbolChar_of_networkChar {c : Char} (h : networkChar c = true) : symbolChar c = true := by
  simp only [networkChar, symbolChar, Bool.or_eq_true, decide_eq_true_eq, List.mem_cons,
    List.not_mem_nil, or_false] at h ⊢
  tauto

/-- What the check of a symbol lets through. -/
theorem validateSymbol_eq_ok {symbol : Str} : validateSymbol symbol = .ok () ↔
    (2 ≤ utf8Len symbol ∧ utf8Len symbol ≤ 16) ∧ ∀ c ∈ symbol, symbolChar c = true := by
  rw [validateSymbol, guard_eq_ok]
  simp only [not_or, not_not, List.all_eq_true, and_true]

/-- What the check of a network lets through. -/
theorem validateNetwork_eq_ok {network : Str} : validateNetwork network = .ok () ↔
    network ≠ [] ∧ utf8Len network ≤ 32 ∧ ∀ c ∈ network, networkChar c = true := by
  rw [validateNetwork, guard_eq_ok]
  simp only [not_or, not_not, Nat.not_lt, List.all_eq_true, and_true, ne_eq]

/-- A symbol that passes its check is ASCII, so changing its case keeps its
size. -/
theorem ascii_of_validateSymbol {symbol : Str} (h : validateSymbol symbol = .ok ()) :
    Ascii symbol := fun c hc => ascii_of_symbolChar ((validateSymbol_eq_ok.mp h).2 c hc)

/-- A network that passes its check is ASCII. -/
theorem ascii_of_validateNetwork {network : Str} (h : validateNetwork network = .ok ()) :
    Ascii network := fun c hc =>
  ascii_of_symbolChar (symbolChar_of_networkChar ((validateNetwork_eq_ok.mp h).2.2 c hc))

/-- Folding a symbol to upper case leaves it valid. -/
theorem validateSymbol_asciiUppercase {symbol : Str} (h : validateSymbol symbol = .ok ()) :
    validateSymbol (asciiUppercase symbol) = .ok () := by
  have hascii := ascii_of_validateSymbol h
  obtain ⟨hlen, hchars⟩ := validateSymbol_eq_ok.mp h
  refine validateSymbol_eq_ok.mpr ⟨by rwa [utf8Len_asciiUppercase hascii], fun c hc => ?_⟩
  obtain ⟨d, hd, rfl⟩ := List.mem_map.mp hc
  exact ascii_induction (P := fun c => symbolChar c = true → symbolChar c.toUpper = true)
    (by decide) (hascii d hd) (hchars d hd)

/-- Folding a network to lower case leaves it valid. -/
theorem validateNetwork_asciiLowercase {network : Str} (h : validateNetwork network = .ok ()) :
    validateNetwork (asciiLowercase network) = .ok () := by
  have hascii := ascii_of_validateNetwork h
  obtain ⟨hne, hlen, hchars⟩ := validateNetwork_eq_ok.mp h
  refine validateNetwork_eq_ok.mpr
    ⟨by simpa [asciiLowercase] using hne, by rwa [utf8Len_asciiLowercase hascii], fun c hc => ?_⟩
  obtain ⟨d, hd, rfl⟩ := List.mem_map.mp hc
  exact ascii_induction (P := fun c => networkChar c = true → networkChar c.toLower = true)
    (by decide) (hascii d hd) (hchars d hd)

/-! ## the native table -/

/-- The native tokens are those of the table. -/
theorem nativeCrypto_mem {symbol network : Str} {scale : UInt8}
    (h : nativeCrypto symbol = some (network, scale)) : (symbol, network, scale) ∈ nativeTable := by
  obtain ⟨l₁, l₂, htable, -⟩ := List.lookup_eq_some_iff.mp h
  rw [htable]
  simp

/-- A native network is in canonical form and carries the native scale. -/
theorem networkFits_native {symbol network : Str} {scale : UInt8}
    (h : nativeCrypto symbol = some (network, scale)) :
    NetworkFits symbol scale .crypto (some network) := by
  have hall : ∀ e ∈ nativeTable, validateNetwork e.2.1 = .ok () ∧
      asciiLowercase e.2.1 = e.2.1 := by decide
  obtain ⟨hvalid, hlower⟩ := hall _ (nativeCrypto_mem h)
  refine ⟨hvalid, hlower, fun canonical hcanonical => ?_⟩
  simp only [cryptoScale, h, Option.bind_some, if_pos, Option.some_or, Option.some.injEq]
    at hcanonical
  exact hcanonical

/-! ## the text reader -/

/-- A symbol as the readers store it. -/
theorem wellFormed_of_networkFits {symbol : Str} (h : validateSymbol symbol = .ok ())
    {kind : AssetKind} {network : Option Str} {scale : UInt8}
    (hfits : NetworkFits (asciiUppercase symbol) scale kind network) :
    WireAsset.WellFormed ⟨1, kind, asciiUppercase symbol, network, scale⟩ where
  version := rfl
  symbol := validateSymbol_asciiUppercase h
  upper := asciiUppercase_idem (ascii_of_validateSymbol h)
  network := hfits

/-- A network as the readers store it, under a scale that passed the check. -/
theorem networkFits_token {symbol network : Str} {scale : UInt8}
    (h : validateNetwork network = .ok ())
    (hscale : ∀ canonical, cryptoScale symbol (asciiLowercase network) = some canonical →
      scale = canonical) :
    NetworkFits symbol scale .crypto (some (asciiLowercase network)) :=
  ⟨validateNetwork_asciiLowercase h, asciiLowercase_idem (ascii_of_validateNetwork h), hscale⟩

/-- A token with its network. -/
theorem parseToken_wellFormed {symbol network : Str} {explicitScale : Option UInt8}
    {asset : WireAsset} (hs : validateSymbol symbol = .ok ())
    (h : parseToken (asciiUppercase symbol) network explicitScale = .ok asset) :
    asset.WellFormed := by
  simp only [parseToken, bind_eq_ok] at h
  obtain ⟨_, hn, h⟩ := h
  split at h
  · next provided canonical hcanonical =>
    obtain ⟨heq, h⟩ := guard_eq_ok.mp h
    obtain rfl := Except.ok.inj h
    refine wellFormed_of_networkFits hs (networkFits_token hn fun c hc => ?_)
    rw [hcanonical, Option.some.injEq] at hc
    rw [not_not.mp heq, hc]
  · next provided hnone =>
    obtain rfl := Except.ok.inj h
    exact wellFormed_of_networkFits hs (networkFits_token hn fun c hc => by simp [hnone] at hc)
  · next canonical hcanonical =>
    obtain rfl := Except.ok.inj h
    refine wellFormed_of_networkFits hs (networkFits_token hn fun c hc => ?_)
    rw [hcanonical, Option.some.injEq] at hc
    exact hc
  · contradiction

/-- A symbol without a network. -/
theorem parseBare_wellFormed {symbol : Str} {explicitScale : Option UInt8} {asset : WireAsset}
    (hs : validateSymbol symbol = .ok ())
    (h : parseBare (asciiUppercase symbol) explicitScale = .ok asset) : asset.WellFormed := by
  simp only [parseBare] at h
  split at h
  · next network scale hnative =>
    obtain ⟨-, h⟩ := guard_eq_ok.mp h
    obtain rfl := Except.ok.inj h
    exact wellFormed_of_networkFits hs (networkFits_native hnative)
  · split at h
    · obtain rfl := Except.ok.inj h
      exact wellFormed_of_networkFits hs trivial
    · contradiction

/-- The form with the kind in front. -/
theorem parseCanonical_wellFormed {rest : Str} {asset : WireAsset}
    (h : parseCanonical rest = .ok asset) : asset.WellFormed := by
  simp only [parseCanonical] at h
  split at h
  · simp only [bind_eq_ok] at h
    obtain ⟨kind, -, _, hs, scale, -, h⟩ := h
    cases kind with
    | fiat =>
        dsimp only at h
        split at h
        · obtain rfl := Except.ok.inj h
          exact wellFormed_of_networkFits hs trivial
        · contradiction
    | crypto =>
        simp only [bind_eq_ok] at h
        obtain ⟨_, hn, h⟩ := h
        split at h
        · next canonical hcanonical =>
          obtain ⟨heq, h⟩ := guard_eq_ok.mp h
          obtain rfl := Except.ok.inj h
          refine wellFormed_of_networkFits hs (networkFits_token hn fun c hc => ?_)
          rw [hcanonical, Option.some.injEq] at hc
          rw [not_not.mp heq, hc]
        · next hnone =>
          obtain rfl := Except.ok.inj h
          exact wellFormed_of_networkFits hs
            (networkFits_token hn fun c hc => by simp [hnone] at hc)
  · contradiction

/-- The form without the kind. -/
theorem parseShort_wellFormed {identity : Str} {explicitScale : Option UInt8} {asset : WireAsset}
    (h : parseShort identity explicitScale = .ok asset) : asset.WellFormed := by
  simp only [parseShort] at h
  split at h
  · obtain ⟨_, hs, h⟩ := bind_eq_ok.mp h
    exact parseToken_wellFormed hs h
  · obtain ⟨_, hs, h⟩ := bind_eq_ok.mp h
    exact parseBare_wellFormed hs h

/-- Every record read from text is well formed. -/
theorem parseFields_wellFormed {input : Str} {asset : WireAsset}
    (h : parseFields input = .ok asset) : asset.WellFormed := by
  rw [parseFields, guard_eq_ok] at h
  obtain ⟨-, h⟩ := h
  split at h
  · exact parseCanonical_wellFormed h
  · obtain ⟨⟨identity, explicitScale⟩, -, h⟩ := bind_eq_ok.mp h
    exact parseShort_wellFormed h

/-- `ledger_asset::parse`. -/
def LedgerAsset.parse (input : Str) : Except String LedgerAsset :=
  pmapOk LedgerAsset.mk (parseFields input) fun _ h => parseFields_wellFormed h

/-- The reader accepts what its fields are read from, since they are valid
then. -/
theorem LedgerAsset.parse_eq_ok {input : Str} {asset : LedgerAsset} :
    LedgerAsset.parse input = .ok asset ↔ parseFields input = .ok asset.toWireAsset := by
  rw [LedgerAsset.parse, pmapOk_eq_ok]
  constructor
  · rintro ⟨fields, h, rfl⟩
    exact h
  · intro h
    exact ⟨asset.toWireAsset, h, rfl⟩

/-! ## the wire decoder -/

/-- The wire decoder accepts exactly the well-formed records, unchanged. -/
theorem deserializeFields_eq_ok {wire asset : WireAsset} :
    deserializeFields wire = .ok asset ↔ wire.WellFormed ∧ asset = wire := by
  obtain ⟨version, kind, symbol, network, scale⟩ := wire
  constructor
  · intro h
    obtain ⟨hv, h⟩ := guard_eq_ok.mp h
    obtain ⟨_, hs, h⟩ := bind_eq_ok.mp h
    obtain ⟨hup, h⟩ := guard_eq_ok.mp h
    obtain rfl : version = 1 := not_not.mp hv
    have hup : symbol = asciiUppercase symbol := not_not.mp hup
    have wellFormed (hfits : NetworkFits symbol scale kind network) :
        WireAsset.WellFormed ⟨1, kind, symbol, network, scale⟩ :=
      ⟨rfl, hs, hup.symm, hfits⟩
    match kind, network, h with
    | .fiat, none, h => exact ⟨wellFormed trivial, (Except.ok.inj h).symm⟩
    | .crypto, some network, h =>
        obtain ⟨_, hn, h⟩ := bind_eq_ok.mp h
        obtain ⟨hlow, h⟩ := guard_eq_ok.mp h
        have hlow : network = asciiLowercase network := not_not.mp hlow
        cases hc : cryptoScale symbol network with
        | none =>
            simp only [hc] at h
            exact ⟨wellFormed ⟨hn, hlow.symm, fun c hc' => by simp [hc] at hc'⟩,
              (Except.ok.inj h).symm⟩
        | some canonical =>
            simp only [hc] at h
            obtain ⟨heq, h⟩ := guard_eq_ok.mp h
            refine ⟨wellFormed ⟨hn, hlow.symm, fun c hc' => ?_⟩, (Except.ok.inj h).symm⟩
            rw [hc, Option.some.injEq] at hc'
            rw [not_not.mp heq, hc']
  · rintro ⟨⟨hv, hs, hup, hfits⟩, rfl⟩
    obtain rfl : version = 1 := hv
    simp only [deserializeFields, hs, hup, ne_eq, not_true_eq_false, if_false, ok_bind]
    match kind, network, hfits with
    | .fiat, none, _ => rfl
    | .crypto, some network, ⟨hn, hlow, hscale⟩ =>
        simp only [hn, hlow, not_true_eq_false, if_false, ok_bind]
        cases hc : cryptoScale symbol network with
        | none => rfl
        | some canonical =>
            obtain rfl : scale = canonical := hscale canonical hc
            simp only [not_true_eq_false, if_false]

/-- `Deserialize for ledger_asset`. -/
def LedgerAsset.deserialize (wire : WireAsset) : Except String LedgerAsset :=
  pmapOk LedgerAsset.mk (deserializeFields wire) fun _ h =>
    let hwire := deserializeFields_eq_ok.mp h
    hwire.2 ▸ hwire.1

/-- The decoder accepts the wire form of every asset and nothing else. -/
theorem LedgerAsset.deserialize_eq_ok {wire : WireAsset} {asset : LedgerAsset} :
    LedgerAsset.deserialize wire = .ok asset ↔ wire = asset.toWireAsset := by
  rw [LedgerAsset.deserialize, pmapOk_eq_ok]
  constructor
  · rintro ⟨fields, h, rfl⟩
    exact (deserializeFields_eq_ok.mp h).2.symm
  · rintro rfl
    exact ⟨asset.toWireAsset, deserializeFields_eq_ok.mpr ⟨asset.wellFormed, rfl⟩, rfl⟩

end PgLedger
