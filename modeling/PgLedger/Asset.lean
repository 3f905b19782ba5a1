import PgLedger.Text
import PgLedger.Result

/-!
# PgLedger.Asset

Asset identities: the scale tables, the text reader `parse` (the short form
and the `v1|kind|symbol|network|scale` form), the wire decoder `deserialize`
and the printer `canonical`.

The readers assemble plain `WireAsset` records, as the source does.  What
they check on the way is collected in `WireAsset.WellFormed`, and
`LedgerAsset` is a record with that proof: the fields of the source's struct
are private, so the readers are the only way to one.
-/

namespace PgLedger

/-- Fiat currency or crypto token. -/
inductive AssetKind where
  | fiat
  | crypto
deriving DecidableEq, Repr

/-- The fields of an asset, before anything is known about them. -/
structure WireAsset where
  version : UInt8
  kind : AssetKind
  symbol : Str
  network : Option Str
  scale : UInt8
deriving DecidableEq, Repr

/-! ## character checks -/

def symbolChar (c : Char) : Bool := c.isAlphanum || c ∈ ['.', '_', '-']

def networkChar (c : Char) : Bool := c.isAlphanum || c ∈ ['_', '-']

def validateSymbol (symbol : Str) : Except String Unit :=
  if ¬ (2 ≤ utf8Len symbol ∧ utf8Len symbol ≤ 16) ∨ ¬ symbol.all symbolChar then
    .error "asset symbol must contain 2-16 ASCII letters, digits, '.', '_', or '-'"
  else .ok ()

def validateNetwork (network : Str) : Except String Unit :=
  if network = [] ∨ 32 < utf8Len network ∨ ¬ network.all networkChar then
    .error "network must contain 1-32 ASCII letters, digits, '_' or '-'"
  else .ok ()

/-! ## scale tables -/

def zeroScaleCurrencies : List Str :=
  ["BIF".toList, "CLP".toList, "DJF".toList, "GNF".toList, "ISK".toList, "JPY".toList,
    "KMF".toList, "KRW".toList, "PYG".toList, "RWF".toList, "UGX".toList, "UYI".toList,
    "VND".toList, "VUV".toList, "XAF".toList, "XOF".toList, "XPF".toList]

def fiatScale (symbol : Str) : UInt8 :=
  if symbol ∈ zeroScaleCurrencies then 0
  else if symbol ∈ ["CLF".toList, "UYW".toList] then 4
  else if symbol ∈ ["BHD".toList, "IQD".toList, "JOD".toList, "KWD".toList, "LYD".toList,
      "OMR".toList, "TND".toList] then 3
  else 2

/-- The tokens a bare symbol stands for, with their network and scale. -/
def nativeTable : List (Str × Str × UInt8) :=
  [("BTC".toList, "bitcoin".toList, 8), ("ETH".toList, "ethereum".toList, 18),
    ("SOL".toList, "solana".toList, 9), ("TRX".toList, "tron".toList, 6),
    ("ADA".toList, "cardano".toList, 6), ("DOT".toList, "polkadot".toList, 10),
    ("AVAX".toList, "avalanche".toList, 18)]

def nativeCrypto (symbol : Str) : Option (Str × UInt8) := nativeTable.lookup symbol

def stablecoinNetworks : List Str :=
  ["ethereum".toList, "solana".toList, "tron".toList, "arbitrum".toList, "optimism".toList,
    "base".toList, "polygon".toList, "avalanche".toList]

/-- The tokens whose scale is known away from their native network. -/
def tokenScale (symbol network : Str) : Option UInt8 :=
  if symbol ∈ ["USDC".toList, "USDT".toList] ∧ network ∈ stablecoinNetworks then some 6
  else if symbol = "ETH".toList ∧ network ∈ ["arbitrum".toList, "optimism".toList, "base".toList] ∨
      symbol = "DAI".toList ∧ network = "ethereum".toList then some 18
  else none

def cryptoScale (symbol network : Str) : Option UInt8 :=
  ((nativeCrypto symbol).bind fun (canonicalNetwork, scale) =>
    if network = canonicalNetwork then some scale else none).or (tokenScale symbol network)

/-! ## the printer -/

def WireAsset.canonical (asset : WireAsset) : Str :=
  match asset.network with
  | some network =>
      if cryptoScale asset.symbol network = some asset.scale then asset.symbol ++ '@' :: network
      else asset.symbol ++ '@' :: network ++ '/' :: natText asset.scale.toNat
  | none =>
      if fiatScale asset.symbol = asset.scale then asset.symbol
      else asset.symbol ++ '/' :: natText asset.scale.toNat

/-- The complaint of every reader about a token with a known scale. -/
def canonicalScaleError (identity : Str) (scale : UInt8) : String :=
  String.ofList identity ++ " has canonical scale " ++ toString scale

/-! ## the readers -/

def parseScale (scale : Str) : Except String UInt8 :=
  match parseU8 scale with
  | some scale => .ok scale
  | none => .error "asset scale must be between 0 and 255"

/-- The `/scale` at the end of a short form, if digits follow the last slash. -/
def splitScale (input : Str) : Except String (Str × Option UInt8) :=
  match rsplitOnce '/' input with
  | some (identity, scale) =>
      if scale.all Char.isDigit then do
        let scale ← parseScale scale
        .ok (identity, some scale)
      else .ok (input, none)
  | none => .ok (input, none)

/-- A symbol with a network. -/
def parseToken (symbol network : Str) (explicitScale : Option UInt8) : Except String WireAsset := do
  validateNetwork network
  let network := asciiLowercase network
  let identity := symbol ++ '@' :: network
  let asset scale : WireAsset := ⟨1, .crypto, symbol, some network, scale⟩
  match explicitScale, cryptoScale symbol network with
  | some provided, some canonical =>
      if provided ≠ canonical then .error (canonicalScaleError identity canonical)
      else .ok (asset provided)
  | some provided, none => .ok (asset provided)
  | none, some canonical => .ok (asset canonical)
  | none, none => .error ("unknown crypto asset " ++ String.ofList identity ++
      "; append '/<decimals>' to declare its scale")

/-- A symbol without a network: a native token first, then a fiat code. -/
def parseBare (symbol : Str) (explicitScale : Option UInt8) : Except String WireAsset :=
  match nativeCrypto symbol with
  | some (network, scale) =>
      if explicitScale.any (· ≠ scale) then .error (canonicalScaleError symbol scale)
      else .ok ⟨1, .crypto, symbol, some network, scale⟩
  | none =>
      if utf8Len symbol = 3 ∧ symbol.all Char.isAlpha then
        .ok ⟨1, .fiat, symbol, none, explicitScale.getD (fiatScale symbol)⟩
      else .error "fiat assets use a 3-letter code; crypto assets require a network"

/-- The short form, after its scale was split off. -/
def parseShort (identity : Str) (explicitScale : Option UInt8) : Except String WireAsset :=
  match splitOnce '@' identity with
  | some (symbol, network) => do
      validateSymbol symbol
      parseToken (asciiUppercase symbol) network explicitScale
  | none => do
      validateSymbol identity
      parseBare (asciiUppercase identity) explicitScale

def parseKind (kind : Str) : Except String AssetKind :=
  if kind = "fiat".toList then .ok .fiat
  else if kind = "crypto".toList then .ok .crypto
  else .error "asset kind must be fiat or crypto"

/-- What follows `v1|`. -/
def parseCanonical (rest : Str) : Except String WireAsset :=
  match rest.splitOn '|' with
  | [kind, symbol, network, scale] => do
      let kind ← parseKind kind
      validateSymbol symbol
      let symbol := asciiUppercase symbol
      let scale ← parseScale scale
      match kind with
      | .fiat =>
          if network = "-".toList then .ok ⟨1, .fiat, symbol, none, scale⟩
          else .error "fiat assets cannot have a network"
      | .crypto => do
          validateNetwork network
          let network := asciiLowercase network
          match cryptoScale symbol network with
          | some canonical =>
              if scale ≠ canonical then
                .error (canonicalScaleError (symbol ++ '@' :: network) canonical)
              else .ok ⟨1, .crypto, symbol, some network, scale⟩
          | none => .ok ⟨1, .crypto, symbol, some network, scale⟩
  | _ => .error "canonical asset must be v1|<kind>|<symbol>|<network-or->|<scale>"

/-- The record read from asset text. -/
def parseFields (input : Str) : Except String WireAsset :=
  if 128 < utf8Len input then .error "asset identifier exceeds 128 bytes"
  else match "v1|".toList.isPrefixOf? input with
    | some rest => parseCanonical rest
    | none => do
        let (identity, explicitScale) ← splitScale (trim input)
        parseShort identity explicitScale

/-- The record accepted from the wire. -/
def deserializeFields (wire : WireAsset) : Except String WireAsset :=
  let asset : WireAsset := ⟨1, wire.kind, wire.symbol, wire.network, wire.scale⟩
  if wire.version ≠ 1 then
    .error ("unsupported ledger_asset binary version " ++ toString wire.version)
  else do
    validateSymbol wire.symbol
    if wire.symbol ≠ asciiUppercase wire.symbol then
      .error "asset symbol is not canonical uppercase"
    else match wire.kind, wire.network with
      | .fiat, none => .ok asset
      | .crypto, some network => do
          validateNetwork network
          if network ≠ asciiLowercase network then
            .error "asset network is not canonical lowercase"
          else match cryptoScale wire.symbol network with
            | some canonical =>
                if wire.scale ≠ canonical then
                  .error (canonicalScaleError (wire.symbol ++ '@' :: network) canonical)
                else .ok asset
            | none => .ok asset
      | _, _ => .error "asset kind and network are inconsistent"

end PgLedger
