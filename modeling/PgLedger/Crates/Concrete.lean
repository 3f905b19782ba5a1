import Mathlib.Data.List.Nodup
import PgLedger.Crates

/-!
# PgLedger.Crates.Concrete

Crates that can be run: the hyphenated form of a UUID, the compact JSON text
in UTF-8, lower-case hexadecimal, and a digest that returns the SHA-256
values of recorded documents.  Every other input is mapped to itself behind a
pad longer than a digest, so that the digest has no collisions at all.
-/

namespace PgLedger

namespace Crates

/-! ## hexadecimal -/

/-- The last `k` hexadecimal digits of a number. -/
def hexDigits : Nat → Nat → Str
  | 0, _ => []
  | k + 1, n => hexDigits k (n / 16) ++ [hexDigit (n % 16)]

/-- The number that hexadecimal digits write. -/
def hexNumber (s : Str) : Nat := s.foldl (fun n c => n * 16 + hexValue c) 0

theorem length_hexDigits (k n : Nat) : (hexDigits k n).length = k := by
  induction k generalizing n with
  | zero => rfl
  | succ k ih => rw [hexDigits, List.length_append, ih, List.length_singleton]

/-- Hexadecimal digits are read as the number they were written for. -/
theorem hexNumber_hexDigits {k n : Nat} (h : n < 16 ^ k) : hexNumber (hexDigits k n) = n := by
  induction k generalizing n with
  | zero =>
      have hn : n = 0 := by simpa using h
      rw [hn]
      rfl
  | succ k ih =>
      have hdiv : n / 16 < 16 ^ k := by
        rw [Nat.div_lt_iff_lt_mul (by decide), ← Nat.pow_succ]
        exact h
      have hlast : hexValue (hexDigit (n % 16)) = n % 16 :=
        hexValue_hexDigit _ (Nat.mod_lt _ (by decide))
      rw [hexNumber, hexDigits, List.foldl_append]
      have hfold := ih hdiv
      simp only [hexNumber] at hfold
      rw [hfold, List.foldl_cons, List.foldl_nil, hlast]
      omega

theorem isHexDigit_hexDigit : ∀ n < 16, isHexDigit (hexDigit n) = true := by decide

theorem isHexDigit_of_mem_hexDigits {k n : Nat} {c : Char} (h : c ∈ hexDigits k n) :
    isHexDigit c = true := by
  induction k generalizing n with
  | zero => exact absurd h List.not_mem_nil
  | succ k ih =>
      rw [hexDigits, List.mem_append, List.mem_singleton] at h
      rcases h with h | rfl
      · exact ih h
      · exact isHexDigit_hexDigit _ (Nat.mod_lt _ (by decide))

/-! ## identifiers -/

/-- Hyphens after the eighth, twelfth, sixteenth and twentieth digit. -/
def hyphenate (s : Str) : Str :=
  s.take 8 ++ '-' :: (s.drop 8).take 4 ++ '-' :: (s.drop 12).take 4 ++
    '-' :: (s.drop 16).take 4 ++ '-' :: s.drop 20

def hyphenated (id : Uuid) : Str := hyphenate (hexDigits 32 id.toNat)

/-- Read the hyphenated form. -/
def parseHyphenated (s : Str) : Option Uuid :=
  let id := BitVec.ofNat 128 (hexNumber (s.filter (· ≠ '-')))
  if hyphenated id = s then some id else none

/-- Dropping the hyphens undoes `hyphenate`. -/
theorem filter_hyphenate {s : Str} (h : '-' ∉ s) : (hyphenate s).filter (· ≠ '-') = s := by
  have hself : s.filter (· ≠ '-') = s := by
    rw [List.filter_eq_self]
    intro c hc
    simpa using fun hceq : c = '-' => h (hceq ▸ hc)
  have hpieces : s = s.take 8 ++ (s.drop 8).take 4 ++ (s.drop 12).take 4 ++ (s.drop 16).take 4 ++
      s.drop 20 := by
    simp only [← List.take_add]
    rw [List.take_append_drop]
  calc (hyphenate s).filter (· ≠ '-')
      = (s.take 8 ++ (s.drop 8).take 4 ++ (s.drop 12).take 4 ++ (s.drop 16).take 4 ++
          s.drop 20).filter (· ≠ '-') := by
        simp [hyphenate, List.filter_append]
    _ = s := by rw [← hpieces, hself]

/-- An identifier is read from its text. -/
theorem parseHyphenated_hyphenated (id : Uuid) : parseHyphenated (hyphenated id) = some id := by
  have hno : '-' ∉ hexDigits 32 id.toNat := fun hmem =>
    absurd (isHexDigit_of_mem_hexDigits hmem) (by decide)
  have hvalue : BitVec.ofNat 128 (hexNumber ((hyphenated id).filter (· ≠ '-'))) = id := by
    rw [hyphenated, filter_hyphenate hno,
      hexNumber_hexDigits (Nat.lt_of_lt_of_le id.isLt (by decide)),
      BitVec.ofNat_toNat, BitVec.setWidth_eq]
  rw [parseHyphenated, hvalue, if_pos rfl]

/-- Hyphenating adds hyphens only. -/
theorem mem_hyphenate {s : Str} {c : Char} (h : c ∈ hyphenate s) : c = '-' ∨ c ∈ s := by
  simp only [hyphenate, List.mem_append, List.mem_cons] at h
  rcases h with (((h | h | h) | h | h) | h | h) | h | h
  all_goals first
    | exact .inl h
    | exact .inr (List.mem_of_mem_take h)
    | exact .inr (List.mem_of_mem_drop (List.mem_of_mem_take h))
    | exact .inr (List.mem_of_mem_drop h)

/-- The text of an identifier is made of hexadecimal digits and hyphens. -/
theorem hyphenated_chars (id : Uuid) (c : Char) (h : c ∈ hyphenated id) :
    isHexDigit c = true ∨ c = '-' := by
  cases mem_hyphenate h with
  | inl hc => exact .inr hc
  | inr hc => exact .inl (isHexDigit_of_mem_hexDigits hc)

/-! ## bytes -/

/-- The UTF-8 encoding of a text. -/
def utf8Bytes (s : Str) : List UInt8 := s.flatMap String.utf8EncodeChar

theorem utf8Bytes_injective : Function.Injective utf8Bytes := by
  intro s t h
  have hbytes : (String.ofList s).toByteArray = (String.ofList t).toByteArray := by
    rw [String.toByteArray_ofList, String.toByteArray_ofList, List.utf8Encode, List.utf8Encode]
    exact congrArg List.toByteArray h
  have hstring := String.toByteArray_inj.mp hbytes
  simpa using congrArg String.toList hstring

def hexEncodeBytes (bytes : List UInt8) : Str := bytes.flatMap fun b => hexDigits 2 b.toNat

theorem hexEncodeBytes_injective : Function.Injective hexEncodeBytes := by
  intro a
  induction a with
  | nil =>
      intro b h
      cases b with
      | nil => rfl
      | cons y b =>
          have hlen := congrArg List.length h
          simp [hexEncodeBytes, length_hexDigits] at hlen
          omega
  | cons x a ih =>
      intro b h
      cases b with
      | nil =>
          have hlen := congrArg List.length h
          simp [hexEncodeBytes, length_hexDigits] at hlen
      | cons y b =>
          rw [hexEncodeBytes, hexEncodeBytes, List.flatMap_cons, List.flatMap_cons] at h
          have hsize : (hexDigits 2 x.toNat).length = (hexDigits 2 y.toNat).length := by
            rw [length_hexDigits, length_hexDigits]
          obtain ⟨hhead, htail⟩ := List.append_inj h hsize
          have hxy : x.toNat = y.toNat := by
            rw [← hexNumber_hexDigits (k := 2) (Nat.lt_of_lt_of_le x.toNat_lt (by decide)), hhead,
              hexNumber_hexDigits (Nat.lt_of_lt_of_le y.toNat_lt (by decide))]
          rw [UInt8.toNat_inj.mp hxy, ih htail]

/-! ## digests -/

/-- A digest of thirty-two bytes. -/
def digestBytes (n : Nat) : List UInt8 :=
  (List.range 32).map fun i => UInt8.ofNat (n / 256 ^ (31 - i))

/-- A posting in a document, with the last digits of its account. -/
def recordedPosting (account amount : String) : String :=
  "\x7b\"account_id\":\"00000000-0000-0000-0000-000000000" ++ account ++ "\",\"amount\":\"" ++
    amount ++ "\"\x7d"

/-- A document without its first field. -/
def recordedDocument (postings reference eventAt metadata original : String) : String :=
  "\"postings\":[" ++ postings ++ "],\"reference\":" ++ reference ++ ",\"event_at\":" ++ eventAt ++
    ",\"metadata\":" ++ metadata ++ ",\"reverses_transaction_id\":" ++ original ++ "\x7d"

/-- The transfer of the legacy fixture. -/
def fixtureDocument : String :=
  recordedDocument (recordedPosting "101" "-25 USD" ++ "," ++ recordedPosting "102" "25 USD")
    "\"legacy-fixture\"" "631152000000000" "\x7b\"fixture\":\"legacy-v0\"\x7d" "null"

/-- Its reversal. -/
def reversalDocument : String :=
  recordedDocument (recordedPosting "101" "25 USD" ++ "," ++ recordedPosting "102" "-25 USD")
    "\"reversal:00000000-0000-0000-0000-000000000201\"" "null"
    "\x7b\"reverses_transaction_id\":\"00000000-0000-0000-0000-000000000201\"\x7d"
    "\"00000000-0000-0000-0000-000000000201\""

/-- A transfer of yen with nothing but its postings. -/
def yenDocument : String :=
  recordedDocument (recordedPosting "101" "-25 JPY" ++ "," ++ recordedPosting "102" "25 JPY")
    "null" "null" "null" "null"

/-- A posting with two lines on one account. -/
def twoLinesDocument : String :=
  recordedDocument (recordedPosting "101" "-0.3 USD" ++ "," ++ recordedPosting "102" "0.1 USD" ++
    "," ++ recordedPosting "102" "0.2 USD") "null" "null" "null" "null"

/-- A transfer of one cent, back from the destination of the fixture. -/
def centDocument : String :=
  recordedDocument (recordedPosting "101" "0.01 USD" ++ "," ++ recordedPosting "102" "-0.01 USD")
    "null" "null" "null" "null"

/-- The documents with their SHA-256 values, without and with a version. -/
def recordedDocuments : List (String × Nat × Nat) :=
  [(fixtureDocument, 0xf90f6f74ba4d2e983285031bcd0d107addd726e126a91c1a1b775498d65c91d2,
      0x828042838f675dd0ba0885ef50a73a1f1e0f1bb7eb542e4fbd4105bf6f94d25b),
    (reversalDocument, 0x712b2627401e22b0ae36fe37534e9fa80537d91f2cb6ced3ca9e67eaa2597df1,
      0x3fcc4f9281ba1a27fff4ee8f049f654a0204ea474452293ccd8d34f65651036d),
    (yenDocument, 0x8ecdf48223bd97bd81b6ca312cdee78ca4c03dcb20605accc73eeaef8e341265,
      0xdf7df4ffb59abd2214f5fa32bdaf7fdda6be8abcade62f3236b407c301d46e5b),
    (twoLinesDocument, 0x168f5b0dfd07b82235b607551b1e0c0fb3892f62ab8004ec85e21b923d6d962f,
      0x588dd68f70962909da7daf2cdb1b3f7b9c84b054aee8f1321c199dbff36c51cf),
    (centDocument, 0x42d2e7b8df09a04ace1ad581ac8cbb77f9cff751733fd1589b1c14a0d30d1955,
      0xe18ee91d8a296fd6600a9da402f31a7f8b19df4b29f46d01ace54b2aaeaac278)]

/-- What is hashed for each document, and the digest. -/
def recordedDigests : List (List UInt8 × List UInt8) :=
  recordedDocuments.flatMap fun e =>
    [(utf8Bytes ("\x7b" ++ e.1).toList, digestBytes e.2.1),
      (utf8Bytes ("\x7b\"version\":1," ++ e.1).toList, digestBytes e.2.2)]

/-- A digest has thirty-two bytes. -/
theorem length_digestBytes (n : Nat) : (digestBytes n).length = 32 := by
  rw [digestBytes, List.length_map, List.length_range]

/-- The recorded digests differ from each other, in the first byte already. -/
theorem nodup_recordedDigests : (recordedDigests.map Prod.snd).Nodup := by
  have hfirst : ((recordedDigests.map Prod.snd).map List.head?).Nodup := by decide
  exact hfirst.of_map

/-- The recorded digests have the length of a digest. -/
theorem length_of_mem_recordedDigests {e : List UInt8 × List UInt8} (he : e ∈ recordedDigests) :
    e.2.length = 32 := by
  obtain ⟨document, -, hmem⟩ := List.mem_flatMap.mp he
  rcases List.mem_pair.mp hmem with rfl | rfl
  · exact length_digestBytes _
  · exact length_digestBytes _

/-- The digest that a table records, and a padded copy of an input that it does
not record. -/
def tableDigest (table : List (List UInt8 × List UInt8)) (input : List UInt8) : List UInt8 :=
  match table.find? fun e => e.1 = input with
  | some e => e.2
  | none => List.replicate 33 0 ++ input

section
variable {table : List (List UInt8 × List UInt8)}

/-- What the digest of an input looks like. -/
theorem tableDigest_cases (input : List UInt8) :
    (∃ e ∈ table, e.1 = input ∧ tableDigest table input = e.2) ∨
      tableDigest table input = List.replicate 33 0 ++ input := by
  unfold tableDigest
  split
  · next e he =>
    exact .inl ⟨e, List.mem_of_find?_eq_some he, by simpa using List.find?_some he, rfl⟩
  · exact .inr rfl

/-- A digest of the right length is too short to be a padded input. -/
theorem ne_padded {digest : List UInt8} (h : digest.length = 32) (input : List UInt8) :
    digest ≠ List.replicate 33 0 ++ input := by
  rintro rfl
  rw [List.length_append, List.length_replicate] at h
  omega

/-- With different digests in the table there are no collisions. -/
theorem tableDigest_injective (hnodup : (table.map Prod.snd).Nodup)
    (hlength : ∀ e ∈ table, e.2.length = 32) : Function.Injective (tableDigest table) := by
  intro a b h
  rcases tableDigest_cases a with ⟨e, he, rfl, hda⟩ | hda
  · rcases tableDigest_cases b with ⟨f, hf, rfl, hdb⟩ | hdb
    · rw [hda, hdb] at h
      rw [List.inj_on_of_nodup_map hnodup he hf h]
    · rw [hda, hdb] at h
      exact absurd h (ne_padded (hlength e he) b)
  · rcases tableDigest_cases b with ⟨f, hf, rfl, hdb⟩ | hdb
    · rw [hda, hdb] at h
      exact absurd h.symm (ne_padded (hlength f hf) a)
    · rw [hda, hdb] at h
      exact List.append_cancel_left h

end

/-! ## the crates -/

def concrete : Crates where
  uuidToString := hyphenated
  uuidParseStr := parseHyphenated
  pgUuidToString := hyphenated
  toVec v := .ok (utf8Bytes v.text)
  sha256 := tableDigest recordedDigests
  hexEncode := hexEncodeBytes

theorem hyphenated_injective : Function.Injective hyphenated := by
  intro a b h
  have ha := parseHyphenated_hyphenated a
  rw [h, parseHyphenated_hyphenated b, Option.some.injEq] at ha
  exact ha.symm

/-- The text of identifiers is as the crates promise. -/
theorem concrete_uuidText : concrete.UuidText := by
  constructor
  · intro id
    simp only [concrete]
    exact parseHyphenated_hyphenated id
  · exact hyphenated_chars
  · exact hyphenated_injective

/-- The digests are as the crates promise: no two documents share one. -/
theorem concrete_digests : concrete.Digests where
  toVec_ok v := ⟨utf8Bytes v.text, rfl⟩
  toVec_injective v w h := by
    have hbytes : utf8Bytes v.text = utf8Bytes w.text := Except.ok.inj h
    exact Json.text_injective (utf8Bytes_injective hbytes)
  sha256_injective := by
    simp only [concrete]
    exact tableDigest_injective nodup_recordedDigests fun _ => length_of_mem_recordedDigests
  hexEncode_injective := hexEncodeBytes_injective
  hexEncode_chars bytes c h := by
    have hmem : c ∈ hexEncodeBytes bytes := h
    obtain ⟨b, -, hc⟩ := List.mem_flatMap.mp hmem
    exact isHexDigit_of_mem_hexDigits hc

end Crates

end PgLedger
