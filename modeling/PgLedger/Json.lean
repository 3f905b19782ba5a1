import PgLedger.Text

/-!
# PgLedger.Json

JSON values and their compact text, as `serde_json` writes it: no blanks,
fields in the order given, the short escapes where JSON has one and `\u00xx`
for the other control characters.  They are the values that a `jsonb` argument
has been decoded to, so a number is one that the decoder has made (`u64`, `i64`
or `f64`), by the text it is written with.

The text of a value determines the value (`Json.text_injective`).  The proof
is the usual one for a prefix code: two values whose texts, followed by
anything that cannot continue a number, make the same string are equal, and
so is what follows.
-/

namespace PgLedger

/-! ## values -/

/-- The characters of a JSON number. -/
def numberChar (c : Char) : Bool := c.isDigit || c ∈ ['-', '+', '.', 'e', 'E']

/-- A JSON number of a decoded value, by the text it is written with. -/
structure JsonNumber where
  text : Str
  nonempty : text ≠ []
  chars : ∀ c ∈ text, numberChar c = true
deriving DecidableEq

inductive Json where
  | null
  | bool (b : Bool)
  | number (n : JsonNumber)
  | string (s : Str)
  | array (elems : List Json)
  | object (fields : List (Str × Json))

/-- A 64-bit integer as a JSON number. -/
def JsonNumber.ofInt (i : Int) : JsonNumber where
  text := intText i
  nonempty := by
    unfold intText
    split
    · exact List.cons_ne_nil _ _
    · exact natText_ne_nil _
  chars := by
    intro c hc
    simp only [intText] at hc
    split at hc
    · rcases List.mem_cons.mp hc with rfl | hc
      · rfl
      · simp [numberChar, natText_isDigit hc]
    · simp [numberChar, natText_isDigit hc]

/-- The number determines the integer. -/
theorem JsonNumber.ofInt_injective : Function.Injective JsonNumber.ofInt := fun _ _ h =>
  intText_injective (congrArg JsonNumber.text h)

/-! ## text -/

def hexDigit (n : Nat) : Char := if n < 10 then Char.ofNat (48 + n) else Char.ofNat (87 + n)

def escapeChar (c : Char) : Str :=
  if c = '"' then ['\\', '"']
  else if c = '\\' then ['\\', '\\']
  else if c.toNat = 0x8 then ['\\', 'b']
  else if c.toNat = 0xc then ['\\', 'f']
  else if c = '\n' then ['\\', 'n']
  else if c = '\r' then ['\\', 'r']
  else if c = '\t' then ['\\', 't']
  else if c.toNat < 0x20 then
    ['\\', 'u', '0', '0', hexDigit (c.toNat / 16), hexDigit (c.toNat % 16)]
  else [c]

/-- The body of a string, up to and including the closing quote. -/
def stringRest : Str → Str
  | [] => ['"']
  | c :: s => escapeChar c ++ stringRest s

mutual
def Json.text : Json → Str
  | .null => "null".toList
  | .bool true => "true".toList
  | .bool false => "false".toList
  | .number n => n.text
  | .string s => '"' :: stringRest s
  | .array [] => "[]".toList
  | .array (v :: vs) => '[' :: (v.text ++ Json.elemsRest vs)
  | .object [] => "{}".toList
  | .object (f :: fs) => '{' :: (Json.fieldText f ++ Json.fieldsRest fs)

def Json.fieldText : Str × Json → Str
  | (k, v) => '"' :: (stringRest k ++ ':' :: v.text)

/-- The elements after the first, up to and including the bracket. -/
def Json.elemsRest : List Json → Str
  | [] => [']']
  | v :: vs => ',' :: (v.text ++ Json.elemsRest vs)

/-- The fields after the first, up to and including the brace. -/
def Json.fieldsRest : List (Str × Json) → Str
  | [] => ['}']
  | f :: fs => ',' :: (Json.fieldText f ++ Json.fieldsRest fs)
end

/-! ## strings -/

def hexValue (c : Char) : Nat := if c.isDigit then c.toNat - 48 else c.toNat - 87

/-- Take one character of a string body off the front of a text. -/
def unescape : Str → Option (Char × Str)
  | '\\' :: '"' :: r => some ('"', r)
  | '\\' :: '\\' :: r => some ('\\', r)
  | '\\' :: 'b' :: r => some (Char.ofNat 0x8, r)
  | '\\' :: 'f' :: r => some (Char.ofNat 0xc, r)
  | '\\' :: 'n' :: r => some ('\n', r)
  | '\\' :: 'r' :: r => some ('\r', r)
  | '\\' :: 't' :: r => some ('\t', r)
  | '\\' :: 'u' :: '0' :: '0' :: h :: l :: r => some (Char.ofNat (16 * hexValue h + hexValue l), r)
  | c :: r => some (c, r)
  | [] => none

/-- Every hexadecimal digit is read as what it was written for. -/
theorem hexValue_hexDigit : ∀ n < 16, hexValue (hexDigit n) = n := by decide

/-- An escaped character is taken off again. -/
theorem unescape_escapeChar (c : Char) (r : Str) : unescape (escapeChar c ++ r) = some (c, r) := by
  unfold escapeChar
  split
  · next h => subst h; rfl
  split
  · next h => subst h; rfl
  split
  · next h =>
    have hc : Char.ofNat 0x8 = c := by rw [← h, Char.ofNat_toNat]
    rw [List.cons_append, List.cons_append, unescape, hc]
    rfl
  split
  · next h =>
    have hc : Char.ofNat 0xc = c := by rw [← h, Char.ofNat_toNat]
    rw [List.cons_append, List.cons_append, unescape, hc]
    rfl
  split
  · next h => subst h; rfl
  split
  · next h => subst h; rfl
  split
  · next h => subst h; rfl
  split
  · next h =>
    have hhigh := hexValue_hexDigit (c.toNat / 16) (by omega)
    have hlow := hexValue_hexDigit (c.toNat % 16) (by omega)
    have hc : Char.ofNat (16 * (c.toNat / 16) + c.toNat % 16) = c := by
      rw [Nat.div_add_mod, Char.ofNat_toNat]
    simp [unescape, hhigh, hlow, hc]
  · next hquote hslash _ _ _ _ _ _ =>
    rw [List.singleton_append, unescape.eq_def]
    split <;> simp_all

/-- No character of a string is written as a plain quotation mark. -/
theorem escapeChar_ne_quote (c : Char) (r r' : Str) : escapeChar c ++ r ≠ '"' :: r' := by
  intro h
  have hc := unescape_escapeChar c r
  rw [h, unescape] at hc
  · obtain ⟨rfl, -⟩ := Prod.mk.inj (Option.some.inj hc)
    simp [escapeChar] at h
  all_goals simp

/-- A string and what follows it are told apart by the closing quotation mark. -/
theorem stringRest_append_inj : (s t : Str) → (r r' : Str) →
    stringRest s ++ r = stringRest t ++ r' → s = t ∧ r = r'
  | [], [], r, r', h => by simpa [stringRest] using h
  | [], d :: t, r, r', h => by
      simp only [stringRest, stringRest, List.append_assoc] at h
      exact absurd h.symm (escapeChar_ne_quote d _ r)
  | c :: s, [], r, r', h => by
      simp only [stringRest, stringRest, List.append_assoc] at h
      exact absurd h (escapeChar_ne_quote c _ r')
  | c :: s, d :: t, r, r', h => by
      rw [stringRest, stringRest, List.append_assoc, List.append_assoc] at h
      have hfront := congrArg unescape h
      rw [unescape_escapeChar, unescape_escapeChar] at hfront
      obtain ⟨rfl, hrest⟩ := Prod.mk.inj (Option.some.inj hfront)
      obtain ⟨rfl, rfl⟩ := stringRest_append_inj s t r r' hrest
      exact ⟨rfl, rfl⟩

/-! ## values from their text -/

/-- The text that follows a value does not continue a number. -/
def Ends (r : Str) : Prop := ∀ c, r.head? = some c → numberChar c = false

/-- The first character of the text, with one representative for numbers. -/
def Json.tag : Json → Char
  | .null => 'n'
  | .bool true => 't'
  | .bool false => 'f'
  | .number _ => '0'
  | .string _ => '"'
  | .array _ => '['
  | .object _ => '\x7b'

def tagOf (c : Char) : Char := if numberChar c then '0' else c

/-- The first character of a value tells of what kind it is. -/
theorem Json.text_cons (v : Json) : ∃ c s, v.text = c :: s ∧ tagOf c = v.tag := by
  match v with
  | .null => exact ⟨_, _, rfl, rfl⟩
  | .bool true => exact ⟨_, _, rfl, rfl⟩
  | .bool false => exact ⟨_, _, rfl, rfl⟩
  | .number n =>
      obtain ⟨c, s, htext⟩ := List.exists_cons_of_ne_nil n.nonempty
      have hc : numberChar c = true := n.chars c (by rw [htext]; exact List.mem_cons_self)
      exact ⟨c, s, by rw [Json.text, htext], by rw [tagOf, if_pos hc, Json.tag]⟩
  | .string s => exact ⟨_, _, by rw [Json.text], rfl⟩
  | .array [] => exact ⟨_, _, rfl, rfl⟩
  | .array (v :: vs) => exact ⟨_, _, by rw [Json.text], rfl⟩
  | .object [] => exact ⟨_, _, rfl, rfl⟩
  | .object (f :: fs) => exact ⟨_, _, by rw [Json.text], rfl⟩

/-- Values with the same text have the same shape. -/
theorem Json.tag_eq {v w : Json} {r r' : Str} (h : v.text ++ r = w.text ++ r') : v.tag = w.tag := by
  obtain ⟨c, s, hv, hc⟩ := v.text_cons
  obtain ⟨d, t, hw, hd⟩ := w.text_cons
  rw [hv, hw, List.cons_append, List.cons_append] at h
  rw [← hc, ← hd, (List.cons.inj h).1]

/-- A number and what follows it are told apart, as long as that does not start
like more of the number. -/
theorem JsonNumber.text_append_inj {n m : JsonNumber} {r r' : Str} (hr : Ends r) (hr' : Ends r')
    (h : n.text ++ r = m.text ++ r') : n = m ∧ r = r' := by
  have htake {k : JsonNumber} {s : Str} (hs : Ends s) :
      (k.text ++ s).takeWhile numberChar = k.text := by
    rw [List.takeWhile_append_of_pos k.chars]
    cases s with
    | nil => simp
    | cons c s => rw [List.takeWhile_cons_of_neg (by simp [hs c rfl]), List.append_nil]
  have htext : n.text = m.text := by rw [← htake (k := n) hr, h, htake hr']
  obtain ⟨ntext, _, _⟩ := n
  obtain ⟨mtext, _, _⟩ := m
  obtain rfl : ntext = mtext := htext
  exact ⟨rfl, List.append_cancel_left h⟩

/-- What starts with another character ends a number. -/
theorem ends_cons {c : Char} (hc : numberChar c = false) (r : Str) : Ends (c :: r) := by
  intro d hd
  obtain rfl : c = d := Option.some.inj hd
  exact hc

/-- The rest of an array ends a number. -/
theorem ends_elemsRest (vs : List Json) (r : Str) : Ends (Json.elemsRest vs ++ r) := by
  cases vs with
  | nil => exact ends_cons (by decide) _
  | cons v vs => rw [Json.elemsRest]; exact ends_cons (by decide) _

/-- The rest of an object ends a number. -/
theorem ends_fieldsRest (fs : List (Str × Json)) (r : Str) : Ends (Json.fieldsRest fs ++ r) := by
  cases fs with
  | nil => exact ends_cons (by decide) _
  | cons f fs => rw [Json.fieldsRest]; exact ends_cons (by decide) _

/-- No value starts with a closing bracket. -/
theorem text_ne_bracket (v : Json) (r r' : Str) : v.text ++ r ≠ ']' :: r' := by
  intro h
  obtain ⟨c, s, hv, hc⟩ := v.text_cons
  rw [hv, List.cons_append] at h
  rw [(List.cons.inj h).1] at hc
  match v, hc with
  | .bool true, hc => exact absurd hc (by decide)
  | .bool false, hc => exact absurd hc (by decide)

mutual
/-- A value and what follows it are told apart. -/
theorem Json.text_append_inj : (v w : Json) → (r r' : Str) → Ends r → Ends r' →
    v.text ++ r = w.text ++ r' → v = w ∧ r = r'
  | v, w, r, r', hr, hr', h => by
      have htag := Json.tag_eq h
      match v, w, htag with
      | .null, .null, _ => exact ⟨rfl, List.append_cancel_left h⟩
      | .bool true, .bool true, _ => exact ⟨rfl, List.append_cancel_left h⟩
      | .bool false, .bool false, _ => exact ⟨rfl, List.append_cancel_left h⟩
      | .number n, .number m, _ =>
          obtain ⟨rfl, rfl⟩ := JsonNumber.text_append_inj hr hr' (by simpa [Json.text] using h)
          exact ⟨rfl, rfl⟩
      | .string s, .string t, _ =>
          rw [Json.text, Json.text] at h
          obtain ⟨rfl, rfl⟩ := stringRest_append_inj s t r r' (List.cons.inj h).2
          exact ⟨rfl, rfl⟩
      | .array [], .array [], _ => exact ⟨rfl, List.append_cancel_left h⟩
      | .array [], .array (w :: ws), _ =>
          simp only [Json.text, Json.text, List.cons_append, List.append_assoc] at h
          exact absurd (List.cons.inj h).2.symm (text_ne_bracket w _ r)
      | .array (v :: vs), .array [], _ =>
          simp only [Json.text, Json.text, List.cons_append, List.append_assoc] at h
          exact absurd (List.cons.inj h).2 (text_ne_bracket v _ r')
      | .array (v :: vs), .array (w :: ws), _ =>
          rw [Json.text, Json.text, List.cons_append, List.cons_append, List.append_assoc,
            List.append_assoc] at h
          obtain ⟨rfl, hrest⟩ := Json.text_append_inj v w _ _ (ends_elemsRest vs r)
            (ends_elemsRest ws r') (List.cons.inj h).2
          obtain ⟨rfl, rfl⟩ := Json.elemsRest_append_inj vs ws r r' hrest
          exact ⟨rfl, rfl⟩
      | .object [], .object [], _ => exact ⟨rfl, List.append_cancel_left h⟩
      | .object [], .object ((k, w) :: gs), _ =>
          simp only [Json.text, Json.text, Json.fieldText] at h
          exact absurd (List.cons.inj (List.cons.inj h).2).1 (by decide)
      | .object ((k, v) :: fs), .object [], _ =>
          simp only [Json.text, Json.text, Json.fieldText] at h
          exact absurd (List.cons.inj (List.cons.inj h).2).1 (by decide)
      | .object (f :: fs), .object (g :: gs), _ =>
          rw [Json.text, Json.text, List.cons_append, List.cons_append, List.append_assoc,
            List.append_assoc] at h
          obtain ⟨rfl, hrest⟩ := Json.fieldText_append_inj f g _ _ (ends_fieldsRest fs r)
            (ends_fieldsRest gs r') (List.cons.inj h).2
          obtain ⟨rfl, rfl⟩ := Json.fieldsRest_append_inj fs gs r r' hrest
          exact ⟨rfl, rfl⟩

/-- A field and what follows it are told apart. -/
theorem Json.fieldText_append_inj : (f g : Str × Json) → (r r' : Str) → Ends r → Ends r' →
    Json.fieldText f ++ r = Json.fieldText g ++ r' → f = g ∧ r = r'
  | (k, v), (l, w), r, r', hr, hr', h => by
      rw [Json.fieldText, Json.fieldText, List.cons_append, List.cons_append, List.append_assoc,
        List.append_assoc] at h
      obtain ⟨rfl, hrest⟩ := stringRest_append_inj k l _ _ (List.cons.inj h).2
      obtain ⟨rfl, rfl⟩ := Json.text_append_inj v w r r' hr hr' (List.cons.inj hrest).2
      exact ⟨rfl, rfl⟩

/-- The elements of an array and what follows it are told apart. -/
theorem Json.elemsRest_append_inj : (vs ws : List Json) → (r r' : Str) →
    Json.elemsRest vs ++ r = Json.elemsRest ws ++ r' → vs = ws ∧ r = r'
  | [], [], r, r', h => by simpa [Json.elemsRest] using h
  | [], w :: ws, r, r', h => by
      simp only [Json.elemsRest, Json.elemsRest] at h
      exact absurd (List.cons.inj h).1 (by decide)
  | v :: vs, [], r, r', h => by
      simp only [Json.elemsRest, Json.elemsRest] at h
      exact absurd (List.cons.inj h).1 (by decide)
  | v :: vs, w :: ws, r, r', h => by
      rw [Json.elemsRest, Json.elemsRest, List.cons_append, List.cons_append, List.append_assoc,
        List.append_assoc] at h
      obtain ⟨rfl, hrest⟩ := Json.text_append_inj v w _ _ (ends_elemsRest vs r)
        (ends_elemsRest ws r') (List.cons.inj h).2
      obtain ⟨rfl, rfl⟩ := Json.elemsRest_append_inj vs ws r r' hrest
      exact ⟨rfl, rfl⟩

/-- The fields of an object and what follows it are told apart. -/
theorem Json.fieldsRest_append_inj : (fs gs : List (Str × Json)) → (r r' : Str) →
    Json.fieldsRest fs ++ r = Json.fieldsRest gs ++ r' → fs = gs ∧ r = r'
  | [], [], r, r', h => by simpa [Json.fieldsRest] using h
  | [], g :: gs, r, r', h => by
      simp only [Json.fieldsRest, Json.fieldsRest] at h
      exact absurd (List.cons.inj h).1 (by decide)
  | f :: fs, [], r, r', h => by
      simp only [Json.fieldsRest, Json.fieldsRest] at h
      exact absurd (List.cons.inj h).1 (by decide)
  | f :: fs, g :: gs, r, r', h => by
      rw [Json.fieldsRest, Json.fieldsRest, List.cons_append, List.cons_append,
        List.append_assoc, List.append_assoc] at h
      obtain ⟨rfl, hrest⟩ := Json.fieldText_append_inj f g _ _ (ends_fieldsRest fs r)
        (ends_fieldsRest gs r') (List.cons.inj h).2
      obtain ⟨rfl, rfl⟩ := Json.fieldsRest_append_inj fs gs r r' hrest
      exact ⟨rfl, rfl⟩
end

/-- **Injectivity**: two values with the same text are the same value. -/
theorem Json.text_injective : Function.Injective Json.text := by
  intro v w h
  have hends : Ends [] := fun c hc => by simp at hc
  exact (Json.text_append_inj v w [] [] hends hends (congrArg (· ++ []) h)).1

instance : DecidableEq Json := fun v w =>
  decidable_of_iff (v.text = w.text) Json.text_injective.eq_iff

end PgLedger
