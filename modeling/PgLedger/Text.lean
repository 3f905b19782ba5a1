import Mathlib.Algebra.Order.Ring.Int
import Mathlib.Data.List.Basic
import Mathlib.Tactic.Common

/-!
# PgLedger.Text

Text plumbing: a string slice is the list of its characters, and the
splitting, trimming and number-reading operations of the standard library
are list functions.

The lemmas say what each operation does to text that was just printed: a
separator that the printed part cannot contain is found again, padding is
not there to be trimmed, and a decimal reads back.  Nothing here knows what
the text is about.
-/

namespace PgLedger

/-- Text, character by character. -/
abbrev Str := List Char

/-! ## size -/

/-- `str::len`: the number of bytes of the UTF-8 encoding. -/
def utf8Len (s : Str) : Nat := (s.map Char.utf8Size).sum

@[simp] theorem utf8Len_nil : utf8Len [] = 0 := rfl

@[simp] theorem utf8Len_cons (c : Char) (s : Str) : utf8Len (c :: s) = c.utf8Size + utf8Len s := by
  simp [utf8Len]

/-- The sizes of two texts add up. -/
@[simp] theorem utf8Len_append (s t : Str) : utf8Len (s ++ t) = utf8Len s + utf8Len t := by
  simp [utf8Len]

/-- One byte a character, for the characters every identifier is made of. -/
def Ascii (s : Str) : Prop := ∀ c ∈ s, c.toNat < 128

/-- ASCII characters take one byte. -/
theorem utf8Size_eq_one {c : Char} (h : c.toNat < 128) : c.utf8Size = 1 := by
  rw [Char.utf8Size_eq_one_iff, UInt32.le_iff_toNat_le]
  show c.toNat ≤ 127
  omega

/-- ASCII text has as many bytes as characters. -/
theorem utf8Len_eq_length {s : Str} (h : Ascii s) : utf8Len s = s.length := by
  induction s with
  | nil => rfl
  | cons c s ih =>
      rw [utf8Len_cons, utf8Size_eq_one (h c List.mem_cons_self),
        ih fun d hd => h d (List.mem_cons_of_mem c hd), List.length_cons, Nat.add_comm]

/-- A fact about every ASCII character is checked on the 128 of them. -/
theorem ascii_induction {P : Char → Prop} (h : ∀ n < 128, P (Char.ofNat n)) {c : Char}
    (hc : c.toNat < 128) : P c := by
  have hp := h c.toNat hc
  rwa [Char.ofNat_toNat] at hp

/-! ## ASCII case folding -/

/-- `str::to_ascii_uppercase`. -/
def asciiUppercase (s : Str) : Str := s.map Char.toUpper

/-- `str::to_ascii_lowercase`. -/
def asciiLowercase (s : Str) : Str := s.map Char.toLower

/-- Upper case is upper case already. -/
theorem asciiUppercase_idem {s : Str} (h : Ascii s) :
    asciiUppercase (asciiUppercase s) = asciiUppercase s := by
  rw [asciiUppercase, asciiUppercase, List.map_map]
  exact List.map_congr_left fun c hc =>
    ascii_induction (P := fun c => (Char.toUpper ∘ Char.toUpper) c = c.toUpper) (by decide) (h c hc)

/-- Lower case is lower case already. -/
theorem asciiLowercase_idem {s : Str} (h : Ascii s) :
    asciiLowercase (asciiLowercase s) = asciiLowercase s := by
  rw [asciiLowercase, asciiLowercase, List.map_map]
  exact List.map_congr_left fun c hc =>
    ascii_induction (P := fun c => (Char.toLower ∘ Char.toLower) c = c.toLower) (by decide) (h c hc)

/-- Folding the case of ASCII text keeps its size. -/
theorem utf8Len_asciiUppercase {s : Str} (h : Ascii s) :
    utf8Len (asciiUppercase s) = utf8Len s := by
  have hup : Ascii (asciiUppercase s) := by
    intro c hc
    obtain ⟨d, hd, rfl⟩ := List.mem_map.mp hc
    exact ascii_induction (P := fun c => c.toUpper.toNat < 128) (by decide) (h d hd)
  rw [utf8Len_eq_length hup, utf8Len_eq_length h, asciiUppercase, List.length_map]

/-- Changing the case of an ASCII text keeps its size. -/
theorem utf8Len_asciiLowercase {s : Str} (h : Ascii s) :
    utf8Len (asciiLowercase s) = utf8Len s := by
  have hlow : Ascii (asciiLowercase s) := by
    intro c hc
    obtain ⟨d, hd, rfl⟩ := List.mem_map.mp hc
    exact ascii_induction (P := fun c => c.toLower.toNat < 128) (by decide) (h d hd)
  rw [utf8Len_eq_length hlow, utf8Len_eq_length h, asciiLowercase, List.length_map]

/-! ## splitting once -/

/-- `str::split_once`: what stands before and after the first `c`. -/
def splitOnce (c : Char) : Str → Option (Str × Str)
  | [] => none
  | d :: s => if d = c then some ([], s) else (splitOnce c s).map fun (a, b) => (d :: a, b)

/-- `str::rsplit_once`: what stands before and after the last `c`. -/
def rsplitOnce (c : Char) (s : Str) : Option (Str × Str) :=
  (splitOnce c s.reverse).map fun (a, b) => (b.reverse, a.reverse)

/-- A text is split at the first separator. -/
theorem splitOnce_append {c : Char} {a : Str} (h : c ∉ a) (b : Str) :
    splitOnce c (a ++ c :: b) = some (a, b) := by
  induction a with
  | nil => simp [splitOnce]
  | cons d a ih =>
      rw [List.mem_cons, not_or] at h
      rw [List.cons_append, splitOnce, if_neg (Ne.symm h.1), ih h.2]
      rfl

/-- Without the separator there is no split. -/
theorem splitOnce_eq_none {c : Char} {s : Str} (h : c ∉ s) : splitOnce c s = none := by
  induction s with
  | nil => rfl
  | cons d s ih =>
      rw [List.mem_cons, not_or] at h
      rw [splitOnce, if_neg (Ne.symm h.1), ih h.2]
      rfl

/-- A text is split at the last separator. -/
theorem rsplitOnce_append {c : Char} (a : Str) {b : Str} (h : c ∉ b) :
    rsplitOnce c (a ++ c :: b) = some (a, b) := by
  have hrev : (a ++ c :: b).reverse = b.reverse ++ c :: a.reverse := by simp
  rw [rsplitOnce, hrev, splitOnce_append (by simpa using h)]
  simp

/-- Without the separator there is no split. -/
theorem rsplitOnce_eq_none {c : Char} {s : Str} (h : c ∉ s) : rsplitOnce c s = none := by
  rw [rsplitOnce, splitOnce_eq_none (by simpa using h)]
  rfl

/-! ## white space -/

/-- `char::is_whitespace`: the Unicode property `White_Space`. -/
def isWhitespace (c : Char) : Bool :=
  (0x9 ≤ c.toNat && c.toNat ≤ 0xd) || c.toNat ∈ [0x20, 0x85, 0xa0, 0x1680] ||
    (0x2000 ≤ c.toNat && c.toNat ≤ 0x200a) || c.toNat ∈ [0x2028, 0x2029, 0x202f, 0x205f, 0x3000]

/-- `u8::is_ascii_whitespace`: space, tab, line feed, form feed, carriage return. -/
def isAsciiWhitespace (c : Char) : Bool := c.toNat ∈ [0x20, 0x9, 0xa, 0xc, 0xd]

/-- `str::trim`. -/
def trim (s : Str) : Str :=
  ((s.dropWhile isWhitespace).reverse.dropWhile isWhitespace).reverse

/-- `str::split_ascii_whitespace`: the maximal runs without white space. -/
def splitAsciiWhitespace (s : Str) : List Str :=
  (s.splitOnP isAsciiWhitespace).filter (· ≠ [])

/-- Nothing is dropped where nothing matches. -/
theorem dropWhile_eq_self {p : Char → Bool} {s : Str} (h : ∀ c ∈ s, p c = false) :
    s.dropWhile p = s := by
  cases s with
  | nil => rfl
  | cons c s => rw [List.dropWhile_cons_of_neg (by simp [h c List.mem_cons_self])]

/-- There is nothing to trim where no character is white space. -/
theorem trim_eq_self {s : Str} (h : ∀ c ∈ s, isWhitespace c = false) : trim s = s := by
  rw [trim, dropWhile_eq_self h, dropWhile_eq_self (fun c hc => h c (List.mem_reverse.mp hc)),
    List.reverse_reverse]

/-- Two words with one space between them split into the two words. -/
theorem splitAsciiWhitespace_append {a b : Str} (ha : ∀ c ∈ a, isAsciiWhitespace c = false)
    (hb : ∀ c ∈ b, isAsciiWhitespace c = false) (hane : a ≠ []) (hbne : b ≠ []) :
    splitAsciiWhitespace (a ++ ' ' :: b) = [a, b] := by
  rw [splitAsciiWhitespace, List.splitOnP_append_cons_of_forall_mem ha ' ' (by decide),
    List.splitOnP_eq_singleton hb]
  simp [hane, hbne]

/-! ## numbers -/

/-- The decimal digits of a natural number, as every integer printer writes them. -/
abbrev natText (n : Nat) : Str := Nat.toDigits 10 n

/-- An integer in decimal, with a minus sign when it is negative. -/
def intText (i : Int) : Str := if i < 0 then '-' :: natText i.natAbs else natText i.natAbs

/-- `u8::from_str`: an optional plus sign, then digits with a value up to 255. -/
def parseU8 (s : Str) : Option UInt8 :=
  let digits := (['+'].isPrefixOf? s).getD s
  if digits ≠ [] ∧ digits.all Char.isDigit ∧ Nat.ofDigitChars 10 digits 0 < 256 then
    some (UInt8.ofNat (Nat.ofDigitChars 10 digits 0))
  else none

/-- The decimal text of a number is made of digits. -/
theorem natText_isDigit {n : Nat} {c : Char} (h : c ∈ natText n) : c.isDigit = true :=
  Nat.isDigit_of_mem_toDigits (by decide) (by decide) h

/-- The decimal text of a number is not empty. -/
theorem natText_ne_nil (n : Nat) : natText n ≠ [] := Nat.toDigits_ne_nil

/-- The decimal text determines the number. -/
theorem natText_injective : Function.Injective natText := by
  intro m n h
  have h' := congrArg (Nat.ofDigitChars 10 · 0) h
  simpa [Nat.ofDigitChars_ten_toDigits] using h'

/-- The decimal text of a number starts with a digit. -/
theorem head_natText_ne {n : Nat} {c : Char} (hc : c.isDigit = false) (s : Str) :
    natText n ≠ c :: s := by
  intro h
  have := natText_isDigit (n := n) (c := c) (by rw [h]; exact List.mem_cons_self)
  rw [hc] at this
  contradiction

/-- The decimal text determines the integer. -/
theorem intText_injective : Function.Injective intText := by
  intro i j h
  simp only [intText] at h
  split at h <;> split at h
  · have := natText_injective (List.cons.inj h).2
    omega
  · exact absurd h.symm (head_natText_ne (by decide) _)
  · exact absurd h (head_natText_ne (by decide) _)
  · have := natText_injective h
    omega

/-- A prefix that was found stands in front of the rest. -/
theorem eq_append_of_isPrefixOf? {p s t : Str} (h : p.isPrefixOf? s = some t) : s = p ++ t := by
  induction p generalizing s with
  | nil => exact Option.some.inj h
  | cons c p ih =>
      cases s with
      | nil => simp [List.isPrefixOf?] at h
      | cons d s =>
          by_cases hd : c = d
          · subst hd
            rw [List.isPrefixOf?, if_pos (beq_self_eq_true c)] at h
            rw [ih h, List.cons_append]
          · simp [List.isPrefixOf?, hd] at h

/-- A text that starts otherwise has no such prefix. -/
theorem isPrefixOf?_singleton_eq_none {c : Char} {s : Str} (h : ∀ t, s ≠ c :: t) :
    [c].isPrefixOf? s = none := by
  cases s with
  | nil => rfl
  | cons d s =>
      have hd : c ≠ d := fun hcd => h s (by rw [hcd])
      simp [List.isPrefixOf?, hd]

/-- A printed byte reads back. -/
theorem parseU8_natText (n : UInt8) : parseU8 (natText n.toNat) = some n := by
  have hplus : ['+'].isPrefixOf? (natText n.toNat) = none :=
    isPrefixOf?_singleton_eq_none (head_natText_ne (by decide))
  have hdigits : (natText n.toNat).all Char.isDigit = true :=
    List.all_eq_true.mpr fun c hc => natText_isDigit hc
  have hvalue : Nat.ofDigitChars 10 (natText n.toNat) 0 = n.toNat := Nat.ofDigitChars_ten_toDigits
  rw [parseU8, hplus, Option.getD_none, hvalue,
    if_pos ⟨natText_ne_nil _, hdigits, n.toNat_lt⟩, UInt8.ofNat_toNat]

end PgLedger
