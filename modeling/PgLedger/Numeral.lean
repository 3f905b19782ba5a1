import Mathlib.Algebra.Order.Field.Rat
import Mathlib.Data.List.DropRight
import Mathlib.Tactic.FieldSimp
import Mathlib.Tactic.Positivity
import Mathlib.Tactic.Ring
import PgLedger.Text

/-!
# PgLedger.Numeral

Plain decimal numerals: an optional sign, digits, and optionally a point with
digits behind it.  A numeral has a text and denotes a rational number.

A number has many numerals.  The canonical one among them has no plus sign
and a minus sign only in front of a negative number, no superfluous zero at
either end and no point without digits behind it; it is shorter than every
other numeral of the same number (`Numeral.Canonical.shortest`).
-/

namespace PgLedger

/-! ## digit strings -/

/-- Text that consists of digits. -/
def Digits (s : Str) : Prop := ∀ c ∈ s, c.isDigit = true

/-- Zero is a digit. -/
theorem digits_zero : Digits ['0'] := by
  intro c hc
  rw [List.mem_singleton.mp hc]
  decide

/-- The decimal text of a number is made of digits. -/
theorem digits_natText (n : Nat) : Digits (natText n) := fun _ h => natText_isDigit h

/-- Digits followed by digits. -/
theorem digits_append {s t : Str} (hs : Digits s) (ht : Digits t) : Digits (s ++ t) := by
  intro c hc
  cases List.mem_append.mp hc with
  | inl hc => exact hs c hc
  | inr hc => exact ht c hc

/-- Any number of zeros. -/
theorem digits_replicate_zero (n : Nat) : Digits (List.replicate n '0') := by
  intro c hc
  rw [List.eq_of_mem_replicate hc]
  decide

/-- Nothing but digits is in a digit string. -/
theorem not_mem_digits {s : Str} (hs : Digits s) {c : Char} (hc : c.isDigit = false) : c ∉ s := by
  intro hmem
  simp only [hs c hmem] at hc
  contradiction

/-- A digit string starts with nothing but a digit. -/
theorem head?_digits_ne {s : Str} (hs : Digits s) {c : Char} (hc : c.isDigit = false) :
    s.head? ≠ some c := by
  intro h
  exact not_mem_digits hs hc (List.mem_of_head? h)

/-- The value of a digit string. -/
abbrev digitsValue (s : Str) : Nat := Nat.ofDigitChars 10 s 0

/-- Appending digits shifts the value and adds theirs. -/
theorem digitsValue_append (s t : Str) :
    digitsValue (s ++ t) = digitsValue s * 10 ^ t.length + digitsValue t := by
  rw [digitsValue, Nat.ofDigitChars_append, Nat.ofDigitChars_eq_ofDigitChars_zero, Nat.mul_comm]

/-- The first digit counts by the number of those behind it. -/
theorem digitsValue_cons (c : Char) (s : Str) :
    digitsValue (c :: s) = (c.toNat - 48) * 10 ^ s.length + digitsValue s := by
  rw [digitsValue, Nat.ofDigitChars_cons, Nat.ofDigitChars_eq_ofDigitChars_zero, Nat.mul_comm]
  simp

/-- Appending zeros multiplies by a power of ten. -/
theorem digitsValue_append_zeros (s : Str) (n : Nat) :
    digitsValue (s ++ List.replicate n '0') = digitsValue s * 10 ^ n := by
  rw [digitsValue, Nat.ofDigitChars_append, Nat.ofDigitChars_replicate_zero, Nat.mul_comm]

/-- The digits are the characters 48 to 57. -/
theorem toNat_of_isDigit {c : Char} (h : c.isDigit = true) : 48 ≤ c.toNat ∧ c.toNat ≤ 57 := by
  simp only [Char.isDigit, Bool.and_eq_true, decide_eq_true_eq, ge_iff_le,
    UInt32.le_iff_toNat_le] at h
  exact h

/-- `n` digits stand for less than `10 ^ n`. -/
theorem digitsValue_lt {s : Str} (hs : Digits s) : digitsValue s < 10 ^ s.length := by
  induction s with
  | nil => decide
  | cons c s ih =>
      have hc := toNat_of_isDigit (hs c List.mem_cons_self)
      have hrest := ih fun d hd => hs d (List.mem_cons_of_mem c hd)
      have hdigit : (c.toNat - 48) * 10 ^ s.length ≤ 9 * 10 ^ s.length :=
        Nat.mul_le_mul_right _ (by omega)
      rw [digitsValue_cons, List.length_cons, Nat.pow_succ]
      omega

/-- Digits behind a digit string can be read off its value. -/
theorem digitsValue_append_inj {s s' t t' : Str} (ht : Digits t) (ht' : Digits t')
    (hlen : t.length = t'.length) (h : digitsValue (s ++ t) = digitsValue (s' ++ t')) :
    digitsValue s = digitsValue s' ∧ digitsValue t = digitsValue t' := by
  have hlt := digitsValue_lt ht
  have hlt' := digitsValue_lt ht'
  rw [digitsValue_append, digitsValue_append, ← hlen] at h
  rw [← hlen] at hlt'
  have hdiv := congrArg (· / 10 ^ t.length) h
  have hmod := congrArg (· % 10 ^ t.length) h
  simp only [Nat.mul_comm _ (10 ^ t.length), Nat.mul_add_div (Nat.pow_pos (by decide : 0 < 10)),
    Nat.div_eq_of_lt hlt, Nat.div_eq_of_lt hlt', Nat.add_zero] at hdiv
  simp only [Nat.mul_comm _ (10 ^ t.length), Nat.mul_add_mod, Nat.mod_eq_of_lt hlt,
    Nat.mod_eq_of_lt hlt'] at hmod
  exact ⟨hdiv, hmod⟩

/-- Digit strings of one length are told apart by their values. -/
theorem digits_eq_of_value {s t : Str} (hs : Digits s) (ht : Digits t)
    (hlen : s.length = t.length) (h : digitsValue s = digitsValue t) : s = t := by
  induction s generalizing t with
  | nil => exact (List.length_eq_zero_iff.mp hlen.symm).symm
  | cons c s ih =>
      cases t with
      | nil => simp at hlen
      | cons d t =>
          have hrest : Digits s := fun e he => hs e (List.mem_cons_of_mem c he)
          have hrest' : Digits t := fun e he => ht e (List.mem_cons_of_mem d he)
          have hlen' : s.length = t.length := Nat.succ.inj hlen
          have hvalue : digitsValue ([c] ++ s) = digitsValue ([d] ++ t) := h
          obtain ⟨hhead, htail⟩ := digitsValue_append_inj hrest hrest' hlen' hvalue
          have hc := toNat_of_isDigit (hs c List.mem_cons_self)
          have hd := toNat_of_isDigit (ht d List.mem_cons_self)
          simp only [digitsValue_cons, List.length_nil, Nat.pow_zero, Nat.mul_one,
            digitsValue, Nat.ofDigitChars_nil, Nat.add_zero] at hhead
          have hcd : c.toNat = d.toNat := by omega
          rw [ih hrest hrest' hlen' htail, ← Char.ofNat_toNat c, hcd, Char.ofNat_toNat]

/-! ### the shortest digit string of a value -/

/-- No digit string of a value is shorter than its decimal text. -/
theorem length_natText_le {s : Str} (hs : Digits s) (hne : s ≠ []) :
    (natText (digitsValue s)).length ≤ s.length :=
  (Nat.length_toDigits_le_iff (by decide) (List.length_pos_iff.mpr hne)).mpr (digitsValue_lt hs)

/-- The decimal of a positive number does not start with a zero: what follows
the zero would be a shorter one. -/
theorem head?_natText_ne_zero {n : Nat} (hn : n ≠ 0) : (natText n).head? ≠ some '0' := by
  intro hhead
  obtain ⟨t, ht⟩ := List.head?_eq_some_iff.mp hhead
  have hvalue : digitsValue t = n := by
    have hn' : digitsValue (natText n) = n := Nat.ofDigitChars_ten_toDigits
    rw [ht, digitsValue_cons] at hn'
    simpa using hn'
  have hdigits : Digits t := fun c hc => natText_isDigit (n := n) (ht ▸ List.mem_cons_of_mem _ hc)
  by_cases hnil : t = []
  · subst hnil
    exact hn hvalue.symm
  · have hlen := length_natText_le hdigits hnil
    rw [hvalue, ht, List.length_cons] at hlen
    omega

/-- A digit string without a superfluous zero in front is the decimal of its
value. -/
theorem natText_digitsValue {s : Str} (hs : Digits s) (hne : s ≠ [])
    (hzero : s = ['0'] ∨ s.head? ≠ some '0') : natText (digitsValue s) = s := by
  cases hzero with
  | inl hzero =>
      subst hzero
      rfl
  | inr hzero =>
      have hvalue : digitsValue (natText (digitsValue s)) = digitsValue s :=
        Nat.ofDigitChars_ten_toDigits
      refine digits_eq_of_value (digits_natText _) hs ?_ hvalue
      refine Nat.le_antisymm (length_natText_le hs hne) ?_
      cases s with
      | nil => exact absurd rfl hne
      | cons c s =>
          have hc := toNat_of_isDigit (hs c List.mem_cons_self)
          have hne0 : c.toNat ≠ 48 := by
            intro h48
            refine hzero ?_
            rw [List.head?_cons, ← Char.ofNat_toNat c, h48]
          cases hlen : s.length with
          | zero =>
              rw [List.length_cons, hlen]
              exact List.length_pos_iff.mpr (natText_ne_nil _)
          | succ n =>
              have hlarge : 10 ^ (n + 1) ≤ digitsValue (c :: s) := by
                rw [digitsValue_cons, hlen]
                have : 1 * 10 ^ (n + 1) ≤ (c.toNat - 48) * 10 ^ (n + 1) :=
                  Nat.mul_le_mul_right _ (by omega)
                omega
              rw [List.length_cons, hlen, Nat.succ_le_iff, ← Nat.not_le]
              intro hshort
              have := (Nat.length_toDigits_le_iff (by decide) (Nat.succ_pos n)).mp hshort
              omega

/-! ## numerals -/

inductive Sign where
  | plus
  | minus
deriving DecidableEq, Repr

def Sign.char : Sign → Char
  | .plus => '+'
  | .minus => '-'

/-- A plain decimal, in the pieces in which it is written. -/
@[ext]
structure Numeral where
  sign : Option Sign
  whole : Str
  fraction : Option Str
  wholeDigits : Digits whole
  wholeNe : whole ≠ []
  fractionDigits : ∀ f ∈ fraction, Digits f

namespace Numeral

/-- The digits behind the point. -/
def places (d : Numeral) : Str := d.fraction.getD []

/-- The point and what is written behind it. -/
def pointPart (d : Numeral) : Str := d.fraction.elim [] fun f => '.' :: f

/-- The text without the sign. -/
def unsigned (d : Numeral) : Str := d.whole ++ d.pointPart

def text (d : Numeral) : Str := (d.sign.map Sign.char).toList ++ d.unsigned

def magnitude (d : Numeral) : ℚ :=
  digitsValue d.whole + digitsValue d.places / 10 ^ d.places.length

/-- The number a numeral denotes. -/
def value (d : Numeral) : ℚ := if d.sign = some .minus then -d.magnitude else d.magnitude

variable {d e : Numeral}

/-- The places behind the point are digits. -/
theorem digits_places (d : Numeral) : Digits d.places := by
  unfold places
  cases hf : d.fraction with
  | none => exact fun c hc => absurd hc List.not_mem_nil
  | some f => exact d.fractionDigits f hf

/-! ### the text -/

/-- What is behind the sign starts with a digit. -/
theorem head?_unsigned_ne (d : Numeral) {c : Char} (hc : c.isDigit = false) :
    d.unsigned.head? ≠ some c := by
  rw [unsigned, List.head?_append_of_ne_nil _ d.wholeNe]
  exact head?_digits_ne d.wholeDigits hc

/-- The whole part ends where the digits end. -/
theorem span_unsigned (d : Numeral) :
    d.unsigned.span Char.isDigit = (d.whole, d.pointPart) := by
  have hstop : d.pointPart.takeWhile Char.isDigit = [] := by
    unfold pointPart
    cases d.fraction <;> rfl
  have hrest : d.pointPart.dropWhile Char.isDigit = d.pointPart := by
    unfold pointPart
    cases d.fraction <;> rfl
  rw [List.span_eq_takeWhile_dropWhile, unsigned, List.takeWhile_append_of_pos d.wholeDigits,
    List.dropWhile_append_of_pos d.wholeDigits, hstop, hrest, List.append_nil]

/-- A sign is not a digit, so the unsigned text does not start with one. -/
theorem sign_injective (h : d.text = e.text) : d.sign = e.sign := by
  have hne (d : Numeral) (sign : Sign) : d.unsigned.head? ≠ some sign.char :=
    d.head?_unsigned_ne (by cases sign <;> decide)
  have hhead := congrArg List.head? h
  simp only [text] at hhead
  cases hd : d.sign with
  | none =>
      cases he : e.sign with
      | none => rfl
      | some sign =>
          simp only [hd, he, Option.map_none, Option.toList_none, List.nil_append, Option.map_some,
            Option.toList_some, List.singleton_append, List.head?_cons] at hhead
          exact absurd hhead (hne d sign)
  | some sign =>
      cases he : e.sign with
      | none =>
          simp only [hd, he, Option.map_none, Option.toList_none, List.nil_append, Option.map_some,
            Option.toList_some, List.singleton_append, List.head?_cons] at hhead
          exact absurd hhead.symm (hne e sign)
      | some sign' =>
          simp only [hd, he, Option.map_some, Option.toList_some, List.singleton_append,
            List.head?_cons, Option.some.injEq] at hhead
          cases sign <;> cases sign' <;> first | rfl | exact absurd hhead (by decide)

/-- The pieces can be told from the text. -/
theorem text_injective : Function.Injective text := by
  intro d e h
  have hsign := sign_injective h
  have hunsigned : d.unsigned = e.unsigned := by
    rw [text, text, hsign] at h
    exact List.append_cancel_left h
  have hspan := d.span_unsigned
  rw [hunsigned, e.span_unsigned] at hspan
  obtain ⟨hwhole, hpoint⟩ := Prod.mk.inj hspan
  refine Numeral.ext hsign hwhole.symm ?_
  simp only [pointPart] at hpoint
  cases hd : d.fraction <;> cases he : e.fraction <;> simp_all

/-! ### the number -/

/-- The number without its sign is not negative. -/
theorem magnitude_nonneg (d : Numeral) : 0 ≤ d.magnitude := by
  exact add_nonneg (Nat.cast_nonneg _) (by positivity)

/-- With enough places the digits of a numeral count the units of the last
place. -/
theorem magnitude_eq {n : Nat} (h : d.places.length ≤ n) : d.magnitude * 10 ^ n =
    digitsValue (d.whole ++ d.places ++ List.replicate (n - d.places.length) '0') := by
  obtain ⟨k, rfl⟩ := Nat.exists_eq_add_of_le h
  rw [digitsValue_append_zeros, digitsValue_append, Nat.add_sub_cancel_left, magnitude]
  push_cast
  field_simp
  ring

/-- The number without its sign is the absolute value. -/
theorem magnitude_eq_abs (d : Numeral) : d.magnitude = |d.value| := by
  have hnonneg := d.magnitude_nonneg
  unfold value
  split
  · rw [abs_neg, abs_of_nonneg hnonneg]
  · rw [abs_of_nonneg hnonneg]

/-- Only a minus sign makes a numeral denote a negative number. -/
theorem sign_of_value_neg (h : d.value < 0) : d.sign = some .minus := by
  by_contra hsign
  rw [value, if_neg hsign] at h
  exact absurd d.magnitude_nonneg (not_le.mpr h)

/-! ### the canonical numeral of a number -/

/-- No sign but a minus in front of a negative number, no superfluous zero
at either end, no point without digits behind it. -/
structure Canonical (d : Numeral) : Prop where
  minus : d.sign = some .minus ↔ d.value < 0
  plus : d.sign ≠ some .plus
  whole : d.whole = ['0'] ∨ d.whole.head? ≠ some '0'
  fraction : ∀ f ∈ d.fraction, f ≠ [] ∧ f.getLast? ≠ some '0'

/-- Filled up to one length, the digits of two numerals of one magnitude are
the same. -/
theorem digits_of_magnitude_eq (h : d.magnitude = e.magnitude) {n : Nat}
    (hd : d.places.length ≤ n) (he : e.places.length ≤ n) :
    digitsValue d.whole = digitsValue e.whole ∧
      d.places ++ List.replicate (n - d.places.length) '0' =
        e.places ++ List.replicate (n - e.places.length) '0' := by
  have hunits := magnitude_eq hd
  rw [h, magnitude_eq he, Nat.cast_inj, List.append_assoc, List.append_assoc] at hunits
  have hdigits (d : Numeral) : Digits (d.places ++ List.replicate (n - d.places.length) '0') :=
    digits_append d.digits_places (digits_replicate_zero _)
  have hlen : (d.places ++ List.replicate (n - d.places.length) '0').length =
      (e.places ++ List.replicate (n - e.places.length) '0').length := by
    simp only [List.length_append, List.length_replicate]
    omega
  obtain ⟨hwhole, hplaces⟩ := digitsValue_append_inj (hdigits e) (hdigits d) hlen.symm hunits
  exact ⟨hwhole.symm, (digits_eq_of_value (hdigits e) (hdigits d) hlen.symm hplaces).symm⟩

/-- A digit string that does not end in a zero is not longer than one that
becomes the same with zeros behind it. -/
theorem length_le_of_append_zeros {f g : Str} {m n : Nat} (hf : f.getLast? ≠ some '0')
    (h : f ++ List.replicate m '0' = g ++ List.replicate n '0') : f.length ≤ g.length := by
  by_contra hlt
  have htake := congrArg (List.take f.length) h
  rw [List.take_left, List.take_append, List.take_of_length_le (by omega),
    List.take_replicate] at htake
  have hlen := congrArg List.length h
  simp only [List.length_append, List.length_replicate] at hlen
  refine hf ?_
  rw [htake, List.getLast?_append, List.getLast?_replicate, if_neg (by omega)]
  rfl

/-- The places of a canonical numeral do not end in zero. -/
theorem Canonical.getLast?_places (h : d.Canonical) : d.places.getLast? ≠ some '0' := by
  unfold places
  cases hf : d.fraction with
  | none => simp
  | some f => exact (h.fraction f hf).2

/-- A canonical numeral has a sign only where every numeral of its number has
the same sign. -/
theorem Canonical.sign_shortest (h : d.Canonical) (hvalue : d.value = e.value) :
    d.sign.toList.length ≤ e.sign.toList.length ∧
      (d.sign.toList.length = e.sign.toList.length → d.sign = e.sign) := by
  cases hd : d.sign with
  | none =>
      cases he : e.sign with
      | none => simp
      | some sign => simp
  | some sign =>
      cases sign with
      | plus => exact absurd hd h.plus
      | minus =>
          have he := sign_of_value_neg (d := e) (hvalue ▸ h.minus.mp hd)
          simp [he]

/-- A canonical numeral has no place that another numeral of its number does
without. -/
theorem Canonical.fraction_shortest (h : d.Canonical) {m n : Nat}
    (hplaces : d.places ++ List.replicate m '0' = e.places ++ List.replicate n '0') :
    d.pointPart.length ≤ e.pointPart.length ∧
      (d.pointPart.length = e.pointPart.length → d.fraction = e.fraction) := by
  have hlen : d.places.length ≤ e.places.length :=
    length_le_of_append_zeros h.getLast?_places hplaces
  simp only [places] at hplaces hlen
  unfold pointPart
  cases hd : d.fraction with
  | none =>
      cases he : e.fraction with
      | none => simp
      | some g => simp
  | some f =>
      have hne := List.length_pos_iff.mpr (h.fraction f hd).1
      cases he : e.fraction with
      | none =>
          simp only [hd, he, Option.getD_some, Option.getD_none, List.length_nil] at hlen
          omega
      | some g =>
          simp only [hd, he, Option.getD_some] at hplaces hlen
          simp only [Option.elim_some, List.length_cons, Nat.add_le_add_iff_right,
            Nat.add_right_cancel_iff, Option.some.injEq]
          exact ⟨hlen, fun heq => (List.append_inj hplaces heq).1⟩

/-- The length of the text, part by part. -/
theorem length_text (d : Numeral) : d.text.length =
    d.sign.toList.length + (d.whole.length + d.pointPart.length) := by
  rw [text, unsigned, pointPart, List.length_append, List.length_append]
  cases d.sign <;> rfl

/-- **Shortest numeral**: a canonical numeral is shorter than every other
numeral of its number. -/
theorem Canonical.shortest (h : d.Canonical) (hvalue : d.value = e.value) :
    d.text.length ≤ e.text.length ∧ (d.text.length = e.text.length → d = e) := by
  have hmagnitude : d.magnitude = e.magnitude := by
    rw [magnitude_eq_abs, magnitude_eq_abs, hvalue]
  obtain ⟨hwhole, hplaces⟩ := digits_of_magnitude_eq hmagnitude
    (Nat.le_max_left d.places.length e.places.length)
    (Nat.le_max_right d.places.length e.places.length)
  obtain ⟨hsignLen, hsign⟩ := h.sign_shortest hvalue
  obtain ⟨hfractionLen, hfraction⟩ := h.fraction_shortest hplaces
  have hwholeLen : d.whole.length ≤ e.whole.length := by
    have hnat := natText_digitsValue d.wholeDigits d.wholeNe h.whole
    rw [← hnat, hwhole]
    exact length_natText_le e.wholeDigits e.wholeNe
  rw [length_text, length_text]
  refine ⟨by omega, fun heq => ?_⟩
  have hw : d.whole = e.whole :=
    digits_eq_of_value d.wholeDigits e.wholeDigits (by omega) hwhole
  exact Numeral.ext (hsign (by omega)) hw (hfraction (by omega))

end Numeral

end PgLedger
