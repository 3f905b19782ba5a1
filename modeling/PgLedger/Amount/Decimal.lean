import PgLedger.Amount.RoundTrip

/-!
# PgLedger.Amount.Decimal

The decimal reader and the decimal printer against the numerals of
`PgLedger.Numeral`.  The reader accepts exactly the texts of numerals with at
most `scale` places and returns the denoted number times `10 ^ scale`
(`decimalToUnits_eq_ok`); the printer writes the canonical numeral of
`units / 10 ^ scale` (`unitsToDecimal_numeral`).  What the claims of the text
format come to then follows from what numerals are.
-/

namespace PgLedger

/-! ## the reader -/

/-- Text with at most one point is cut there, if it has one. -/
theorem eq_of_splitOn {t : Str} (h : (t.splitOn '.').tail.tail = []) :
    (t.splitOn '.' = [t] ∨ ∃ whole fraction, t = whole ++ '.' :: fraction ∧
      t.splitOn '.' = [whole, fraction]) := by
  have hjoin : ['.'].intercalate (t.splitOn '.') = t := List.intercalate_splitOn '.'
  match hpieces : t.splitOn '.' with
  | [] => exact absurd hpieces (List.splitOn_ne_nil _ _)
  | [piece] =>
      left
      simpa [hpieces] using hjoin
  | [whole, fraction] =>
      right
      refine ⟨whole, fraction, ?_, rfl⟩
      simpa [hpieces, List.intercalate] using hjoin.symm
  | _ :: _ :: _ :: _ => simp [hpieces] at h

/-- The text of an unsigned numeral is all the reader accepts. -/
theorem numeral_of_magnitudeToUnits {t : Str} {scale : UInt8} {units : Int}
    (h : magnitudeToUnits t scale = .ok units) (sign : Option Sign) :
    ∃ d : Numeral, d.sign = sign ∧ d.unsigned = t ∧ d.places.length ≤ scale.toNat := by
  simp only [magnitudeToUnits, guard_eq_ok, not_or, not_not, List.all_eq_true, Nat.not_lt] at h
  obtain ⟨⟨hone, hne, hw, hf⟩, hlen, -⟩ := h
  rcases eq_of_splitOn hone with hpieces | ⟨whole, fraction, ht, hpieces⟩
  · simp only [hpieces, List.headD_cons] at hne hw
    exact ⟨⟨sign, t, none, hw, hne, by simp⟩, rfl, by simp [Numeral.unsigned, Numeral.pointPart],
      by simp [Numeral.places]⟩
  · simp only [hpieces, List.headD_cons, List.tail_cons] at hne hw hf hlen
    have hfraction : ∀ f ∈ some fraction, Digits f := by
      intro f hmem
      rw [← Option.mem_some.mp hmem]
      exact hf
    exact ⟨⟨sign, whole, some fraction, hw, hne, hfraction⟩, rfl,
      by simp [Numeral.unsigned, Numeral.pointPart, ht], hlen⟩

/-- The sign is taken off before the rest is read. -/
theorem decimalToUnits_text (d : Numeral) (scale : UInt8) : decimalToUnits d.text scale =
    if d.sign = some .minus then (magnitudeToUnits d.unsigned scale).map fun units => -units
    else magnitudeToUnits d.unsigned scale := by
  have hminus := d.head?_unsigned_ne (c := '-') (by decide)
  have hplus := d.head?_unsigned_ne (c := '+') (by decide)
  unfold decimalToUnits Numeral.text
  cases d.sign with
  | none => simp [hminus, hplus]
  | some sign =>
      cases sign with
      | plus => simp [Sign.char]
      | minus => simp [Sign.char]

/-- **Reading**: the reader accepts the numerals with at most as many places
as the scale, and counts the units of the last place. -/
theorem decimalToUnits_eq_ok {t : Str} {scale : UInt8} {units : Int} :
    decimalToUnits t scale = .ok units ↔ ∃ d : Numeral, d.text = t ∧
      d.places.length ≤ scale.toNat ∧ (units : ℚ) = d.value * 10 ^ scale.toNat := by
  have hunits (d : Numeral) (hfits : d.places.length ≤ scale.toNat) :
      decimalToUnits d.text scale = .ok units ↔ (units : ℚ) = d.value * 10 ^ scale.toNat := by
    have hmagnitude := d.magnitude_eq hfits
    rw [decimalToUnits_text, magnitudeToUnits_unsigned d hfits, Numeral.value]
    split
    · rw [Except.map, Except.ok.injEq, neg_mul, hmagnitude]
      exact_mod_cast eq_comm
    · rw [Except.ok.injEq, hmagnitude]
      exact_mod_cast eq_comm
  constructor
  · intro h
    have hnumeral : ∃ d : Numeral, d.text = t ∧ d.places.length ≤ scale.toNat := by
      simp only [decimalToUnits] at h
      split at h
      · next hhead =>
        obtain ⟨rest, rfl⟩ := List.head?_eq_some_iff.mp hhead
        cases hread : magnitudeToUnits rest scale with
        | error e => simp [hread, Except.map] at h
        | ok n =>
            obtain ⟨d, hsign, hd, hlen⟩ := numeral_of_magnitudeToUnits hread (some .minus)
            exact ⟨d, by simp [Numeral.text, hsign, hd, Sign.char], hlen⟩
      · split at h
        · next hhead =>
          obtain ⟨rest, rfl⟩ := List.head?_eq_some_iff.mp hhead
          obtain ⟨d, hsign, hd, hlen⟩ := numeral_of_magnitudeToUnits h (some .plus)
          exact ⟨d, by simp [Numeral.text, hsign, hd, Sign.char], hlen⟩
        · obtain ⟨d, hsign, hd, hlen⟩ := numeral_of_magnitudeToUnits h none
          exact ⟨d, by simp [Numeral.text, hsign, hd], hlen⟩
    obtain ⟨d, rfl, hfits⟩ := hnumeral
    exact ⟨d, rfl, hfits, (hunits d hfits).mp h⟩
  · rintro ⟨d, rfl, hfits, hvalue⟩
    exact (hunits d hfits).mpr hvalue

/-- Every numeral with few enough places is accepted. -/
theorem exists_decimalToUnits (d : Numeral) {scale : UInt8}
    (hfits : d.places.length ≤ scale.toNat) : ∃ units, decimalToUnits d.text scale = .ok units := by
  rw [decimalToUnits_text, magnitudeToUnits_unsigned d hfits]
  split
  · exact ⟨_, rfl⟩
  · exact ⟨_, rfl⟩

/-! ## the printer -/

theorem pow_scale_pos (scale : UInt8) : (0 : ℚ) < 10 ^ scale.toNat := by positivity

theorem value_neg_iff {d : Numeral} {units : Int} {scale : UInt8}
    (h : d.value = units / 10 ^ scale.toNat) : d.value < 0 ↔ units < 0 := by
  rw [h, div_lt_iff₀ (pow_scale_pos scale), zero_mul]
  exact Int.cast_lt_zero

/-- **Printing**: the printer writes the canonical numeral of the units at
their scale. -/
theorem unitsToDecimal_numeral (units : Int) (scale : UInt8) : ∃ d : Numeral,
    d.text = unitsToDecimal units scale ∧ d.value = units / 10 ^ scale.toNat ∧ d.Canonical := by
  obtain ⟨d, htext, -, hunits⟩ :=
    decimalToUnits_eq_ok.mp (decimalToUnits_unitsToDecimal units scale)
  have hvalue : d.value = units / 10 ^ scale.toNat :=
    (eq_div_iff (pow_scale_pos scale).ne').mpr hunits.symm
  have hneg := value_neg_iff hvalue
  refine ⟨d, htext, hvalue, ?_⟩
  by_cases hzero : units = 0
  · subst hzero
    obtain rfl : d = ⟨none, ['0'], none, digits_zero, by decide, by simp⟩ :=
      Numeral.text_injective (htext.trans rfl)
    exact ⟨by rw [hneg]; simp, by simp, .inl rfl, by simp⟩
  · obtain ⟨whole, fraction, hdecimal, hprint, hwhole, hlast⟩ := unitsToDecimal_eq hzero scale
    obtain rfl : d = hdecimal.numeral (if units < 0 then some .minus else none) := by
      refine Numeral.text_injective (htext.trans (hprint.trans ?_))
      rw [Numeral.text, hdecimal.unsigned_numeral]
      by_cases h : units < 0
      · simp [Decimal.numeral, h, Sign.char]
      · simp [Decimal.numeral, h]
    refine ⟨?_, ?_, hwhole, fun f hf => ?_⟩
    · rw [hneg]
      simp [Decimal.numeral]
    · simp only [Decimal.numeral]
      split <;> simp
    · simp only [Decimal.numeral] at hf
      split at hf
      · contradiction
      · next hne =>
        rw [← Option.mem_some.mp hf]
        exact ⟨hne, hlast⟩

/-- A text is a numeral of the number. -/
def Denotes (text : Str) (number : ℚ) : Prop := ∃ d : Numeral, d.text = text ∧ d.value = number

/-- **Canonical printing**: at every scale the printed units read back, the
printed text is the canonical numeral of the number of units divided by
`10 ^ scale`, every other text that is read as these units is longer, and
reading and printing again keeps the number that a text denotes. -/
theorem printing_canonical (scale : UInt8) :
    (∀ units : Int, decimalToUnits (unitsToDecimal units scale) scale = .ok units ∧
      (∃ d : Numeral, d.text = unitsToDecimal units scale ∧
        d.value = units / 10 ^ scale.toNat ∧ d.Canonical ∧
        (d.sign = some .minus ↔ units < 0)) ∧
      ∀ text, decimalToUnits text scale = .ok units → text ≠ unitsToDecimal units scale →
        (unitsToDecimal units scale).length < text.length) ∧
    ∀ text units, decimalToUnits text scale = .ok units →
      ∃ number, Denotes text number ∧ Denotes (unitsToDecimal units scale) number := by
  refine ⟨fun units => ?_, fun text units hread => ?_⟩
  · obtain ⟨d, hd, hvalue, hcanonical⟩ := unitsToDecimal_numeral units scale
    refine ⟨decimalToUnits_unitsToDecimal units scale,
      ⟨d, hd, hvalue, hcanonical, hcanonical.minus.trans (value_neg_iff hvalue)⟩,
      fun text hread hne => ?_⟩
    obtain ⟨e, rfl, -, hunits⟩ := decimalToUnits_eq_ok.mp hread
    have hsame : d.value = e.value := by
      rw [hvalue, hunits, mul_div_cancel_right₀ _ (pow_scale_pos scale).ne']
    obtain ⟨hle, heq⟩ := hcanonical.shortest hsame
    rw [← hd] at hne ⊢
    exact Nat.lt_of_le_of_ne hle fun hlen => hne (by rw [heq hlen])
  · obtain ⟨e, rfl, -, hunits⟩ := decimalToUnits_eq_ok.mp hread
    obtain ⟨d, hd, hvalue, -⟩ := unitsToDecimal_numeral units scale
    refine ⟨e.value, ⟨e, rfl, rfl⟩, d, hd, ?_⟩
    rw [hvalue, hunits, mul_div_cancel_right₀ _ (pow_scale_pos scale).ne']

end PgLedger
