import PgLedger.Amount
import PgLedger.Asset.RoundTrip
import PgLedger.Numeral

/-!
# PgLedger.Amount.RoundTrip

The decimal printer against the decimal reader, and the text of amounts.

`unitsToDecimal` writes the digits of the units, puts a point in front of the
last `scale` of them and drops zeros from the end.  `Decimal n s t` says of
an unsigned text `t` what both directions need: it is a whole part and a
fraction, and the fraction filled up with zeros to `s` digits makes, behind
the whole part, the digits of `n`.  The printer produces such a text
(`unitsToDecimal_eq`) and the reader returns `n` on every such text
(`magnitudeToUnits_joinPoint`).
-/

namespace PgLedger

/-! ## digit strings -/

/-- A digit string is read as its value. -/
theorem parseInteger_digits {s : Str} (hs : Digits s) (hne : s ≠ []) :
    parseInteger s = .ok (Nat.ofDigitChars 10 s 0) := by
  have hall : s.all (fun c => c.isDigit || c == '_') = true :=
    List.all_eq_true.mpr fun c hc => by rw [hs c hc, Bool.true_or]
  have hfilter : s.filter (· ≠ '_') = s :=
    List.filter_eq_self.mpr fun c hc => by
      have hund : c ≠ '_' := by rintro rfl; exact absurd (hs '_' hc) (by decide)
      simpa using hund
  have hmagnitude : parseMagnitude s = some (Nat.ofDigitChars 10 s 0) := by
    simp only [parseMagnitude, head?_digits_ne hs (c := '+') (by decide), false_and, if_false]
    rw [if_neg, hfilter]
    simp only [hne, head?_digits_ne hs (c := '_') (by decide), hall, not_true_eq_false, or_false,
      not_false_eq_true]
  rw [parseInteger, parseBigInt, if_neg (head?_digits_ne hs (by decide)), hmagnitude]
  rfl

/-! ## between the two directions -/

/-- A whole part and a fraction, with a point between them if there is a
fraction at all. -/
def joinPoint (whole fraction : Str) : Str :=
  if fraction = [] then whole else whole ++ '.' :: fraction

/-- `whole` and `fraction` make `n` units at scale `s`: filled up with zeros
to `s` digits, the fraction completes the whole part to the digits of `n`. -/
structure Decimal (n s : Nat) (whole fraction : Str) : Prop where
  wholeDigits : Digits whole
  wholeNe : whole ≠ []
  fractionDigits : Digits fraction
  fits : fraction.length ≤ s
  value : Nat.ofDigitChars 10 (whole ++ fraction ++ List.replicate (s - fraction.length) '0') 0 = n

/-- The numeral made of the pieces. -/
def Decimal.numeral {n s : Nat} {whole fraction : Str} (h : Decimal n s whole fraction)
    (sign : Option Sign) : Numeral where
  sign := sign
  whole := whole
  fraction := if fraction = [] then none else some fraction
  wholeDigits := h.wholeDigits
  wholeNe := h.wholeNe
  fractionDigits := by
    intro f hf
    split at hf
    · contradiction
    · rw [← Option.mem_some.mp hf]
      exact h.fractionDigits

namespace Decimal

variable {n s : Nat} {whole fraction : Str} (h : Decimal n s whole fraction) (sign : Option Sign)

@[simp] theorem unsigned_numeral : (h.numeral sign).unsigned = joinPoint whole fraction := by
  unfold Numeral.unsigned Numeral.pointPart numeral joinPoint
  split <;> simp

@[simp] theorem places_numeral : (h.numeral sign).places = fraction := by
  unfold Numeral.places numeral
  dsimp only
  split
  · next hnil => simp [hnil]
  · rfl

end Decimal

/-! ## the reader -/

/-- The pieces of a numeral are found again at its point. -/
theorem splitOn_unsigned (d : Numeral) :
    d.unsigned.splitOn '.' = d.whole :: d.fraction.toList := by
  have hpoint : '.' ∉ d.whole := not_mem_digits d.wholeDigits (by decide)
  unfold Numeral.unsigned Numeral.pointPart
  cases hf : d.fraction with
  | none => simpa using List.splitOn_eq_singleton hpoint
  | some f =>
      have hpoint' : '.' ∉ f := not_mem_digits (d.fractionDigits f hf) (by decide)
      rw [Option.elim_some, List.splitOn_append_cons_self_of_not_mem hpoint,
        List.splitOn_eq_singleton hpoint', Option.toList_some]

/-- **Reading**: the reader returns the number of units in the last place. -/
theorem magnitudeToUnits_unsigned (d : Numeral) {scale : UInt8}
    (hfits : d.places.length ≤ scale.toNat) :
    magnitudeToUnits d.unsigned scale = .ok (digitsValue (d.whole ++ d.places ++
      List.replicate (scale.toNat - d.places.length) '0')) := by
  have hw : d.whole.all Char.isDigit = true := List.all_eq_true.mpr d.wholeDigits
  have hf : d.places.all Char.isDigit = true := List.all_eq_true.mpr d.digits_places
  have hdigits : Digits (d.whole ++ d.places ++
      List.replicate (scale.toNat - d.places.length) '0') :=
    digits_append (digits_append d.wholeDigits d.digits_places) (digits_replicate_zero _)
  have hsecond : d.fraction.toList.headD [] = d.places := by
    unfold Numeral.places
    cases d.fraction <;> rfl
  have hrest : d.fraction.toList.tail = [] := by cases d.fraction <;> rfl
  simp only [magnitudeToUnits, splitOn_unsigned, List.headD_cons, List.tail_cons, hsecond, hrest,
    d.wholeNe, hw, hf, ne_eq, not_true_eq_false, or_self, if_false,
    if_neg (Nat.not_lt.mpr hfits)]
  exact parseInteger_digits hdigits (by simp [d.wholeNe])

theorem magnitudeToUnits_joinPoint {n : Nat} {scale : UInt8} {whole fraction : Str}
    (h : Decimal n scale.toNat whole fraction) :
    magnitudeToUnits (joinPoint whole fraction) scale = .ok n := by
  have hfits : (h.numeral none).places.length ≤ scale.toNat := by simpa using h.fits
  have hread := magnitudeToUnits_unsigned (h.numeral none) hfits
  have hvalue : digitsValue ((h.numeral none).whole ++ fraction ++
      List.replicate (scale.toNat - fraction.length) '0') = n := h.value
  rw [h.unsigned_numeral, h.places_numeral, hvalue] at hread
  exact hread

/-! ## the printer -/

/-- A character that stays stops the trimming at the end. -/
theorem rdropWhile_append_cons {p : Char → Bool} (s : Str) {c : Char} (hc : p c = false) (t : Str) :
    (s ++ c :: t).rdropWhile p = s ++ c :: t.rdropWhile p := by
  induction t using List.reverseRecOn with
  | nil => rw [List.rdropWhile_concat_neg _ _ _ (by simp [hc]), List.rdropWhile_nil]
  | append_singleton t d ih =>
      by_cases hd : p d = true
      · rw [← List.cons_append, ← List.append_assoc, List.rdropWhile_concat_pos _ _ _ hd,
          List.rdropWhile_concat_pos _ _ _ hd, ih]
      · rw [← List.cons_append, ← List.append_assoc, List.rdropWhile_concat_neg _ _ _ hd,
          List.rdropWhile_concat_neg _ _ _ hd, List.append_assoc, List.cons_append]

/-- What is trimmed off the end of a fraction are zeros. -/
theorem rdropWhile_zero_append (s : Str) :
    s.rdropWhile (· == '0') ++ List.replicate (s.length - (s.rdropWhile (· == '0')).length) '0' =
      s := by
  induction s using List.reverseRecOn with
  | nil => rfl
  | append_singleton s c ih =>
      by_cases hc : c = '0'
      · subst hc
        have hle : (s.rdropWhile (· == '0')).length ≤ s.length :=
          (List.rdropWhile_prefix _ _).length_le
        rw [List.rdropWhile_concat_pos _ _ _ (by simp), List.length_append, List.length_singleton,
          Nat.sub_add_comm hle, List.replicate_succ', ← List.append_assoc, ih]
      · rw [List.rdropWhile_concat_neg _ _ _ (by simpa using hc)]
        simp

/-- The last zero is gone. -/
theorem getLast?_rdropWhile_zero (s : Str) : (s.rdropWhile (· == '0')).getLast? ≠ some '0' := by
  intro h
  have hne : s.rdropWhile (· == '0') ≠ [] := by
    intro hnil
    simp [hnil] at h
  have hlast := List.rdropWhile_last_not (· == '0') s hne
  rw [List.getLast?_eq_some_getLast hne, Option.some.injEq] at h
  simp [h] at hlast

theorem trimFraction_append {whole fraction : Str} (hf : Digits fraction) :
    trimFraction (whole ++ '.' :: fraction) =
      joinPoint whole (fraction.rdropWhile (· == '0')) := by
  have hdigits : Digits (fraction.rdropWhile (· == '0')) :=
    fun c hc => hf c ((List.rdropWhile_prefix _ _).subset hc)
  simp only [trimFraction]
  rw [rdropWhile_append_cons _ (by decide)]
  generalize fraction.rdropWhile (· == '0') = t at hdigits
  unfold joinPoint
  cases t using List.reverseRecOn with
  | nil => simp
  | append_singleton t c =>
      have hc : c ≠ '.' := by
        rintro rfl
        exact absurd (hdigits '.' (by simp)) (by decide)
      simp [hc, List.getLast?_append, List.getLast?_cons]

/-- The point splits the digits, or the digits filled up in front with zeros. -/
theorem placePoint_eq {digits : Str} (hd : Digits digits) {s : Nat} :
    ∃ whole fraction, placePoint digits s = whole ++ '.' :: fraction ∧ Digits whole ∧ whole ≠ [] ∧
      Digits fraction ∧ fraction.length = s ∧ digitsValue (whole ++ fraction) = digitsValue digits ∧
      (whole = ['0'] ∨ whole.head? = digits.head?) := by
  unfold placePoint
  split
  · next hle =>
    refine ⟨['0'], List.replicate (s - digits.length) '0' ++ digits, rfl, digits_zero, by decide,
      digits_append (digits_replicate_zero _) hd, ?_, ?_, .inl rfl⟩
    · simp only [List.length_append, List.length_replicate]
      omega
    · rw [digitsValue, Nat.ofDigitChars_append, Nat.ofDigitChars_append,
        Nat.ofDigitChars_replicate_zero]
      simp [Nat.ofDigitChars_cons]
  · next hlt =>
    refine ⟨digits.take (digits.length - s), digits.drop (digits.length - s), rfl,
      fun c hc => hd c (List.mem_of_mem_take hc), ?_, fun c hc => hd c (List.mem_of_mem_drop hc),
      ?_, by rw [List.take_append_drop], .inr ?_⟩
    · intro hnil
      have := congrArg List.length hnil
      simp only [List.length_take, List.length_nil] at this
      omega
    · simp only [List.length_drop]
      omega
    · rw [List.head?_take, if_neg (by omega)]

/-- **Printing**: what the printer writes behind the sign is made of pieces
for the magnitude, without a superfluous zero at either end. -/
theorem unitsToDecimal_eq {units : Int} (hne : units ≠ 0) (scale : UInt8) :
    ∃ whole fraction, Decimal units.natAbs scale.toNat whole fraction ∧
      unitsToDecimal units scale =
        (if units < 0 then ['-'] else []) ++ joinPoint whole fraction ∧
      (whole = ['0'] ∨ whole.head? ≠ some '0') ∧ fraction.getLast? ≠ some '0' := by
  have hdigits := digits_natText units.natAbs
  have hvalue : digitsValue (natText units.natAbs) = units.natAbs :=
    Nat.ofDigitChars_ten_toDigits
  have hhead : (natText units.natAbs).head? ≠ some '0' :=
    head?_natText_ne_zero (Int.natAbs_ne_zero.mpr hne)
  simp only [unitsToDecimal, hne, if_false]
  by_cases hs : scale = 0
  · refine ⟨natText units.natAbs, [], ⟨hdigits, natText_ne_nil _, by simp [Digits], by simp, ?_⟩,
      ?_, .inr hhead, by simp⟩
    · simp [hs, hvalue]
    · simp [hs, joinPoint]
  · obtain ⟨whole, fraction, htext, hw, hwne, hf, hlen, hval, hzero⟩ :=
      placePoint_eq hdigits (s := scale.toNat)
    refine ⟨whole, fraction.rdropWhile (· == '0'), ⟨hw, hwne, ?_, ?_, ?_⟩, ?_, ?_, ?_⟩
    · exact fun c hc => hf c ((List.rdropWhile_prefix _ _).subset hc)
    · rw [← hlen]
      exact (List.rdropWhile_prefix _ _).length_le
    · rw [← hlen, List.append_assoc, rdropWhile_zero_append]
      exact hval.trans hvalue
    · rw [if_neg hs, htext, trimFraction_append hf]
    · exact hzero.imp_right fun hsame => by rwa [hsame]
    · exact getLast?_rdropWhile_zero fraction

theorem head?_joinPoint_ne {n s : Nat} {whole fraction : Str} (h : Decimal n s whole fraction)
    {c : Char} (hc : c.isDigit = false) : (joinPoint whole fraction).head? ≠ some c := by
  have hne := head?_digits_ne h.wholeDigits hc
  unfold joinPoint
  split
  · exact hne
  · rwa [List.head?_append_of_ne_nil _ h.wholeNe]

/-- **Decimal round trip**: the reader inverts the printer at every scale. -/
theorem decimalToUnits_unitsToDecimal (units : Int) (scale : UInt8) :
    decimalToUnits (unitsToDecimal units scale) scale = .ok units := by
  by_cases hzero : units = 0
  · subst hzero
    have hdecimal : Decimal 0 scale.toNat ['0'] [] :=
      ⟨digits_zero, by decide, by simp [Digits], by simp, by
        rw [Nat.ofDigitChars_append, Nat.ofDigitChars_replicate_zero]
        simp [Nat.ofDigitChars_cons]⟩
    have hread := magnitudeToUnits_joinPoint hdecimal
    simpa [joinPoint, decimalToUnits, unitsToDecimal] using hread
  · obtain ⟨whole, fraction, hdecimal, htext, -⟩ := unitsToDecimal_eq hzero scale
    have hread := magnitudeToUnits_joinPoint hdecimal
    rw [htext, decimalToUnits]
    by_cases hneg : units < 0
    · simp only [hneg, if_true, List.singleton_append, List.head?_cons, List.tail_cons, hread]
      simp only [Except.map]
      congr 1
      omega
    · simp only [hneg, if_false, List.nil_append,
        head?_joinPoint_ne hdecimal (c := '-') (by decide),
        head?_joinPoint_ne hdecimal (c := '+') (by decide), hread]
      congr 1
      omega

/-! ## the text of amounts -/

/-- A printed decimal looks numeric: behind the sign there are digits and at
most a point. -/
theorem looksNumeric_unitsToDecimal (units : Int) (scale : UInt8) :
    looksNumeric (unitsToDecimal units scale) = true := by
  by_cases hzero : units = 0
  · subst hzero
    rfl
  · obtain ⟨whole, fraction, hdecimal, htext, -⟩ := unitsToDecimal_eq hzero scale
    have hne : joinPoint whole fraction ≠ [] := by
      unfold joinPoint
      split
      · exact hdecimal.wholeNe
      · simp
    have hchars : ∀ c ∈ joinPoint whole fraction, (c.isDigit || c == '.') = true := by
      intro c hc
      simp only [joinPoint] at hc
      split at hc
      · simp [hdecimal.wholeDigits c hc]
      · rw [List.mem_append, List.mem_cons] at hc
        rcases hc with hc | rfl | hc
        · simp [hdecimal.wholeDigits c hc]
        · rfl
        · simp [hdecimal.fractionDigits c hc]
    have hstrip : stripSign (unitsToDecimal units scale) = joinPoint whole fraction := by
      rw [htext, stripSign]
      by_cases hneg : units < 0
      · simp [hneg]
      · simp [hneg, head?_joinPoint_ne hdecimal (c := '-') (by decide),
          head?_joinPoint_ne hdecimal (c := '+') (by decide)]
    rw [looksNumeric, hstrip, List.all_eq_true.mpr hchars]
    simp [hne]

/-- Numeric-looking text consists of digits, points and signs. -/
theorem char_of_looksNumeric {s : Str} (h : looksNumeric s = true) :
    ∀ c ∈ s, c.isDigit = true ∨ c = '.' ∨ c = '+' ∨ c = '-' := by
  simp only [looksNumeric, Bool.and_eq_true, List.all_eq_true, Bool.or_eq_true, beq_iff_eq] at h
  intro c hc
  simp only [stripSign] at h
  split at h
  · next hsign =>
    cases s with
    | nil => simp at hc
    | cons d s =>
        rcases List.mem_cons.mp hc with rfl | hc
        · simp only [List.head?_cons, Option.some.injEq] at hsign
          exact .inr (.inr hsign)
        · cases h.2 c hc with
          | inl h => exact .inl h
          | inr h => exact .inr (.inl h)
  · cases h.2 c hc with
    | inl h => exact .inl h
    | inr h => exact .inr (.inl h)

/-- The text of a short-form asset does not: it has an `@` or a letter. -/
theorem looksNumeric_canonical {asset : LedgerAsset} (h : asset.ShortForm) :
    looksNumeric asset.canonical = false := by
  have hsubset : ∀ c ∈ asset.identity, c ∈ asset.canonical := by
    intro c hc
    rw [canonical_eq]
    split
    · exact hc
    · exact List.mem_append_left _ hc
  rw [← Bool.not_eq_true]
  intro hnum
  have hchar := char_of_looksNumeric hnum
  cases hn : asset.network with
  | some network =>
      have hat : '@' ∈ asset.identity := by rw [WireAsset.identity, hn]; simp
      exact absurd (hchar '@' (hsubset '@' hat)) (by decide)
  | none =>
      rcases h with hcrypto | ⟨⟨hlen, hletters⟩, -⟩
      · have hfits := asset.wellFormed.network
        rw [hcrypto, hn] at hfits
        exact hfits
      · cases hs : asset.symbol with
        | nil => simp [hs] at hlen
        | cons c symbol =>
            have hc : c ∈ asset.symbol := by rw [hs]; exact List.mem_cons_self
            have hletter : c.isAlpha = true := List.all_eq_true.mp hletters c hc
            have hvalid := ascii_of_symbolChar
              ((validateSymbol_eq_ok.mp asset.wellFormed.symbol).2 c hc)
            have hmem : c ∈ asset.identity := by rw [WireAsset.identity, hn]; exact hc
            exact ascii_induction (P := fun c => c.isAlpha = true →
                ¬ (c.isDigit = true ∨ c = '.' ∨ c = '+' ∨ c = '-'))
              (by decide) hvalid hletter (hchar c (hsubset c hmem))

theorem isAsciiWhitespace_of_looksNumeric {s : Str} (h : looksNumeric s = true) :
    ∀ c ∈ s, isAsciiWhitespace c = false := by
  intro c hc
  rcases char_of_looksNumeric h c hc with hdigit | rfl | rfl | rfl
  · exact isAsciiWhitespace_of_assetChar (by simp [assetChar, symbolChar_of_isDigit hdigit])
  all_goals decide

/-- Distinct amounts print differently, whatever their assets. -/
theorem LedgerAmount.canonical_injective : Function.Injective LedgerAmount.canonical := by
  intro a b h
  have hblank (amount : LedgerAmount) : ' ' ∉ unitsToDecimal amount.units amount.asset.scale := by
    intro hmem
    have hspace := isAsciiWhitespace_of_looksNumeric
      (looksNumeric_unitsToDecimal amount.units amount.asset.scale) ' ' hmem
    exact absurd hspace (by decide)
  have hsplit := splitOnce_append (hblank a) a.asset.canonical
  rw [← LedgerAmount.canonical, h, LedgerAmount.canonical, splitOnce_append (hblank b)] at hsplit
  obtain ⟨hdecimal, hasset⟩ := Prod.mk.inj (Option.some.inj hsplit)
  have hassets : b.asset = a.asset := PgLedger.canonical_injective hasset
  have hread := decimalToUnits_unitsToDecimal b.units b.asset.scale
  rw [hdecimal, hassets, decimalToUnits_unitsToDecimal] at hread
  obtain ⟨asset, units⟩ := a
  obtain ⟨asset', units'⟩ := b
  obtain rfl : asset' = asset := hassets
  obtain rfl : units = units' := Except.ok.inj hread
  rfl

/-- **Amount round trip**: an amount of a short-form asset reads back from
its text exactly when the reader takes a text that long. -/
theorem LedgerAmount.parse_canonical_iff {amount : LedgerAmount} (h : amount.asset.ShortForm) :
    LedgerAmount.parse amount.canonical = .ok amount ↔ utf8Len amount.canonical ≤ 640 := by
  have hnum := looksNumeric_unitsToDecimal amount.units amount.asset.scale
  have hne : unitsToDecimal amount.units amount.asset.scale ≠ [] := by
    intro hnil
    simp only [hnil] at hnum
    exact absurd hnum (by decide)
  have hsplit : splitAsciiWhitespace amount.canonical =
      [unitsToDecimal amount.units amount.asset.scale, amount.asset.canonical] :=
    splitAsciiWhitespace_append (isAsciiWhitespace_of_looksNumeric hnum)
      (fun c hc => isAsciiWhitespace_of_assetChar (amount.asset.wellFormed.canonical_chars c hc))
      hne amount.asset.wellFormed.canonical_ne_nil
  rw [LedgerAmount.parse, guard_eq_ok, hsplit, Nat.not_lt, and_iff_left_iff_imp]
  intro _
  have hasset : LedgerAsset.parse amount.asset.canonical = .ok amount.asset :=
    LedgerAsset.parse_eq_ok.mpr ((parseFields_canonical_iff amount.asset.wellFormed).mpr h)
  simp only [orderTokens, hnum, looksNumeric_canonical h, ok_bind, hasset,
    decimalToUnits_unitsToDecimal]

end PgLedger
