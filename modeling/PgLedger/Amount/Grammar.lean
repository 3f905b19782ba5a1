import PgLedger.Amount.Decimal

/-!
# PgLedger.Amount.Grammar

What amount input is accepted and what it means.  `AmountInput` is the
grammar: a size limit, two tokens of which exactly one is numeric-shaped, an
asset, and a numeral with no more places than the scale of the asset.  The
reader accepts the grammar and nothing else, and the units it returns are
the denoted number at the scale of the asset, exactly.
-/

namespace PgLedger

/-- An optional sign and then digits and points, at least one of them. -/
def NumericShaped (token : Str) : Prop :=
  ∃ sign body : Str, sign ∈ [[], ['+'], ['-']] ∧ token = sign ++ body ∧ body ≠ [] ∧
    ∀ c ∈ body, c.isDigit = true ∨ c = '.'

/-- The sign that is taken off is the sign of the shape. -/
theorem looksNumeric_iff {token : Str} : looksNumeric token = true ↔ NumericShaped token := by
  have hbody (body : Str) : (body.all fun c => c.isDigit || c == '.') = true ↔
      ∀ c ∈ body, c.isDigit = true ∨ c = '.' := by
    simp only [List.all_eq_true, Bool.or_eq_true, beq_iff_eq]
  simp only [looksNumeric, Bool.and_eq_true, decide_eq_true_eq, hbody]
  constructor
  · intro h
    simp only [stripSign] at h
    split at h
    · next hsign =>
      rcases hsign with hhead | hhead
      · obtain ⟨body, rfl⟩ := List.head?_eq_some_iff.mp hhead
        exact ⟨['+'], body, by simp, rfl, h⟩
      · obtain ⟨body, rfl⟩ := List.head?_eq_some_iff.mp hhead
        exact ⟨['-'], body, by simp, rfl, h⟩
    · exact ⟨[], token, by simp, rfl, h⟩
  · rintro ⟨sign, body, hsign, rfl, h⟩
    have hstrip : stripSign (sign ++ body) = body := by
      simp only [List.mem_cons, List.not_mem_nil, or_false] at hsign
      rcases hsign with rfl | rfl | rfl
      · have hne (c : Char) (hc : c.isDigit = false) (hdot : c ≠ '.') : body.head? ≠ some c := by
          intro hhead
          cases h.2 c (List.mem_of_head? hhead) with
          | inl hdigit => rw [hc] at hdigit; contradiction
          | inr heq => exact hdot heq
        rw [List.nil_append, stripSign, if_neg]
        exact not_or.mpr ⟨hne '+' (by decide) (by decide), hne '-' (by decide) (by decide)⟩
      · rfl
      · rfl
    rwa [hstrip]

/-- The grammar of amounts: what the input has to be for `d` to be its
number and `asset` its asset. -/
structure AmountInput (input : Str) (asset : LedgerAsset) (d : Numeral) : Prop where
  size : utf8Len input ≤ 640
  tokens : ∃ number assetText,
    (splitAsciiWhitespace input = [number, assetText] ∨
      splitAsciiWhitespace input = [assetText, number]) ∧
    NumericShaped number ∧ ¬ NumericShaped assetText ∧
    LedgerAsset.parse assetText = .ok asset ∧ d.text = number
  places : d.places.length ≤ asset.scale.toNat

theorem orderTokens_eq_ok {first second number assetText : Str} :
    LedgerAmount.orderTokens first second = .ok (number, assetText) ↔
      ([first, second] = [number, assetText] ∨ [first, second] = [assetText, number]) ∧
        NumericShaped number ∧ ¬ NumericShaped assetText := by
  rw [← looksNumeric_iff, ← looksNumeric_iff, LedgerAmount.orderTokens]
  simp only [List.cons.injEq, and_true]
  constructor
  · intro h
    split at h
    · next hfirst hsecond =>
      obtain ⟨rfl, rfl⟩ := Prod.mk.inj (Except.ok.inj h)
      exact ⟨.inl ⟨rfl, rfl⟩, hfirst, by simp [hsecond]⟩
    · next hfirst hsecond =>
      obtain ⟨rfl, rfl⟩ := Prod.mk.inj (Except.ok.inj h)
      exact ⟨.inr ⟨rfl, rfl⟩, hsecond, by simp [hfirst]⟩
    · contradiction
  · rintro ⟨⟨rfl, rfl⟩ | ⟨rfl, rfl⟩, hnumber, hasset⟩
    · simp [hnumber, hasset]
    · simp [hnumber, hasset]

/-! ## reading word by word -/

/-- An amount is read from its two words, in either order. -/
theorem LedgerAmount.parse_words {input number word : Str}
    (hwords : splitAsciiWhitespace input = [number, word] ∨
      splitAsciiWhitespace input = [word, number])
    (hnumber : looksNumeric number = true) {amount : LedgerAmount} :
    LedgerAmount.parse input = .ok amount ↔ utf8Len input ≤ 640 ∧ looksNumeric word = false ∧
      LedgerAsset.parse word = .ok amount.asset ∧
      decimalToUnits number amount.asset.scale = .ok amount.units := by
  have hread : LedgerAmount.parse input = .ok amount ↔ utf8Len input ≤ 640 ∧
      (LedgerAmount.orderTokens number word >>= fun tokens => LedgerAsset.parse tokens.2 >>=
        fun asset => decimalToUnits tokens.1 asset.scale >>= fun units => .ok ⟨asset, units⟩) =
          .ok amount := by
    rw [LedgerAmount.parse, guard_eq_ok, Nat.not_lt]
    rcases hwords with hwords | hwords
    · rw [hwords]
    · rw [hwords]
      cases hword : looksNumeric word with
      | true => simp only [orderTokens, hnumber, hword, error_bind]
      | false => simp only [orderTokens, hnumber, hword, ok_bind]
  rw [hread]
  refine and_congr_right fun _ => ?_
  cases hword : looksNumeric word with
  | true => simp [orderTokens, hnumber, hword]
  | false =>
      simp only [orderTokens, hnumber, hword, ok_bind, true_and, bind_eq_ok]
      constructor
      · rintro ⟨asset, hasset, units, hunits, hamount⟩
        obtain rfl := Except.ok.inj hamount
        exact ⟨hasset, hunits⟩
      · rintro ⟨hasset, hunits⟩
        exact ⟨amount.asset, hasset, amount.units, hunits, rfl⟩

/-- The grammar determines what is read. -/
theorem LedgerAmount.parse_eq_ok {input : Str} {amount : LedgerAmount} :
    LedgerAmount.parse input = .ok amount ↔ ∃ d, AmountInput input amount.asset d ∧
      (amount.units : ℚ) = d.value * 10 ^ amount.asset.scale.toNat := by
  constructor
  · intro h
    obtain ⟨number, word, hwords, hnumber⟩ : ∃ number word,
        (splitAsciiWhitespace input = [number, word] ∨
          splitAsciiWhitespace input = [word, number]) ∧ looksNumeric number = true := by
      obtain ⟨-, htokens⟩ := guard_eq_ok.mp h
      split at htokens
      · next first second htwo =>
        obtain ⟨⟨number, word⟩, horder, -⟩ := bind_eq_ok.mp htokens
        obtain ⟨hpair, hnumber, -⟩ := orderTokens_eq_ok.mp horder
        rw [← htwo] at hpair
        exact ⟨number, word, hpair, looksNumeric_iff.mpr hnumber⟩
      · contradiction
    obtain ⟨hsize, hword, hasset, hunits⟩ := (parse_words hwords hnumber).mp h
    obtain ⟨d, htext, hplaces, hvalue⟩ := decimalToUnits_eq_ok.mp hunits
    rw [← Bool.not_eq_true, looksNumeric_iff] at hword
    exact ⟨d, ⟨hsize, ⟨number, word, hwords, looksNumeric_iff.mp hnumber, hword, hasset, htext⟩,
      hplaces⟩, hvalue⟩
  · rintro ⟨d, ⟨hsize, ⟨number, word, hwords, hnumber, hword, hasset, htext⟩, hplaces⟩, hvalue⟩
    rw [← looksNumeric_iff, Bool.not_eq_true] at hword
    exact (parse_words hwords (looksNumeric_iff.mpr hnumber)).mpr
      ⟨hsize, hword, hasset, decimalToUnits_eq_ok.mpr ⟨d, htext, hplaces, hvalue⟩⟩

/-! ## amount input -/

/-- **Amount input**: the reader accepts exactly its grammar, in either order
of the tokens, and returns the denoted number in units of the asset. -/
theorem parse_grammar (input : Str) :
    ((∃ amount, LedgerAmount.parse input = .ok amount) ↔
      ∃ asset d, AmountInput input asset d) ∧
    ∀ amount, LedgerAmount.parse input = .ok amount ↔ ∃ d, AmountInput input amount.asset d ∧
      (amount.units : ℚ) = d.value * 10 ^ amount.asset.scale.toNat := by
  refine ⟨⟨?_, ?_⟩, fun amount => LedgerAmount.parse_eq_ok⟩
  · rintro ⟨amount, h⟩
    obtain ⟨d, hinput, -⟩ := LedgerAmount.parse_eq_ok.mp h
    exact ⟨amount.asset, d, hinput⟩
  · rintro ⟨asset, d, h⟩
    obtain ⟨units, hunits⟩ := exists_decimalToUnits d h.places
    obtain ⟨e, htext, -, hvalue⟩ := decimalToUnits_eq_ok.mp hunits
    obtain rfl := Numeral.text_injective htext
    exact ⟨⟨asset, units⟩, LedgerAmount.parse_eq_ok.mpr ⟨e, h, hvalue⟩⟩

end PgLedger
