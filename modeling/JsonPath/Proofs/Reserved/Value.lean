/-
  JsonPath.Proofs.Reserved.Value — what the numbers that are read are worth.

  Two pieces of code look at the text of a number and know nothing of each other. Reading
  takes a whole, a fraction and an exponent, the last two only where digits follow their
  marks. The value looks for a point or an exponent mark anywhere, and then converts what
  may have been built by hand: space around it, digits of other scripts, underscores. On a
  text that was read they agree. A mark stands in it only where a part is (`Parts`), nothing
  that only a text built by hand has stands in it at all, and what is converted are its parts.

  Only the digits are not limited where they are read. An integer that has too many of them
  cannot be converted in one piece, and that is the one error that is left.

  Proved:
  - `Parts.isDouble_iff`: a mark is a part.
  - `Parts.integer?_eq`, `Parts.double?_eq`: what is converted.
  - `number_value`, from these.
-/

import JsonPath.Proofs.Numerals
import JsonPath.Proofs.Reserved

namespace JsonPath

open scoped Computability
open Lexicon

/-! ## Runs at the front -/

namespace Lexicon

theorem oneOf_append {cs : List Char} {a rest : Text} (ha : a ∈ optional (one (inRanges (each cs))))
    (hrest : ∀ c ∈ rest.head?, inRanges (each cs) c = false) : Lexeme.oneOf (cs.map .ofChar) (a ++ rest) = a := by
  rcases ha with rfl | ⟨c, hc, rfl⟩
  · cases rest with
    | nil => rfl
    | cons d rest => exact oneOf_cons_ne (hrest d rfl) rest
  · exact oneOf_cons hc rest

theorem digits_append {a rest : Text} (ha : ∀ c ∈ a, isDecimal c = true) (hrest : ∀ c ∈ rest.head?, isDecimal c = false) :
    Lexeme.digits (a ++ rest) = a := by
  rw [digits_eq, List.takeWhile_append_of_pos ha]
  cases rest with
  | nil => exact List.append_nil a
  | cons d rest => rw [List.takeWhile_cons_of_neg (Bool.eq_false_iff.mp (hrest d rfl)), List.append_nil]

end Lexicon

namespace NumberLiteral

/-! ## Texts that are plain already -/

section

variable {c : CodePoint} {t : Text}

theorem plain_of_isOutside (h : isOutside c = true) : plain c = c := by
  have hascii : c.isAscii = true := by
    simp only [isOutside, CodePoint.isAscii, Bool.and_eq_true, decide_eq_true_eq] at h ⊢
    omega
  rw [plain, if_pos hascii]

theorem isSpace_of_isOutside (h : isOutside c = true) : isSpace c = false := by
  have htab : '\r'.toNat = 13 := rfl
  have hspace : c ≠ .ofChar ' ' := by
    rintro rfl
    revert h
    decide
  simp only [isOutside, Bool.and_eq_true, decide_eq_true_eq] at h
  simp only [isSpace, CodePoint.between, Bool.or_eq_false_iff, Bool.and_eq_false_iff, decide_eq_false_iff_not]
  exact ⟨hspace, .inr (by omega)⟩

theorem map_plain (h : ∀ c ∈ t, isOutside c = true) : t.map plain = t :=
  (List.map_congr_left fun c hc => plain_of_isOutside (h c hc)).trans (List.map_id t)

theorem dropWhile_isSpace (h : ∀ c ∈ t, isOutside c = true) : t.dropWhile isSpace = t := by
  cases t with
  | nil => rfl
  | cons c t => exact List.dropWhile_cons_of_neg (Bool.eq_false_iff.mp (isSpace_of_isOutside (h c List.mem_cons_self)))

theorem trim_eq (h : ∀ c ∈ t, isOutside c = true) : trim t = t := by
  rw [trim, dropWhile_isSpace h, dropWhile_isSpace fun c hc => h c (List.mem_reverse.mp hc), List.reverse_reverse]

theorem ungroup?_eq (h : ∀ c ∈ t, c ≠ .ofChar '_') (b : Bool) : ungroup? b t = some t := by
  induction t generalizing b with
  | nil => rfl
  | cons c t ih =>
    rw [List.forall_mem_cons] at h
    rw [ungroup?, if_neg h.1, ih h.2, Option.map_some]

theorem ne_underscore_of_inNumber (h : inNumber c = true) : c ≠ .ofChar '_' := by
  rintro rfl
  revert h
  decide

theorem isDouble_eq : isDouble ⟨t⟩ = t.any (inRanges (each ['.', 'e', 'E'])) := by
  refine congrArg t.any (funext fun c => ?_)
  rw [Bool.eq_iff_iff, inRanges_each]
  simp only [Bool.or_eq_true, decide_eq_true_eq, List.mem_cons, List.not_mem_nil, or_false, exists_eq_or_imp,
    exists_eq_left, or_assoc]

/-- A sign in front of what does not begin with one. -/
theorem splitSign_append {a rest : Text} (ha : a ∈ optional (one (inRanges (each ['+', '-']))))
    (hrest : ∀ c ∈ rest.head?, inRanges (each ['+', '-']) c = false) :
    splitSign (a ++ rest) = (decide (a = Text.ofString "-"), rest) := by
  have hone : Lexeme.oneOf "+-" (a ++ rest) = a := oneOf_append ha hrest
  rw [splitSign, hone]
  rcases ha with rfl | ⟨c, hc, rfl⟩
  · rfl
  · rfl

end

/-! ## Parts -/

/-- A text cut into the parts of a number. All but the whole may be empty. -/
structure Parts (m : Text) where
  minus : Text
  whole : Text
  fraction : Text
  exponent : Text
  minus_mem : minus ∈ optional (word "-")
  whole_mem : whole ∈ Lexicon.unsigned
  fraction_mem : fraction ∈ optional Lexicon.fraction
  exponent_mem : exponent ∈ optional Lexicon.exponent
  text_eq : m = minus ++ (whole ++ (fraction ++ exponent))

namespace Parts

theorem nonempty_of_mem {m : Text} (h : m ∈ Atom.language .number) : Nonempty (Parts m) := by
  obtain ⟨minus, hminus, _, hunsigned, rfl⟩ := Language.mem_mul.mp h
  obtain ⟨whole, hwhole, _, htail, rfl⟩ := Language.mem_mul.mp hunsigned
  obtain ⟨fraction, hfraction, exponent, hexponent, rfl⟩ := Language.mem_mul.mp htail
  exact ⟨⟨minus, whole, fraction, exponent, hminus, hwhole, hfraction, hexponent, rfl⟩⟩

variable {m : Text} (p : Parts m)

include p

theorem mem : m ∈ Atom.language .number :=
  p.text_eq ▸ Language.append_mem_mul p.minus_mem
    (Language.append_mem_mul p.whole_mem (Language.append_mem_mul p.fraction_mem p.exponent_mem))

theorem isOutside : ∀ c ∈ m, isOutside c = true := Terminal.isOutside_of_mem (t := .atom .number) nofun p.mem

theorem ne_underscore : ∀ c ∈ m, c ≠ .ofChar '_' := fun c hc => ne_underscore_of_inNumber (inNumber_of_mem p.mem c hc)

theorem whole_ne_nil : p.whole ≠ [] := (mem_oneOrMore_one.mp (mem_oneOrMore_of_unsigned p.whole_mem)).1

/-- The integer that the sign and the whole are in base ten. -/
def integer : Int :=
  let n : Nat := Nat.ofDigits 10 (p.whole.reverse.map CodePoint.digitValue)
  if p.minus = [] then n else -n

theorem splitSign_eq : splitSign m = (decide (p.minus = Text.ofString "-"), p.whole ++ (p.fraction ++ p.exponent)) := by
  have hsign : p.minus ∈ optional (one (inRanges (each ['+', '-']))) := by
    rcases p.minus_mem with h | h
    · exact .inl h
    · exact .inr ⟨_, by decide, h⟩
  have hhead : ∀ c ∈ (p.whole ++ (p.fraction ++ p.exponent)).head?, inRanges (each ['+', '-']) c = false := by
    obtain ⟨c, rest, hwhole, hc⟩ := starts_of_mem_unsigned p.whole_mem
    rw [hwhole]
    rintro _ ⟨⟩
    exact inRanges_each_of_isDecimal (by decide) hc
  rw [← splitSign_append hsign hhead, ← p.text_eq]

theorem tail_head : ∀ c ∈ (p.fraction ++ p.exponent).head?, isDecimal c = false := by
  intro c hc
  obtain ⟨b, hb⟩ := List.head?_eq_some_iff.mp hc
  have hmem := Language.append_mem_mul p.fraction_mem p.exponent_mem
  rw [hb] at hmem
  exact eq_false_of_each (by decide) (starts_of_mem_tail hmem)

/-! ## Integers -/

theorem integer_eq : p.integer =
    if p.minus = Text.ofString "-" then -(Decimal.ofDigits p.whole : Int) else Decimal.ofDigits p.whole := by
  rw [integer, Decimal.ofDigits_eq]
  rcases p.minus_mem with h | h
  · rw [h]
    rfl
  · rw [h]
    rfl

theorem integer?_eq (hf : p.fraction = []) (he : p.exponent = []) :
    integer? m = if Decimal.digitLimit < p.whole.length then .error (.numeral p.whole.length) else .ok (some p.integer) := by
  have hdecimal := isDecimal_of_mem_unsigned p.whole_mem
  have hrun : ∀ c ∈ p.whole, (c.isDigit || decide (c = CodePoint.ofChar '_')) = true := fun c hc => by
    rw [isDigit_eq, hdecimal c hc, Bool.true_or]
  have htake : p.whole.takeWhile (fun c => c.isDigit || decide (c = CodePoint.ofChar '_')) = p.whole :=
    List.takeWhile_eq_self_iff.mpr hrun
  have hdrop : p.whole.dropWhile (fun c => c.isDigit || decide (c = CodePoint.ofChar '_')) = [] :=
    List.dropWhile_eq_nil_iff.mpr hrun
  have hplain : ungroup? false p.whole = some p.whole :=
    ungroup?_eq (fun c hc => ne_underscore_of_inNumber (inNumber_of_isDecimal (hdecimal c hc))) false
  -- the whole is all that is left behind the sign, so its run of digits ends with the text
  rw [integer?, dropWhile_isSpace p.isOutside, p.splitSign_eq, hf, he, List.append_nil, List.append_nil, p.integer_eq]
  simp only [htake, hdrop, hplain]
  split
  · rename_i h
    cases h
  · rename_i h
    exact absurd (Option.some.inj h) p.whole_ne_nil
  · rename_i digits _ h
    obtain rfl := Option.some.inj h
    simp

/-! ## Doubles -/

/-- The point and the digits behind it are the fraction. -/
theorem point_eq : Lexeme.oneOf "." (p.fraction ++ p.exponent) = p.fraction.take 1 ∧
    (if p.fraction.take 1 = [] then [] else Lexeme.digits ((p.fraction ++ p.exponent).drop (p.fraction.take 1).length)) =
      p.fraction.drop 1 := by
  have hexponent : ∀ c ∈ p.exponent.head?, inRanges (each ['e', 'E']) c = true := by
    intro c hc
    obtain ⟨b, hb⟩ := List.head?_eq_some_iff.mp hc
    exact starts_of_mem_exponent (hb ▸ p.exponent_mem)
  -- an exponent begins with neither a point nor a digit, so the fraction ends where it does
  rcases p.fraction_mem with h | h
  · obtain h : p.fraction = [] := h
    rw [h]
    have hpoint : ∀ c ∈ p.exponent.head?, inRanges (each ['.']) c = false :=
      fun c hc => eq_false_of_each (by decide) (hexponent c hc)
    exact ⟨oneOf_append (.inl rfl) hpoint, rfl⟩
  · obtain ⟨_, rfl, ds, hds, h⟩ := Language.mem_mul.mp h
    have hpoint : inRanges (each ['.']) (.ofChar '.') = true := by decide
    rw [← h]
    exact ⟨oneOf_cons hpoint _, digits_append (mem_oneOrMore_one.mp hds).2 fun c hc =>
      eq_false_of_each (by decide) (hexponent c hc)⟩

theorem exponent?_eq : ∃ i, exponent? p.exponent = some i := by
  rcases p.exponent_mem with h | h
  · obtain h : p.exponent = [] := h
    rw [h]
    exact ⟨0, rfl⟩
  · obtain ⟨_, ⟨mark, hmark, rfl⟩, _, htail, h⟩ := Language.mem_mul.mp h
    obtain ⟨sign, hsign, ds, hds, rfl⟩ := Language.mem_mul.mp htail
    have hone : Lexeme.oneOf "eE" (mark :: (sign ++ ds)) = [mark] := oneOf_cons hmark _
    have hsplit := splitSign_append hsign fun c hc => inRanges_each_of_isDecimal (by decide)
      ((mem_oneOrMore_one.mp hds).2 c (List.mem_of_mem_head? hc))
    rw [← h, List.singleton_append, exponent?, hone]
    simp only [List.length_singleton, List.drop_succ_cons, List.drop_zero, hsplit, Decimal.isUnsigned_iff.mpr hds, if_true]
    exact ⟨_, rfl⟩

theorem double?_eq : ∃ i, exponent? p.exponent = some i ∧ double? m =
    some (.ofDecimal (decide (p.minus = Text.ofString "-")) (Decimal.value (p.whole ++ p.fraction.drop 1))
      (i - (p.fraction.drop 1).length)) := by
  obtain ⟨i, hi⟩ := p.exponent?_eq
  obtain ⟨hpoint, hfraction⟩ := p.point_eq
  refine ⟨i, hi, ?_⟩
  have hwhole := digits_append (isDecimal_of_mem_unsigned p.whole_mem) p.tail_head
  have hne : p.whole ++ p.fraction.drop 1 ≠ [] := List.append_ne_nil_of_left_ne_nil p.whole_ne_nil _
  simp only [double?, ungroup?_eq p.ne_underscore, Option.bind_eq_bind, Option.bind_some, p.splitSign_eq, hwhole,
    List.drop_left, hpoint, hfraction, if_neg hne, List.take_append_drop, hi]
  rfl

/-! ## Marks -/

/-- There is a mark only where there is a part. -/
theorem isDouble_iff : isDouble ⟨m⟩ = false ↔ p.fraction = [] ∧ p.exponent = [] := by
  have hminus : p.minus.any (inRanges (each ['.', 'e', 'E'])) = false := by
    rcases p.minus_mem with h | h
    · rw [show p.minus = [] from h]
      rfl
    · rw [show p.minus = Text.ofString "-" from h]
      decide
  have hwhole : p.whole.any (inRanges (each ['.', 'e', 'E'])) = false := List.any_eq_false.mpr fun c hc =>
    Bool.eq_false_iff.mp (inRanges_each_of_isDecimal (by decide) (isDecimal_of_mem_unsigned p.whole_mem c hc))
  have htail : (p.fraction ++ p.exponent).any (inRanges (each ['.', 'e', 'E'])) = false ↔
      p.fraction ++ p.exponent = [] := by
    have hmem := Language.append_mem_mul p.fraction_mem p.exponent_mem
    cases ht : p.fraction ++ p.exponent with
    | nil => simp
    | cons c b =>
      rw [ht] at hmem
      simp [starts_of_mem_tail hmem]
  rw [isDouble_eq]
  conv => lhs; rw [p.text_eq]
  rw [List.any_append, List.any_append, hminus, hwhole, Bool.false_or, Bool.false_or, htail, List.append_eq_nil_iff]

theorem value_of_integer (hf : p.fraction = []) (he : p.exponent = []) : value ⟨m⟩ =
    if p.whole.length ≤ Decimal.digitLimit then .ok (.integer p.integer)
    else .error (.tooLong (.numeral p.whole.length)) := by
  rw [value, p.isDouble_iff.mpr ⟨hf, he⟩, map_plain p.isOutside, p.integer?_eq hf he]
  by_cases hlimit : p.whole.length ≤ Decimal.digitLimit
  · simp only [if_neg (Nat.not_lt.mpr hlimit), if_pos hlimit]
    rfl
  · simp only [if_pos (Nat.lt_of_not_le hlimit), if_neg hlimit]
    rfl

theorem value_of_double (h : ¬(p.fraction = [] ∧ p.exponent = [])) : ∃ d, value ⟨m⟩ = .ok (.double d) := by
  obtain ⟨i, -, hdouble⟩ := p.double?_eq
  have hmark : isDouble ⟨m⟩ = true := Bool.ne_false_iff.mp fun hfalse => h (p.isDouble_iff.mp hfalse)
  rw [value, hmark, map_plain p.isOutside, trim_eq p.isOutside, hdouble]
  exact ⟨_, rfl⟩

end Parts

end NumberLiteral

/-! ## Numbers that were read -/

open NumberLiteral in
/-- A number that was read is an integer where its text has neither a fraction nor an
    exponent, the one that its sign and its digits are, if there are no more of them than
    can be converted in one piece. Otherwise it is a double. That it has too many digits is
    the only error. -/
theorem number_value (s : Text) (x : Expression) (h : readExpression .number s = .ok x) :
    ∃ n : NumberLiteral, x = .number n ∧ Nonempty (Parts n.text) ∧ ∀ p : Parts n.text,
      (n.isDouble = false ↔ p.fraction = [] ∧ p.exponent = []) ∧
      (p.fraction = [] ∧ p.exponent = [] → n.value =
        if p.whole.length ≤ Decimal.digitLimit then .ok (.integer p.integer)
        else .error (.tooLong (.numeral p.whole.length))) ∧
      (¬(p.fraction = [] ∧ p.exponent = []) → ∃ d, n.value = .ok (.double d)) ∧
      ∀ e, n.value = .error e → e = .tooLong (.numeral p.whole.length) := by
  obtain ⟨_, -, m, hm, _, -, -, hsays⟩ := Reserved.says_of_readExpression (r := .number) h
  cases hsays
  refine ⟨⟨m⟩, rfl, Parts.nonempty_of_mem hm, fun p => ⟨p.isDouble_iff, fun ⟨hf, he⟩ => p.value_of_integer hf he,
    p.value_of_double, fun e herror => ?_⟩⟩
  by_cases hparts : p.fraction = [] ∧ p.exponent = []
  · rw [p.value_of_integer hparts.1 hparts.2] at herror
    split at herror
    · cases herror
    · exact (Except.error.inj herror).symm
  · obtain ⟨d, hd⟩ := p.value_of_double hparts
    rw [hd] at herror
    cases herror

theorem number_value_of_too_many_digits :
    (readExpression .number "\t-1.50e+3" = .ok (.number ⟨"-1.50e+3"⟩) ∧
      ∃ d, NumberLiteral.value ⟨"-1.50e+3"⟩ = .ok (.double d)) ∧
    (readExpression .number " -100 " = .ok (.number ⟨"-100"⟩) ∧ NumberLiteral.value ⟨"-100"⟩ = .ok (.integer (-100))) ∧
    let m : Text := .ofChar '1' :: List.replicate 4300 (.ofChar '0')
    readExpression .number m = .ok (.number ⟨m⟩) ∧ NumberLiteral.value ⟨m⟩ = .error (.tooLong (.numeral 4301)) := by
  have hdouble : readExpression .number "\t-1.50e+3" = .ok (.number ⟨"-1.50e+3"⟩) := by decide +kernel
  have hinteger : readExpression .number " -100 " = .ok (.number ⟨"-100"⟩) := by decide +kernel
  refine ⟨⟨hdouble, ?_⟩, ⟨hinteger, ?_⟩, ?_⟩
  · obtain ⟨_, ⟨⟩, ⟨p⟩, hvalue⟩ := number_value _ _ hdouble
    obtain ⟨hmark, -, double, -⟩ := hvalue p
    exact double fun hnone => absurd (hmark.mpr hnone) (by decide)
  · let p : NumberLiteral.Parts "-100" :=
      ⟨"-", "100", [], [], .inr rfl, Decimal.power_mem_unsigned 2, .inl rfl, .inl rfl, rfl⟩
    obtain ⟨_, ⟨⟩, -, hvalue⟩ := number_value _ _ hinteger
    obtain ⟨-, integer, -⟩ := hvalue p
    exact integer ⟨rfl, rfl⟩
  · intro m
    have hnil : [] ∈ blank∗ := Language.nil_mem_kstar _
    let p : NumberLiteral.Parts m :=
      ⟨[], m, [], [], .inl rfl, Decimal.power_mem_unsigned 4300, .inl rfl, .inl rfl, by simp⟩
    have hread := Reserved.readExpression_word hnil p.mem hnil (.number m)
    rw [List.nil_append, List.append_nil] at hread
    refine ⟨hread, ?_⟩
    obtain ⟨_, ⟨⟩, -, hvalue⟩ := number_value _ _ hread
    obtain ⟨-, integer, -⟩ := hvalue p
    have hlength : p.whole.length = 4301 := by rw [List.length_cons, List.length_replicate]
    have hvalue := integer ⟨rfl, rfl⟩
    rwa [hlength, if_neg (by decide)] at hvalue

end JsonPath
