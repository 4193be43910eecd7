/-
  JsonPath.Proofs.Numerals — numerals of any length, converted a thousand digits at a time.

  A number is cut into chunks in two places that do not meet: reading cuts a numeral from
  the left, where the last chunk may be short, and writing peels the number from the
  right, where every chunk but the first is filled up with zeros. Neither cut can be told
  from what comes out (`JsonPath.Decimal`). So reading gives the value that the digits have
  in base ten, writing gives the numeral that has no zero to spare, and each undoes the
  other but for the zeros that a numeral began with.

  What the chunks are for is that no conversion in one piece is long. `valueWithin` and
  `textWithin` are what `value` and `text` are, but for conversions in one piece that are
  refused beyond a limit. At a thousand digits nothing is refused.

  Proved:
  - `ofDigits_eq`, `numeral_eq_toDigits`: values and numerals, digit by digit.
  - `exists_zeros`: a run of digits is the numeral of its value behind zeros.
  - `valueWithin_eq`, `textWithin_eq`: a thousand digits are enough.
  - `numerals_exact`, which says all of it.
-/

import JsonPath.Proofs.RoundTrip
import Mathlib.Data.Nat.Digits.Defs

namespace JsonPath.Decimal

open scoped Computability
open Lexicon

/-! ## Digit by digit -/

theorem ofDigits_eq (d : Text) : ofDigits d = Nat.ofDigits 10 (d.reverse.map CodePoint.digitValue) := by
  rw [ofDigits, Nat.ofDigits_eq_foldr, List.foldr_map, List.foldl_eq_foldr_reverse]
  simp only [Nat.cast_id, Nat.mul_comm, Nat.add_comm]

theorem digit_eq_digitChar {n : Nat} (h : n < 10) : CodePoint.digit n = .ofChar n.digitChar :=
  (by decide : ∀ n : Fin 10, CodePoint.digit n = .ofChar n.val.digitChar) ⟨n, h⟩

theorem numeral_eq_toDigits (n : Nat) : numeral n = (Nat.toDigits 10 n).map .ofChar := by
  fun_induction numeral n with
  | case1 n h => rw [Nat.toDigits_of_lt_base h, List.map_singleton, digit_eq_digitChar h]
  | case2 n h ih =>
    rw [Nat.toDigits_of_base_le (by decide) (Nat.le_of_not_lt h), List.map_append, List.map_singleton, ← ih,
      digit_eq_digitChar (Nat.mod_lt n (by decide))]

theorem numeral_zero : numeral 0 = [.ofChar '0'] := by
  rw [numeral]
  rfl

theorem length_numeral_le_iff {n k : Nat} (hk : 0 < k) : (numeral n).length ≤ k ↔ n < power k := by
  rw [numeral_eq_toDigits, List.length_map]
  exact Nat.length_toDigits_le_iff (by decide) hk

theorem digitValue_lt {c : CodePoint} (h : isDecimal c = true) : c.digitValue < 10 := by
  rw [← isDigit_eq] at h
  rw [CodePoint.digitValue, if_pos h]
  simp only [CodePoint.isDigit, CodePoint.between, Bool.and_eq_true, decide_eq_true_eq] at h
  have h9 : '9'.toNat = '0'.toNat + 9 := rfl
  omega

theorem digit_digitValue {c : CodePoint} (h : isDecimal c = true) : CodePoint.digit c.digitValue = c := by
  have hlt := digitValue_lt h
  rw [← isDigit_eq] at h
  rw [CodePoint.digitValue, if_pos h] at hlt ⊢
  simp only [CodePoint.isDigit, CodePoint.between, Bool.and_eq_true, decide_eq_true_eq] at h
  rw [CodePoint.digit, if_pos hlt, Nat.add_sub_cancel' h.1]
  exact CodePoint.ext (CodePoint.val_ofNat c.valid)

/-- One more digit behind a numeral: it makes the numeral longer, unless that was the numeral of zero. -/
theorem numeral_concat (n : Nat) {c : CodePoint} (h : isDecimal c = true) :
    numeral (n * 10 + c.digitValue) = if n = 0 then [c] else numeral n ++ [c] := by
  have hlt := digitValue_lt h
  rw [numeral]
  split
  · have hn : n = 0 := by omega
    rw [if_pos hn, hn, Nat.zero_mul, Nat.zero_add, digit_digitValue h]
  · have hn : n ≠ 0 := by omega
    have hdiv : (n * 10 + c.digitValue) / 10 = n := by omega
    have hmod : (n * 10 + c.digitValue) % 10 = c.digitValue := by omega
    rw [if_neg hn, hdiv, hmod, digit_digitValue h]

/-! ## Zeros in front -/

/-- A run of digits is the numeral of its value, with zeros in front. -/
theorem exists_zeros {d : Text} (h : d ∈ oneOrMore (one isDecimal)) :
    ∃ k, d = List.replicate k (.ofChar '0') ++ numeral (ofDigits d) := by
  obtain ⟨hne, hall⟩ := mem_oneOrMore_one.mp h
  clear h
  induction d using List.reverseRecOn with
  | nil => exact absurd rfl hne
  | append_singleton e c ih =>
    rw [List.forall_mem_append, List.forall_mem_singleton] at hall
    have hvalue : ofDigits (e ++ [c]) = ofDigits e * 10 + c.digitValue := by
      rw [ofDigits_append, List.length_singleton, power_one]
      simp [ofDigits]
    rw [hvalue, numeral_concat _ hall.2]
    by_cases he : e = []
    · subst he
      exact ⟨0, rfl⟩
    · obtain ⟨k, hk⟩ := ih he hall.1
      split
      · rename_i hzero
        rw [hzero, numeral_zero, ← List.replicate_succ'] at hk
        exact ⟨k + 1, by rw [← hk]⟩
      · exact ⟨k, by rw [← List.append_assoc, ← hk]⟩

theorem power_mem_unsigned (k : Nat) : .ofChar '1' :: List.replicate k (.ofChar '0') ∈ Lexicon.unsigned := by
  have hone : [CodePoint.ofChar '1'] ∈ one (inRanges [('1', '9')]) := ⟨_, by decide, rfl⟩
  have hzeros : List.replicate k (CodePoint.ofChar '0') ∈ (one isDecimal)∗ := mem_star_one.mpr fun c hc => by
    rw [List.eq_of_mem_replicate hc]
    decide
  exact .inr (Language.append_mem_mul hone hzeros)

/-- An unsigned that begins with a zero is zero. -/
theorem eq_nil_of_mem_unsigned {r : Text} (h : .ofChar '0' :: r ∈ Lexicon.unsigned) : r = [] := by
  rcases h with h | h
  · exact (List.cons.inj h).2
  · obtain ⟨_, ⟨c, hc, rfl⟩, b, -, heq⟩ := Language.mem_mul.mp h
    rw [(List.cons.inj heq).1] at hc
    exact absurd hc (by decide)

/-- A numeral with no zero to spare is written again as it was read. -/
theorem text_value {d : Text} (h : d ∈ Lexicon.unsigned) : text (value d) = d := by
  rw [value_eq_ofDigits]
  obtain ⟨k, hk⟩ := exists_zeros (mem_oneOrMore_of_unsigned h)
  rw [← text_eq_numeral] at hk
  cases k with
  | zero => exact hk.symm
  | succ k =>
    obtain ⟨c, rest, hc, -⟩ := starts_of_mem_unsigned (text_mem (ofDigits d))
    rw [hk, List.replicate_succ, List.cons_append] at h
    have hnil := eq_nil_of_mem_unsigned h
    rw [hc] at hnil
    exact absurd hnil (by simp)

/-! ## Conversions of bounded length -/

/-- The value of a numeral, in one piece and if it has at most `limit` digits. -/
def ofDigitsWithin (limit : Nat) (t : Text) : Option Nat :=
  if isUnsigned t && t.length ≤ limit then some (ofDigits t) else none

/-- The numeral of a number, in one piece and if it has at most `limit` digits. -/
def numeralWithin (limit n : Nat) : Option Text :=
  if (numeral n).length ≤ limit then some (numeral n) else none

/-- `value` with conversions that are refused beyond the limit. -/
def valueWithin (limit : Nat) (digits : Text) : Option Nat := valueBy (ofDigitsWithin limit) digits

/-- `text` with conversions that are refused beyond the limit. -/
def textWithin (limit n : Nat) : Option Text := textBy (numeralWithin limit) n

theorem of_mem_chunks {digits chunk : Text} (h : chunk ∈ chunks digits) :
    chunk ≠ [] ∧ chunk.length ≤ chunkLength ∧ ∀ c ∈ chunk, c ∈ digits := by
  fun_induction chunks digits with
  | case1 => cases h
  | case2 digits hne ih =>
    rcases List.mem_cons.mp h with rfl | h
    · refine ⟨?_, List.length_take_le .., fun c hc => List.mem_of_mem_take hc⟩
      simp [hne, chunkLength]
    · obtain ⟨hchunk, hlength, hmem⟩ := ih h
      exact ⟨hchunk, hlength, fun c hc => List.mem_of_mem_drop (hmem c hc)⟩

theorem ofDigitsWithin_chunk {digits chunk : Text} (hd : digits ∈ oneOrMore (one isDecimal))
    (h : chunk ∈ chunks digits) : ofDigitsWithin chunkLength chunk = some (ofDigits chunk) := by
  obtain ⟨hne, hlength, hmem⟩ := of_mem_chunks h
  have hall := (mem_oneOrMore_one.mp hd).2
  have hunsigned : isUnsigned chunk = true :=
    isUnsigned_iff.mpr (mem_oneOrMore_one.mpr ⟨hne, fun c hc => hall c (hmem c hc)⟩)
  rw [ofDigitsWithin, hunsigned, Bool.true_and, if_pos (decide_eq_true hlength)]

theorem valueWithin_eq {digits : Text} (h : digits ∈ oneOrMore (one isDecimal)) :
    valueWithin chunkLength digits = some (value digits) := by
  rw [value_eq_ofDigits]
  exact valueBy_eq fun _ hchunk => ofDigitsWithin_chunk h hchunk

theorem numeralWithin_chunk {n : Nat} (h : n < chunkBase) : numeralWithin chunkLength n = some (numeral n) := by
  have hlength : (numeral n).length ≤ chunkLength := (length_numeral_le_iff (by decide : 0 < chunkLength)).mpr h
  rw [numeralWithin, if_pos hlength]

theorem textWithin_eq (n : Nat) : textWithin chunkLength n = some (text n) := by
  rw [text_eq_numeral]
  exact textBy_eq (fun _ => numeralWithin_chunk) n

/-! ## Reading and writing -/

/-- Reading gives the value in base ten, and nothing where there is anything but digits.
    Writing gives the numeral. What is read and written has lost its zeros in front and no
    more, what is written and read has lost nothing, and neither converts more than a chunk
    at once. -/
theorem numerals_exact :
    (∀ d ∈ oneOrMore (one isDecimal),
      value? d = some (Nat.ofDigits 10 (d.reverse.map CodePoint.digitValue)) ∧
      text (value d) ∈ Lexicon.unsigned ∧ (∃ k, d = List.replicate k (.ofChar '0') ++ text (value d)) ∧
      (d ∈ Lexicon.unsigned → text (value d) = d) ∧
      valueWithin chunkLength d = some (value d)) ∧
    (∀ n : Nat, textInt n = .ok (text n) ∧ text n = (Nat.toDigits 10 n).map .ofChar ∧ value? (text n) = some n ∧
      textWithin chunkLength n = some (text n)) ∧
    ∀ d ∉ oneOrMore (one isDecimal), value? d = none ∧
      ∀ kind, Label.index.combine [.leaf ⟨kind, d⟩] = .error (.notUnsigned d) := by
  refine ⟨fun d hd => ⟨?_, text_mem _, ?_, text_value, valueWithin_eq hd⟩,
    fun n => ⟨rfl, ?_, value?_text n, textWithin_eq n⟩, fun d hd => ?_⟩
  · rw [value?, if_pos (isUnsigned_iff.mpr hd), value_eq_ofDigits, ofDigits_eq]
  · rw [value_eq_ofDigits, text_eq_numeral]
    exact exists_zeros hd
  · rw [text_eq_numeral, numeral_eq_toDigits]
  · have hnone : value? d = none := if_neg fun h => hd (isUnsigned_iff.mp h)
    refine ⟨hnone, fun kind => ?_⟩
    simp only [Label.combine, Meaning.toText, Bind.bind, Except.bind, hnone]
    rfl

theorem numerals_exact_of_power :
    let d : Text := .ofChar '1' :: List.replicate 1000 (.ofChar '0')
    d ∈ oneOrMore (one isDecimal) ∧ value? d = some (Nat.ofDigits 10 (d.reverse.map CodePoint.digitValue)) ∧
      text (value d) = d ∧ valueWithin chunkLength d = some (value d) ∧
      ("1_0" : Text) ∉ oneOrMore (one isDecimal) ∧ value? "1_0" = none := by
  intro d
  have hd : d ∈ Lexicon.unsigned := power_mem_unsigned 1000
  have hgroup : ("1_0" : Text) ∉ oneOrMore (one isDecimal) := by
    rw [mem_oneOrMore_one]
    decide
  have hdigits := mem_oneOrMore_of_unsigned hd
  obtain ⟨read, -, refused⟩ := numerals_exact
  obtain ⟨hvalue, -, -, hsame, hwithin⟩ := read d hdigits
  exact ⟨hdigits, hvalue, hsame hd, hwithin, hgroup, (refused _ hgroup).1⟩

end JsonPath.Decimal
