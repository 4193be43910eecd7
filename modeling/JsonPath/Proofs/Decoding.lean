/-
  JsonPath.Proofs.Decoding — quoted literals that are read can be decoded, and those that are written can be read.

  Reading takes a literal unit by unit. Decoding cuts it differently: two `\u` units in a
  row may be one code point. It never cuts through a unit though, since what follows a
  `\u` unit begins with another one only where that is a whole unit of the literal.

  Reading and decoding know the escapes of one letter from two tables, which agree.

  Proved: `decode_ok` for what is read, `encode_mem` for what is written.
-/

import JsonPath.Key.Quoted
import JsonPath.Proofs.Lexicon.Longest

namespace JsonPath.Lexicon

open scoped Computability
open Key.Quoted

/-- The escapes of one letter that a scan takes are those that decoding knows. -/
theorem mem_simpleEscapes_iff {e : CodePoint} : e ∈ Lexeme.simpleEscapes ↔ ∃ plain, unescape? e = some plain := by
  rw [mem_simpleEscapes, isEscaped, inRanges_each]
  simp only [List.mem_cons, List.not_mem_nil, or_false, exists_eq_or_imp, exists_eq_left]
  unfold unescape?
  split_ifs <;> simp_all

theorem codeUnit?_of_hexadecimal {a b c d : CodePoint} (h : isHexadecimal a = true ∧ isHexadecimal b = true ∧
    isHexadecimal c = true ∧ isHexadecimal d = true) (rest : Text) :
    ∃ u, codeUnit? (a :: b :: c :: d :: rest) = some (u, rest) := by
  simp only [← isHexDigit_eq] at h
  exact ⟨_, if_pos h⟩

/-- A body can be decoded, and also behind a `\u` escape that it begins with. -/
def Decodes (body : Text) : Prop :=
  (∃ name, decodeBody body = .ok name) ∧
    ∀ u rest, unicodeEscape? body = some (u, rest) → ∃ name, decodeBody rest = .ok name

theorem decodes_plain {c : CodePoint} (h : isPlain c = true) {rest : Text} (hr : Decodes rest) : Decodes (c :: rest) := by
  have hne : c ≠ .ofChar '\\' := ne_of_isPlain h (by simp)
  obtain ⟨⟨name, hname⟩, -⟩ := hr
  refine ⟨⟨c :: name, ?_⟩, fun u more hu => ?_⟩
  · rw [decodeBody_plain hne, hname]
    rfl
  · cases rest with
    | nil => cases hu
    | cons d rest => simp [unicodeEscape?, hne] at hu

theorem decodes_escape {e : CodePoint} (h : isEscaped e = true) {rest : Text} (hr : Decodes rest) :
    Decodes (.ofChar '\\' :: e :: rest) := by
  have hne : e ≠ .ofChar 'u' := by
    rintro rfl
    revert h
    decide
  obtain ⟨plain, hplain⟩ := mem_simpleEscapes_iff.mp (mem_simpleEscapes.mpr h)
  obtain ⟨⟨name, hname⟩, -⟩ := hr
  refine ⟨⟨plain :: name, ?_⟩, fun u more hu => ?_⟩
  · have hescape : unescape (e :: rest) = .ok (plain, rest) := by simp only [unescape, hplain]
    rw [decodeBody_escape hescape, hname]
    rfl
  · simp [unicodeEscape?, hne] at hu

theorem decodes_unicode {a b c d : CodePoint} (h : isHexadecimal a = true ∧ isHexadecimal b = true ∧
    isHexadecimal c = true ∧ isHexadecimal d = true) {rest : Text} (hr : Decodes rest) :
    Decodes (.ofChar '\\' :: .ofChar 'u' :: a :: b :: c :: d :: rest) := by
  obtain ⟨unit, hunit⟩ := codeUnit?_of_hexadecimal h rest
  have hu : unescape? (.ofChar 'u') = none := by decide
  refine ⟨?_, fun u more hmore => ?_⟩
  · have hescape : ∃ x more, unescape (.ofChar 'u' :: a :: b :: c :: d :: rest) = .ok (x, more) ∧
        ∃ name, decodeBody more = .ok name := by
      simp only [unescape, hu, hunit, if_true]
      cases hlow : unicodeEscape? rest with
      | none => exact ⟨unit, rest, rfl, hr.1⟩
      | some p =>
        obtain ⟨low, more⟩ := p
        by_cases hs : unit.isHighSurrogate = true ∧ low.isLowSurrogate = true
        · exact ⟨joinSurrogates unit low, more, if_pos hs, hr.2 low more hlow⟩
        · exact ⟨unit, rest, if_neg hs, hr.1⟩
    obtain ⟨x, more, hx, name, hname⟩ := hescape
    refine ⟨x :: name, ?_⟩
    rw [decodeBody_escape hx, hname]
    rfl
  · have : unicodeEscape? (.ofChar '\\' :: .ofChar 'u' :: a :: b :: c :: d :: rest) = some (unit, rest) := by
      simp only [unicodeEscape?, hunit, and_self, if_true]
    rw [this, Option.some.injEq, Prod.mk.injEq] at hmore
    rw [← hmore.2]
    exact hr.1

theorem decodes_of_mem {body : Text} (h : body ∈ quotedUnit∗) : Decodes body := by
  refine star_induction (p := Decodes) ⟨⟨[], by simp [decodeBody]⟩, nofun⟩ (fun a ha b hb => ?_) h
  rcases mem_quotedUnit ha with ⟨c, hc, rfl⟩ | ⟨e, he, rfl⟩ | ⟨h₁, h₂, h₃, h₄, hd, rfl⟩
  · exact decodes_plain hc hb
  · exact decodes_escape he hb
  · exact decodes_unicode hd hb

theorem decode_ok {w : Text} (h : w ∈ Atom.language .quoted) : ∃ name, decode w = .ok name := by
  obtain ⟨_, rfl, _, hrest, rfl⟩ := Language.mem_mul.mp h
  obtain ⟨body, hbody, _, rfl, rfl⟩ := Language.mem_mul.mp hrest
  obtain ⟨name, hname⟩ := (decodes_of_mem hbody).1
  refine ⟨name, ?_⟩
  show decode ("'" ++ (body ++ "'")) = _
  rw [← List.append_assoc, decode, body?_quotes]
  exact hname

/-! ## Literals that are written -/

theorem escapeLetter?_isEscaped {c e : CodePoint} (h : escapeLetter? c = some e) : isEscaped e = true :=
  mem_simpleEscapes.mp (mem_simpleEscapes_iff.mpr ⟨c, unescape?_escapeLetter? h⟩)

theorem isPlain_of_escapeLetter?_none {c : CodePoint} (h : escapeLetter? c = none) : isPlain c = true := by
  rw [isPlain, Bool.not_eq_true', Bool.eq_false_iff]
  intro hc
  have hsome : (escapeLetter? c).isNone = false := eq_false_of_each (p := fun c => (escapeLetter? c).isNone) (by decide) hc
  rw [h] at hsome
  cases hsome

theorem hex_isHexadecimal {n : Nat} (h : n < 0x20) : ∃ a b c d, Text.hex 4 n = [a, b, c, d] ∧
    isHexadecimal a = true ∧ isHexadecimal b = true ∧ isHexadecimal c = true ∧ isHexadecimal d = true := by
  refine ⟨_, _, _, _, rfl, ?_⟩
  have hall : ∀ n : Fin 0x20, isHexadecimal (.digit (n.val / 16 / 16 / 16 % 16)) = true ∧
      isHexadecimal (.digit (n.val / 16 / 16 % 16)) = true ∧ isHexadecimal (.digit (n.val / 16 % 16)) = true ∧
      isHexadecimal (.digit (n.val % 16)) = true := by
    decide
  exact hall ⟨n, h⟩

theorem encodeOne_mem (c : CodePoint) : encodeOne c ∈ quotedUnit := by
  unfold encodeOne
  split
  · rename_i e he
    exact escape_mem_quotedUnit (escapeLetter?_isEscaped he)
  · rename_i hn
    split
    · rename_i hc
      obtain ⟨a, b, d, e, hx, hd⟩ := hex_isHexadecimal hc
      rw [hx]
      exact unicode_mem_quotedUnit hd
    · exact plain_mem_quotedUnit (isPlain_of_escapeLetter?_none hn)

theorem encode_mem (name : Text) : encode name ∈ Atom.language .quoted := by
  have hbody : name.flatMap encodeOne ∈ quotedUnit∗ := by
    induction name with
    | nil => exact Language.nil_mem_kstar _
    | cons c name ih => exact append_mem_star (encodeOne_mem c) ih
  rw [encode, List.append_assoc]
  exact Language.append_mem_mul rfl (Language.append_mem_mul hbody rfl)

end JsonPath.Lexicon
