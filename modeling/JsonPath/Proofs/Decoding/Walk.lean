/-
  JsonPath.Proofs.Decoding.Walk — decoding a quoted literal in two phases.

  Decoding reads a body once and joins two `\u` escapes as soon as it sees that they are a
  pair of surrogates. Told in two phases: a walk cuts the body from left to right into raw
  code points, simple escapes and code units, and `weld` then makes one code point of each
  high surrogate unit with a low one right behind it. Both come to the same because a pair
  is joined only where the second escape begins right behind the first, and an escape is
  never begun in the middle of another.

  The walk ends where a backslash is followed by what makes no escape, and decoding then
  fails. A backslash that ends the body is a raw code point. Surrogates that stand raw in
  the literal are never joined, with each other or with a unit.

  Proved:
  - `walk_or_refused`: a walk gets to the end of the body or to an escape that is none.
  - `decodeBody_of_walk`: behind a walk, decoding goes on as it would from there.
  - `decode_in_two_phases`.
-/

import JsonPath.Key.Quoted
import Mathlib.Data.List.Basic
import Mathlib.Data.Nat.Digits.Defs

namespace JsonPath.Key.Quoted

/-! ## The two phases -/

/-- The letters that may stand behind a backslash, and what each then stands for. -/
def simpleEscapes : List (Char × Char) :=
  [('"', '"'), ('\'', '\''), ('\\', '\\'), ('/', '/'), ('b', '\x08'), ('f', '\x0c'), ('n', '\n'), ('r', '\r'),
    ('t', '\t')]

/-- Whether a backslash, this letter and the text behind it begin with an escape. -/
def Escapes (letter : CodePoint) (after : Text) : Prop :=
  (∃ e ∈ simpleEscapes, letter = .ofChar e.1) ∨
    letter = .ofChar 'u' ∧ 4 ≤ after.length ∧ ∀ d ∈ after.take 4, d.isHexDigit = true

/-- The code unit that hexadecimal digits write, the highest digit first. -/
def unitOf (digits : Text) : CodePoint := .ofNat (Nat.ofDigits 16 (digits.reverse.map CodePoint.digitValue))

/-- Too short for two quotes, or without a quote at one of the ends. -/
def Unquoted (literal : Text) : Prop :=
  literal.length < 2 ∨ literal.head? ≠ some (.ofChar '\'') ∨ literal.getLast? ≠ some (.ofChar '\'')

/-- What a walk cuts a body into. -/
inductive Piece where
  | raw (c : CodePoint)
  | simple (c : CodePoint)
  | unit (u : CodePoint)
  deriving DecidableEq

/-- What a piece stands for by itself. -/
def Piece.codePoint : Piece → CodePoint
  | raw c => c
  | simple c => c
  | unit u => u

/-- From left to right, the text is cut into these pieces, up to the rest. -/
inductive Walk : Text → List Piece → Text → Prop where
  | here (s : Text) : Walk s [] s
  | raw {c : CodePoint} {s rest : Text} {ps : List Piece} : c ≠ .ofChar '\\' → Walk s ps rest →
    Walk (c :: s) (.raw c :: ps) rest
  | simple {e : Char × Char} {s rest : Text} {ps : List Piece} : e ∈ simpleEscapes → Walk s ps rest →
    Walk (.ofChar '\\' :: .ofChar e.1 :: s) (.simple e.2 :: ps) rest
  | unit {digits s rest : Text} {ps : List Piece} : digits.length = 4 → (∀ d ∈ digits, d.isHexDigit = true) →
    Walk s ps rest → Walk (.ofChar '\\' :: .ofChar 'u' :: (digits ++ s)) (.unit (unitOf digits) :: ps) rest
  /-- A backslash with nothing behind it. -/
  | last : Walk [.ofChar '\\'] [.raw '\\'] []

/-- A high surrogate unit and a low one behind it are one code point, and any other piece is one by itself. -/
def weld : List Piece → Text
  | [] => []
  | .unit high :: .unit low :: ps =>
    if high.isHighSurrogate ∧ low.isLowSurrogate then joinSurrogates high low :: weld ps
    else high :: weld (.unit low :: ps)
  | p :: ps => p.codePoint :: weld ps

/-- The code units that a code point is written with. -/
def codeUnits (c : CodePoint) : List Nat :=
  if c.val < 0x10000 then [c.val] else [0xD800 + (c.val - 0x10000) / 0x400, 0xDC00 + (c.val - 0x10000) % 0x400]

theorem codeUnits_joinSurrogates {high low : CodePoint} (hh : high.isHighSurrogate = true)
    (hl : low.isLowSurrogate = true) : codeUnits (joinSurrogates high low) = [high.val, low.val] := by
  simp only [CodePoint.isHighSurrogate, CodePoint.isLowSurrogate, Bool.and_eq_true, decide_eq_true_eq] at hh hl
  have hval : (joinSurrogates high low).val = 0x10000 + (high.val - 0xD800) * 0x400 + (low.val - 0xDC00) :=
    CodePoint.val_ofNat (by omega)
  unfold codeUnits
  rw [hval, if_neg (by omega)]
  simp only [List.cons.injEq, and_true]
  omega

theorem weld_cons {p : Piece} {ps : List Piece} (h : ∀ u v qs, p = .unit u → ps ≠ .unit v :: qs) :
    weld (p :: ps) = p.codePoint :: weld ps := by
  rw [weld]
  intro high low qs hp
  exact h high low qs hp

theorem weld_unit_pair {high low : CodePoint} (h : high.isHighSurrogate = true ∧ low.isLowSurrogate = true)
    (ps : List Piece) : weld (.unit high :: .unit low :: ps) = joinSurrogates high low :: weld ps := by
  rw [weld, if_pos h]

theorem weld_unit_unit {high low : CodePoint} (h : ¬(high.isHighSurrogate = true ∧ low.isLowSurrogate = true))
    (ps : List Piece) : weld (.unit high :: .unit low :: ps) = high :: weld (.unit low :: ps) := by
  rw [weld, if_neg h]

/-! ## Single escapes -/

theorem unescape?_simple {e : Char × Char} (h : e ∈ simpleEscapes) :
    unescape? (.ofChar e.1) = some (.ofChar e.2) := by
  have hall : ∀ e ∈ simpleEscapes, unescape? (.ofChar e.1) = some (.ofChar e.2) := by decide
  exact hall e h

theorem exists_of_unescape? {letter plain : CodePoint} (h : unescape? letter = some plain) :
    ∃ e ∈ simpleEscapes, letter = .ofChar e.1 := by
  simp only [simpleEscapes, List.exists_mem_cons_iff]
  unfold unescape? at h
  repeat' split at h
  all_goals first | cases h; done | simp [*]

theorem codeUnit?_append {digits : Text} (hlen : digits.length = 4) (hd : ∀ d ∈ digits, d.isHexDigit = true)
    (rest : Text) : codeUnit? (digits ++ rest) = some (unitOf digits, rest) := by
  obtain ⟨a, b, c, d, rfl⟩ := List.length_eq_four.mp hlen
  simp only [List.mem_cons, List.not_mem_nil, or_false, forall_eq_or_imp, forall_eq] at hd
  have hval : unitOf [a, b, c, d] =
      .ofNat (((a.digitValue * 16 + b.digitValue) * 16 + c.digitValue) * 16 + d.digitValue) := by
    simp only [unitOf, List.reverse_cons, List.reverse_nil, List.nil_append, List.cons_append, List.map_cons,
      List.map_nil, Nat.ofDigits_cons, Nat.ofDigits_nil]
    congr 1
    omega
  rw [hval]
  exact if_pos hd

theorem exists_of_codeUnit? {s rest : Text} {u : CodePoint} (h : codeUnit? s = some (u, rest)) :
    ∃ digits, digits.length = 4 ∧ (∀ d ∈ digits, d.isHexDigit = true) ∧ s = digits ++ rest := by
  unfold codeUnit? at h
  split at h
  · rename_i a b c d rest'
    split at h
    · rename_i hd
      cases h
      exact ⟨[a, b, c, d], rfl, by simp [hd], rfl⟩
    · cases h
  · cases h

theorem unescape?_u : unescape? (.ofChar 'u') = none := by decide

theorem unicodeEscape?_append {digits : Text} (hlen : digits.length = 4)
    (hd : ∀ d ∈ digits, d.isHexDigit = true) (rest : Text) :
    unicodeEscape? (.ofChar '\\' :: .ofChar 'u' :: (digits ++ rest)) = some (unitOf digits, rest) := by
  rw [unicodeEscape?, if_pos ⟨rfl, rfl⟩, codeUnit?_append hlen hd]

theorem unicodeEscape?_plain {c : CodePoint} (h : c ≠ .ofChar '\\') (s : Text) : unicodeEscape? (c :: s) = none := by
  unfold unicodeEscape?
  split
  · rename_i b u rest hs
    cases hs
    exact if_neg fun hb => h hb.1
  · rfl

theorem unicodeEscape?_letter {letter : CodePoint} (h : letter ≠ .ofChar 'u') (s : Text) :
    unicodeEscape? (.ofChar '\\' :: letter :: s) = none := if_neg fun hu => h hu.2

/-! ## The walk and the decoder -/

/-- From this text, decoding gives what the pieces stand for and goes on with the rest, as it also does behind a
unit that the text begins with. -/
structure Reads (s : Text) (ps : List Piece) (rest : Text) : Prop where
  body : decodeBody s = (decodeBody rest).map (weld ps ++ ·)
  unit : ∀ u more, unicodeEscape? s = some (u, more) →
    ∃ qs, ps = .unit u :: qs ∧ decodeBody more = (decodeBody rest).map (weld qs ++ ·)
  none : unicodeEscape? s = none → ∀ u qs, ps ≠ .unit u :: qs

theorem map_cons_append (p : CodePoint) (ps : Text) (x : Except DecodeError Text) :
    (x.map (ps ++ ·)).map (p :: ·) = x.map (p :: ps ++ ·) := by
  cases x <;> rfl

theorem reads_here {s : Text} (h : unicodeEscape? s = none) : Reads s [] s where
  body := by cases decodeBody s <;> rfl
  unit u more hu := by simp [h] at hu
  none _ u qs := nofun

theorem reads_plain {c : CodePoint} {s rest : Text} {ps : List Piece} (hc : c ≠ .ofChar '\\')
    (h : Reads s ps rest) : Reads (c :: s) (.raw c :: ps) rest where
  body := by
    rw [decodeBody_plain hc, h.body, map_cons_append, weld_cons fun _ _ _ hp => by cases hp]
    rfl
  unit u more hu := by simp [unicodeEscape?_plain hc] at hu
  none _ u qs := nofun

theorem reads_simple {e : Char × Char} {s rest : Text} {ps : List Piece} (he : e ∈ simpleEscapes)
    (h : Reads s ps rest) : Reads (.ofChar '\\' :: .ofChar e.1 :: s) (.simple e.2 :: ps) rest := by
  have hsome := unescape?_simple he
  have hne : CodePoint.ofChar e.1 ≠ .ofChar 'u' := by
    intro hu
    rw [hu, unescape?_u] at hsome
    cases hsome
  have hescape : unescape (.ofChar e.1 :: s) = .ok (.ofChar e.2, s) := by simp only [unescape, hsome]
  constructor
  · rw [decodeBody_escape hescape, h.body, map_cons_append, weld_cons fun _ _ _ hp => by cases hp]
    rfl
  · intro u more hu
    simp [unicodeEscape?_letter hne] at hu
  · intro _ u qs hp
    cases hp

theorem reads_unit {digits s rest : Text} {ps : List Piece} (hlen : digits.length = 4)
    (hd : ∀ d ∈ digits, d.isHexDigit = true) (h : Reads s ps rest) :
    Reads (.ofChar '\\' :: .ofChar 'u' :: (digits ++ s)) (.unit (unitOf digits) :: ps) rest := by
  have hunit := unicodeEscape?_append hlen hd s
  constructor
  · cases hlow : unicodeEscape? s with
    | none =>
      have hescape : unescape (.ofChar 'u' :: (digits ++ s)) = .ok (unitOf digits, s) := by
        simp only [unescape, unescape?_u, codeUnit?_append hlen hd, hlow, if_true]
      rw [decodeBody_escape hescape, h.body, map_cons_append, weld_cons fun _ v qs _ => h.none hlow v qs]
      rfl
    | some p =>
      obtain ⟨low, more⟩ := p
      obtain ⟨qs, rfl, hmore⟩ := h.unit low more hlow
      by_cases hs : (unitOf digits).isHighSurrogate = true ∧ low.isLowSurrogate = true
      · have hescape : unescape (.ofChar 'u' :: (digits ++ s)) = .ok (joinSurrogates (unitOf digits) low, more) := by
          simp only [unescape, unescape?_u, codeUnit?_append hlen hd, hlow, hs, and_self, if_true]
        rw [decodeBody_escape hescape, hmore, map_cons_append, weld_unit_pair hs]
      · have hescape : unescape (.ofChar 'u' :: (digits ++ s)) = .ok (unitOf digits, s) := by
          simp only [unescape, unescape?_u, codeUnit?_append hlen hd, hlow, hs, if_true, if_false]
        rw [decodeBody_escape hescape, h.body, map_cons_append, weld_unit_unit hs]
  · intro u more hu
    rw [hunit, Option.some.injEq, Prod.mk.injEq] at hu
    obtain ⟨rfl, rfl⟩ := hu
    exact ⟨ps, rfl, h.body⟩
  · intro hnone
    rw [hunit] at hnone
    cases hnone

theorem reads_last : Reads [.ofChar '\\'] [.raw '\\'] [] where
  body := by
    have hescape : unescape [] = .ok (.ofChar '\\', []) := rfl
    rw [decodeBody_escape hescape]
    simp only [decodeBody]
    rfl
  unit u more hu := by cases hu
  none _ u qs := nofun

theorem Walk.reads {s rest : Text} {ps : List Piece} (h : Walk s ps rest) (hr : unicodeEscape? rest = none) :
    Reads s ps rest := by
  induction h with
  | here s => exact reads_here hr
  | raw hc _ ih => exact reads_plain hc (ih hr)
  | simple he _ ih => exact reads_simple he (ih hr)
  | unit hlen hd _ ih => exact reads_unit hlen hd (ih hr)
  | last => exact reads_last

theorem decodeBody_of_walk {s rest : Text} {ps : List Piece} (h : Walk s ps rest)
    (hr : unicodeEscape? rest = none) : decodeBody s = (decodeBody rest).map (weld ps ++ ·) :=
  (h.reads hr).body

theorem decodeBody_of_whole {s : Text} {ps : List Piece} (h : Walk s ps []) : decodeBody s = .ok (weld ps) := by
  rw [decodeBody_of_walk h rfl, decodeBody]
  exact congrArg Except.ok (List.append_nil _)

/-! ## Where a walk is refused -/

theorem codeUnit?_refused {after : Text} (h : ¬Escapes (.ofChar 'u') after) : codeUnit? after = none := by
  rw [Option.eq_none_iff_forall_ne_some]
  rintro ⟨u, rest⟩ hsome
  obtain ⟨digits, hlen, hd, rfl⟩ := exists_of_codeUnit? hsome
  apply h
  refine .inr ⟨rfl, ?_, ?_⟩
  · simp [hlen]
  · simpa [List.take_left' hlen] using hd

theorem unescape_refused {letter : CodePoint} {after : Text} (h : ¬Escapes letter after) :
    unescape (letter :: after) = .error (.unknownEscape letter) := by
  have hsimple : unescape? letter = none := by
    rw [Option.eq_none_iff_forall_ne_some]
    intro plain hplain
    exact h (.inl (exists_of_unescape? hplain))
  by_cases hu : letter = .ofChar 'u'
  · subst hu
    simp only [unescape, unescape?_u, codeUnit?_refused h, if_true]
  · simp only [unescape, hsimple, hu, if_false]

theorem unicodeEscape?_refused {letter : CodePoint} {after : Text} (h : ¬Escapes letter after) :
    unicodeEscape? (.ofChar '\\' :: letter :: after) = none := by
  by_cases hu : letter = .ofChar 'u'
  · subst hu
    rw [unicodeEscape?, if_pos ⟨rfl, rfl⟩, codeUnit?_refused h]
  · exact unicodeEscape?_letter hu after

theorem decodeBody_error {s : Text} {e : DecodeError} (h : unescape s = .error e) :
    decodeBody (.ofChar '\\' :: s) = .error e := by
  rw [decodeBody, if_pos rfl]
  split
  · rename_i e' he
    rw [h] at he
    cases he
    rfl
  · rename_i c r he
    rw [h] at he
    cases he

theorem decodeBody_of_refused {s after : Text} {ps : List Piece} {letter : CodePoint}
    (h : Walk s ps (.ofChar '\\' :: letter :: after)) (hr : ¬Escapes letter after) :
    decodeBody s = .error (.unknownEscape letter) := by
  rw [decodeBody_of_walk h (unicodeEscape?_refused hr), decodeBody_error (unescape_refused hr)]
  rfl

theorem walk_or_refused (s : Text) : (∃ ps, Walk s ps []) ∨
    ∃ ps letter after, Walk s ps (.ofChar '\\' :: letter :: after) ∧ ¬Escapes letter after := by
  -- By strong induction: an escape takes up to six code points at a time.
  generalize hn : s.length = n
  induction n using Nat.strong_induction_on generalizing s with
  | _ n ih =>
    subst hn
    -- One more piece in front of a shorter text that is walked or refused.
    have extend (p : Piece) (rest : Text) (hlt : rest.length < s.length)
        (hp : ∀ ps stop, Walk rest ps stop → Walk s (p :: ps) stop) : (∃ ps, Walk s ps []) ∨
        ∃ ps letter after, Walk s ps (.ofChar '\\' :: letter :: after) ∧ ¬Escapes letter after := by
      rcases ih _ hlt rest rfl with ⟨ps, h⟩ | ⟨ps, letter, after, h, hr⟩
      · exact .inl ⟨_, hp ps _ h⟩
      · exact .inr ⟨_, letter, after, hp ps _ h, hr⟩
    match s with
    | [] => exact .inl ⟨[], .here []⟩
    | c :: s =>
      by_cases hc : c = .ofChar '\\'
      · subst hc
        match s with
        | [] => exact .inl ⟨_, .last⟩
        | letter :: after =>
          by_cases hr : Escapes letter after
          · have hlt : after.length < (.ofChar '\\' :: letter :: after : Text).length := by
              simp only [List.length_cons]
              omega
            rcases hr with ⟨e, he, rfl⟩ | ⟨rfl, hlen, hd⟩
            · exact extend (.simple e.2) after hlt fun ps _ => .simple he
            · have hle : (after.drop 4).length ≤ after.length := (List.drop_sublist ..).length_le
              apply extend (.unit (unitOf (after.take 4))) (after.drop 4) (Nat.lt_of_le_of_lt hle hlt)
              intro ps stop h
              have hwalk := Walk.unit (by simp [hlen]) hd h
              rwa [List.take_append_drop] at hwalk
          · exact .inr ⟨[], letter, after, .here _, hr⟩
      · exact extend (.raw c) s (by simp) fun ps _ => .raw hc

/-! ## Literals -/

theorem body?_eq_some_iff {literal body : Text} : body? literal = some body ↔ literal = "'" ++ body ++ "'" := by
  constructor
  · intro h
    unfold body? at h
    split at h
    · rename_i q rest
      split at h
      · rename_i q' hlast
        split at h
        · rename_i hq
          obtain ⟨rfl, rfl⟩ := hq
          cases h
          have hrest := List.dropLast_append_getLast? _ hlast
          exact congrArg (CodePoint.ofChar '\'' :: ·) hrest.symm
        · cases h
      · cases h
    · cases h
  · rintro rfl
    exact body?_quotes body

theorem body?_eq_none_iff {literal : Text} : body? literal = none ↔ Unquoted literal := by
  unfold Unquoted
  rcases literal with - | ⟨q, rest⟩
  · simp [body?]
  · rcases List.eq_nil_or_concat' rest with rfl | ⟨body, q', rfl⟩
    · simp [body?]
    · have hlast : (q :: (body ++ [q'])).getLast? = some q' := by
        rw [← List.cons_append, List.getLast?_concat]
      have hlen : ¬(q :: (body ++ [q'])).length < 2 := by
        simp only [List.length_cons, List.length_append]
        omega
      simp only [body?, List.getLast?_concat, hlast, hlen, List.head?_cons, false_or, ne_eq, Option.some.injEq,
        ite_eq_right_iff, reduceCtorEq, imp_false, not_and_or]

theorem decode_quotes (body : Text) : decode ("'" ++ body ++ "'") = decodeBody body := by
  rw [decode, body?_quotes]

/-- The three ends of a decoding, each with where it comes to. -/
theorem decode_cases (literal : Text) :
    (Unquoted literal ∧ decode literal = .error (.notQuoted literal)) ∨
    (∃ body ps, literal = "'" ++ body ++ "'" ∧ Walk body ps [] ∧ decode literal = .ok (weld ps)) ∨
    ∃ body ps letter after, literal = "'" ++ body ++ "'" ∧ Walk body ps (.ofChar '\\' :: letter :: after) ∧
      ¬Escapes letter after ∧ decode literal = .error (.unknownEscape letter) := by
  cases hbody : body? literal with
  | none =>
    refine .inl ⟨body?_eq_none_iff.mp hbody, ?_⟩
    rw [decode, hbody]
  | some body =>
    right
    obtain rfl := body?_eq_some_iff.mp hbody
    rw [decode_quotes]
    rcases walk_or_refused body with ⟨ps, hwalk⟩ | ⟨ps, letter, after, hwalk, hr⟩
    · exact .inl ⟨body, ps, rfl, hwalk, decodeBody_of_whole hwalk⟩
    · exact .inr ⟨body, ps, letter, after, rfl, hwalk, hr, decodeBody_of_refused hwalk hr⟩

/-- Decoding gives a name exactly where the literal stands between quotes and a walk takes all of what is between,
and the name is then what the pieces make when surrogate units are welded, two for one code point that is written
with both. It fails exactly where the literal is too short or lacks a quote at either end, or where a walk gets to a
backslash whose letter, with what is behind it, makes no escape. -/
theorem decode_in_two_phases (literal : Text) :
    (∀ name, decode literal = .ok name ↔
      ∃ body ps, literal = "'" ++ body ++ "'" ∧ Walk body ps [] ∧ name = weld ps) ∧
    ((∃ e, decode literal = .error e) ↔ Unquoted literal ∨
      ∃ body ps letter after, literal = "'" ++ body ++ "'" ∧
        Walk body ps (.ofChar '\\' :: letter :: after) ∧ ¬Escapes letter after) ∧
    ∀ high low : CodePoint, high.isHighSurrogate = true → low.isLowSurrogate = true →
      codeUnits (joinSurrogates high low) = [high.val, low.val] := by
  refine ⟨fun name => ⟨fun h => ?_, ?_⟩, ⟨?_, ?_⟩, fun high low => codeUnits_joinSurrogates⟩
  · rcases decode_cases literal with ⟨-, hd⟩ | ⟨body, ps, hl, hwalk, hd⟩ | ⟨body, ps, letter, after, -, -, -, hd⟩
    · rw [hd] at h
      cases h
    · rw [hd, Except.ok.injEq] at h
      exact ⟨body, ps, hl, hwalk, h.symm⟩
    · rw [hd] at h
      cases h
  · rintro ⟨body, ps, rfl, hwalk, rfl⟩
    rw [decode_quotes, decodeBody_of_whole hwalk]
  · rintro ⟨e, he⟩
    rcases decode_cases literal with ⟨hun, -⟩ | ⟨body, ps, -, -, hd⟩ | ⟨body, ps, letter, after, hl, hwalk, hr, -⟩
    · exact .inl hun
    · rw [hd] at he
      cases he
    · exact .inr ⟨body, ps, letter, after, hl, hwalk, hr⟩
  · rintro (hun | ⟨body, ps, letter, after, rfl, hwalk, hr⟩)
    · refine ⟨.notQuoted literal, ?_⟩
      rw [decode, body?_eq_none_iff.mpr hun]
    · refine ⟨.unknownEscape letter, ?_⟩
      rw [decode_quotes, decodeBody_of_refused hwalk hr]

/-- Of two high units before a low one, the second is joined with it. -/
theorem decode_in_two_phases_of_high_high_low :
    decode "'\\ud83d\\ud83d\\ude00'" = .ok [.ofNat 0xD83D, .ofNat 0x1F600] ∧
      codeUnits (joinSurrogates (.ofNat 0xD83D) (.ofNat 0xDE00)) = [0xD83D, 0xDE00] := by
  have hwalk : Walk "\\ud83d\\ud83d\\ude00" [.unit (unitOf "d83d"), .unit (unitOf "d83d"), .unit (unitOf "de00")] [] :=
    @Walk.unit "d83d" _ _ _ rfl (by decide) <| @Walk.unit "d83d" _ _ _ rfl (by decide) <|
      @Walk.unit "de00" _ _ _ rfl (by decide) <| .here []
  obtain ⟨hok, -, hjoin⟩ := decode_in_two_phases "'\\ud83d\\ud83d\\ude00'"
  exact ⟨(hok _).mpr ⟨_, _, rfl, hwalk, by decide⟩, hjoin _ _ (by decide) (by decide)⟩

end JsonPath.Key.Quoted
