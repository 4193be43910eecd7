/-
  JsonPath.Key.Quoted — keys between single quotes.

  A quoted key may hold any code points. `encode` writes one: a backslash before
  quotes and backslashes, a letter for the control characters that have one, `\u` and
  four hexadecimal digits for the other control characters, and everything else as it
  is. `decode` reads a literal back. It also takes what `encode` never writes: `\/`,
  and `\u` for any code unit, where a high surrogate with a low one right behind it
  stand for one code point together and every other unit for itself. A backslash that
  ends the literal stands for itself. What `encode` writes, `decode` reads back
  (`decode_encode`).
-/

import JsonPath.Text

namespace JsonPath.Key.Quoted

/-! ## Escapes -/

/-- What a backslash and this letter stand for; `u` is not among them. -/
def unescape? (e : CodePoint) : Option CodePoint :=
  if e = '"' then some '"'
  else if e = '\'' then some '\''
  else if e = '\\' then some '\\'
  else if e = '/' then some '/'
  else if e = 'b' then some '\x08'
  else if e = 'f' then some '\x0c'
  else if e = 'n' then some '\n'
  else if e = 'r' then some '\r'
  else if e = 't' then some '\t'
  else none

/-- The letter that stands for this code point behind a backslash. -/
def escapeLetter? (c : CodePoint) : Option CodePoint :=
  if c = '\\' then some '\\'
  else if c = '\'' then some '\''
  else if c = '"' then some '"'
  else if c = '\x08' then some 'b'
  else if c = '\x0c' then some 'f'
  else if c = '\n' then some 'n'
  else if c = '\r' then some 'r'
  else if c = '\t' then some 't'
  else none

/-- Reads the four digits of a `\u` escape: the code unit and what follows it. -/
def codeUnit? : Text → Option (CodePoint × Text)
  | a :: b :: c :: d :: rest =>
    if a.isHexDigit ∧ b.isHexDigit ∧ c.isHexDigit ∧ d.isHexDigit then
      some (.ofNat (((a.digitValue * 16 + b.digitValue) * 16 + c.digitValue) * 16 + d.digitValue), rest)
    else none
  | _ => none

theorem length_codeUnit? {s rest : Text} {u : CodePoint} (h : codeUnit? s = some (u, rest)) :
    s.length = rest.length + 4 := by
  unfold codeUnit? at h
  split at h
  · split at h
    · simp only [Option.some.injEq, Prod.mk.injEq] at h
      simp [h.2]
    · cases h
  · cases h

/-- Reads a whole `\u` escape, backslash and all. -/
def unicodeEscape? : Text → Option (CodePoint × Text)
  | b :: u :: rest => if b = '\\' ∧ u = 'u' then codeUnit? rest else none
  | _ => none

theorem length_unicodeEscape? {s rest : Text} {u : CodePoint} (h : unicodeEscape? s = some (u, rest)) :
    s.length = rest.length + 6 := by
  unfold unicodeEscape? at h
  split at h
  · split at h
    · simp [length_codeUnit? h]
    · cases h
  · cases h

/-- The code point that a high and a low surrogate stand for together. -/
def joinSurrogates (high low : CodePoint) : CodePoint :=
  .ofNat (0x10000 + (high.val - 0xD800) * 0x400 + (low.val - 0xDC00))

/-! ## Writing -/

def encodeOne (c : CodePoint) : Text :=
  match escapeLetter? c with
  | some letter => ['\\', letter]
  | none => if c.val < 0x20 then "\\u" ++ Text.hex 4 c.val else [c]

def encode (name : Text) : Text := "'" ++ name.flatMap encodeOne ++ "'"

/-! ## Reading -/

inductive DecodeError where
  | notQuoted (literal : Text)
  | unknownEscape (letter : CodePoint)
  deriving DecidableEq

/-- What a backslash and the text behind it stand for, and what is left of that text. -/
def unescape (s : Text) : Except DecodeError (CodePoint × Text) :=
  match s with
  | [] => .ok ('\\', [])
  | e :: rest =>
    match unescape? e with
    | some plain => .ok (plain, rest)
    | none =>
      if e = 'u' then
        match codeUnit? rest with
        | none => .error (.unknownEscape e)
        | some (unit, rest) =>
          match unicodeEscape? rest with
          | none => .ok (unit, rest)
          | some (low, more) =>
            if unit.isHighSurrogate ∧ low.isLowSurrogate then .ok (joinSurrogates unit low, more)
            else .ok (unit, rest)
      else .error (.unknownEscape e)

theorem length_unescape {s rest : Text} {c : CodePoint} (h : unescape s = .ok (c, rest)) :
    rest.length ≤ s.length := by
  unfold unescape at h
  split at h
  · cases h; exact Nat.le_refl _
  · split at h
    · cases h; simp
    · split at h
      · split at h
        · cases h
        · rename_i hu
          have := length_codeUnit? hu
          split at h
          · cases h; simp only [List.length_cons]; omega
          · rename_i hl
            have := length_unicodeEscape? hl
            split at h <;>
              (simp only [Except.ok.injEq, Prod.mk.injEq] at h; simp only [← h.2, List.length_cons]; omega)
      · cases h

/-- Undoes the escapes between the quotes. -/
def decodeBody (s : Text) : Except DecodeError Text :=
  match s with
  | [] => .ok []
  | c :: rest =>
    if c = '\\' then
      match h : unescape rest with
      | .error e => .error e
      | .ok (plain, more) =>
        have := length_unescape h
        (decodeBody more).map (plain :: ·)
    else (decodeBody rest).map (c :: ·)
termination_by s.length

/-- The text between the quotes, if there are two. -/
def body? (literal : Text) : Option Text :=
  match literal with
  | q :: rest =>
    match rest.getLast? with
    | some q' => if q = '\'' ∧ q' = '\'' then some rest.dropLast else none
    | none => none
  | [] => none

def decode (literal : Text) : Except DecodeError Text :=
  match body? literal with
  | none => .error (.notQuoted literal)
  | some body => decodeBody body

/-! ## Reading undoes writing -/

theorem body?_quotes (b : Text) : body? ("'" ++ b ++ "'") = some b := by
  have h : ("'" ++ b ++ "'" : Text) = .ofChar '\'' :: (b ++ [.ofChar '\'']) := rfl
  rw [h]
  simp [body?]

theorem decodeBody_plain {c : CodePoint} (h : c ≠ .ofChar '\\') (rest : Text) :
    decodeBody (c :: rest) = (decodeBody rest).map (c :: ·) := by
  rw [decodeBody, if_neg h]

theorem decodeBody_escape {s rest : Text} {c : CodePoint} (h : unescape s = .ok (c, rest)) :
    decodeBody (.ofChar '\\' :: s) = (decodeBody rest).map (c :: ·) := by
  rw [decodeBody, if_pos rfl]
  split
  · rename_i e he; rw [h] at he; cases he
  · rename_i c' r' he; rw [h] at he; cases he; rfl

theorem unescape?_escapeLetter? {c l : CodePoint} (h : escapeLetter? c = some l) : unescape? l = some c := by
  unfold escapeLetter? at h
  repeat' split at h
  all_goals cases h <;> (subst_vars; decide)

theorem unescape_hex {n : Nat} (hn : n < 0x20) (rest : Text) :
    unescape (.ofChar 'u' :: (Text.hex 4 n ++ rest)) = .ok (.ofNat n, rest) := by
  have key : ∀ n : Fin 0x20, ∃ a b c d, Text.hex 4 n.val = [a, b, c, d] ∧
      (a.isHexDigit ∧ b.isHexDigit ∧ c.isHexDigit ∧ d.isHexDigit) ∧
      ((a.digitValue * 16 + b.digitValue) * 16 + c.digitValue) * 16 + d.digitValue = n.val := by
    intro n
    refine ⟨_, _, _, _, rfl, ?_⟩
    revert n
    decide
  obtain ⟨a, b, c, d, hx, hd, hv⟩ := key ⟨n, hn⟩
  have hu : codeUnit? (Text.hex 4 n ++ rest) = some (.ofNat n, rest) := by
    simp only at hx hv
    simp [hx, codeUnit?, hd, hv]
  have hnone : unescape? (.ofChar 'u') = none := by decide
  simp only [unescape, hnone, hu, if_true]
  split
  · rfl
  · rw [if_neg]
    intro hs
    have : (CodePoint.ofNat n).val = n := CodePoint.val_ofNat (by omega)
    simp [CodePoint.isHighSurrogate, this] at hs
    omega

theorem decodeBody_encodeOne (c : CodePoint) (rest : Text) :
    decodeBody (encodeOne c ++ rest) = (decodeBody rest).map (c :: ·) := by
  unfold encodeOne
  split
  · rename_i l hl
    exact decodeBody_escape (s := l :: rest) (by simp [unescape, unescape?_escapeLetter? hl])
  · rename_i hl
    split
    · rename_i hc
      have := decodeBody_escape (unescape_hex hc rest)
      rw [show CodePoint.ofNat c.val = c by simp [CodePoint.ofNat, c.valid]] at this
      exact this
    · refine decodeBody_plain ?_ rest
      rintro rfl
      revert hl; decide

theorem decode_encode (name : Text) : decode (encode name) = .ok name := by
  unfold decode encode
  rw [body?_quotes]
  induction name with
  | nil => simp [decodeBody]
  | cons c rest ih => simp only [List.flatMap_cons, decodeBody_encodeOne] at ih ⊢; rw [ih]; rfl

end JsonPath.Key.Quoted
