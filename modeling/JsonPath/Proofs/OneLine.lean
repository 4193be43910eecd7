/-
  JsonPath.Proofs.OneLine — the canonical text of a path is one line without spaces.

  A canonical text is a sequence of visible ASCII code points and whole quoted keys
  (`Tight`). A quoted key writes what would break a line as an escape, so whatever a key
  holds, no code point of the text is below U+0020. Reading such a text passes no blanks:
  outside of quoted keys there are none, and no other token can begin with a quote, so the
  quoted keys that are read are the ones that were written (`Tight.stretch`).

  A canonical text ends with a key, a `]` or a `$`, so a line feed behind it is taken off
  the standard input and nothing else. The command then reads the path again and prints
  the same line.

  Proved: `canonical_one_line`.
-/

import JsonPath.Proofs.StandardInput
import JsonPath.Text.Blank

namespace JsonPath

open scoped Computability
open Lexicon Grammar

/-! ## Code points -/

namespace Lexicon

/-- The code points that a canonical text has outside of quoted keys. -/
def isOutside (c : CodePoint) : Bool := 0x20 < c.val && c.val < 0x7f && c ≠ '\''

def isPrinted (c : CodePoint) : Bool := 0x20 ≤ c.val

theorem isPrinted_of_isOutside {c : CodePoint} (h : isOutside c = true) : isPrinted c = true := by
  simp only [isOutside, isPrinted, Bool.and_eq_true, decide_eq_true_eq] at h ⊢
  omega

theorem not_isBlank_of_isOutside {c : CodePoint} (h : isOutside c = true) : c.isBlank = false := by
  simp only [isOutside, Bool.and_eq_true, decide_eq_true_eq] at h
  have hrange : ∀ r ∈ blankRanges, r.2 ≤ 0x20 ∨ 0x7f ≤ r.1 := by decide
  rw [CodePoint.isBlank, RangeList.contains, List.any_eq_false]
  intro r hr
  have hlimits := hrange r hr
  simp only [Bool.and_eq_true, decide_eq_true_eq]
  omega

theorem isOutside_of_inRanges {ranges : List (Char × Char)}
    (hr : ranges.all (fun r => 0x20 < r.1.toNat && r.2.toNat < 0x7f) = true) (hq : inRanges ranges '\'' = false)
    {c : CodePoint} (h : inRanges ranges c = true) : isOutside c = true := by
  have hne : c ≠ '\'' := by
    rintro rfl
    rw [h] at hq
    cases hq
  obtain ⟨r, hmem, hc⟩ := List.any_eq_true.mp h
  have hlimits := List.all_eq_true.mp hr r hmem
  simp only [CodePoint.between, Bool.and_eq_true, decide_eq_true_eq] at hc hlimits
  simp only [isOutside, Bool.and_eq_true, decide_eq_true_eq, ne_eq]
  exact ⟨⟨by omega, by omega⟩, hne⟩

theorem isOutside_of_isBare {c : CodePoint} (h : isBare c = true) : isOutside c = true :=
  isOutside_of_inRanges (by decide) (by decide) h

theorem isOutside_of_isDecimal {c : CodePoint} (h : isDecimal c = true) : isOutside c = true :=
  isOutside_of_inRanges (by decide) (by decide) h

end Lexicon

theorem Mark.isOutside (m : Mark) : ∀ c ∈ m.lexeme, Lexicon.isOutside c = true := by cases m <;> decide

/-! ## Quoted keys -/

namespace Key.Quoted

theorem isPrinted_of_isEscaped {c : CodePoint} (h : isEscaped c = true) : isPrinted c = true := by
  have hprinted : (!isPrinted c) = false := eq_false_of_each (p := fun c => !isPrinted c) (by decide) h
  rwa [Bool.not_eq_false'] at hprinted

theorem isPrinted_of_isHexadecimal {c : CodePoint} (h : isHexadecimal c = true) : isPrinted c = true :=
  isPrinted_of_isOutside (isOutside_of_inRanges (by decide) (by decide) h)

theorem encodeOne_printed (c : CodePoint) : ∀ d ∈ encodeOne c, isPrinted d = true := by
  unfold encodeOne
  split
  · rename_i e he
    exact List.forall_mem_cons.mpr
      ⟨by decide, List.forall_mem_singleton.mpr (isPrinted_of_isEscaped (escapeLetter?_isEscaped he))⟩
  · split
    · rename_i hc
      obtain ⟨h₁, h₂, h₃, h₄, hhex, hd₁, hd₂, hd₃, hd₄⟩ := hex_isHexadecimal hc
      rw [hhex]
      refine List.forall_mem_append.mpr ⟨by decide, ?_⟩
      simp only [List.forall_mem_cons, isPrinted_of_isHexadecimal hd₁, isPrinted_of_isHexadecimal hd₂,
        isPrinted_of_isHexadecimal hd₃, isPrinted_of_isHexadecimal hd₄, true_and]
      exact nofun
    · rename_i hc
      exact List.forall_mem_singleton.mpr (decide_eq_true (Nat.not_lt.mp hc))

/-- A quoted key is written without any code point that could break its line. -/
theorem encode_printed (name : Text) : ∀ c ∈ encode name, isPrinted c = true := by
  have hbody : ∀ c ∈ name.flatMap encodeOne, isPrinted c = true := by
    intro c hc
    obtain ⟨d, -, hd⟩ := List.mem_flatMap.mp hc
    exact encodeOne_printed d c hd
  exact List.forall_mem_append.mpr ⟨List.forall_mem_append.mpr ⟨by decide, hbody⟩, by decide⟩

end Key.Quoted

/-! ## Tight texts -/

/-- Visible code points and whole quoted keys, one behind the other. -/
inductive Tight : Text → Prop where
  | nil : Tight []
  | char {c : CodePoint} {w : Text} : isOutside c = true → Tight w → Tight (c :: w)
  | key (name : Text) {w : Text} : Tight w → Tight (Key.Quoted.encode name ++ w)

namespace Tight

variable {v w : Text}

theorem append (hv : Tight v) (hw : Tight w) : Tight (v ++ w) := by
  induction hv with
  | nil => exact hw
  | char hc _ ih => exact .char hc ih
  | key name _ ih =>
    rw [List.append_assoc]
    exact .key name ih

theorem of_forall (h : ∀ c ∈ w, isOutside c = true) : Tight w := by
  induction w with
  | nil => exact .nil
  | cons c w ih =>
    rw [List.forall_mem_cons] at h
    exact .char h.1 (ih h.2)

theorem quoted (name : Text) : Tight (Key.Quoted.encode name) := by simpa using Tight.key name .nil

theorem printed (h : Tight w) : ∀ c ∈ w, isPrinted c = true := by
  induction h with
  | nil => nofun
  | char hc _ ih => exact List.forall_mem_cons.mpr ⟨isPrinted_of_isOutside hc, ih⟩
  | key name _ ih => exact List.forall_mem_append.mpr ⟨Key.Quoted.encode_printed name, ih⟩

/-- A tight text begins with a visible code point or with the quote of a key. -/
theorem cons_cases {c : CodePoint} (h : Tight (c :: w)) : isOutside c = true ∧ Tight w ∨ c = '\'' := by
  generalize hx : c :: w = x at h
  cases h with
  | nil => cases hx
  | char hc hw =>
    cases hx
    exact .inl ⟨hc, hw⟩
  | key => exact .inr (List.cons.inj hx).1

theorem drop (hv : ∀ c ∈ v, isOutside c = true) (h : Tight (v ++ w)) : Tight w := by
  induction v with
  | nil => exact h
  | cons c v ih =>
    rw [List.forall_mem_cons] at hv
    rcases cons_cases h with ⟨-, hrest⟩ | rfl
    · exact ih hv.2 hrest
    · cases hv.1

/-- The quoted key that a tight text begins with is one that was written. -/
theorem drop_quoted (hv : v ∈ Atom.language .quoted) (h : Tight (v ++ w)) : Tight w := by
  have hread := quoted?_of_isPrefix hv (List.prefix_append v w)
  generalize hx : v ++ w = x at h hread
  cases h with
  | nil => cases hread
  | char hc _ =>
    rw [Lexeme.quoted?, if_neg (by rintro rfl; cases hc)] at hread
    cases hread
  | key name htail =>
    rw [quoted?_of_isPrefix (encode_mem name) (List.prefix_append _ _)] at hread
    obtain rfl := Option.some.inj hread
    rwa [List.append_cancel_left hx]

theorem blank_eq_nil {u : Text} (hu : u ∈ blank∗) (h : Tight (u ++ w)) : u = [] := by
  cases u with
  | nil => rfl
  | cons c u =>
    have hblank := startsBlank_of_mem hu
    rcases cons_cases h with ⟨hc, -⟩ | rfl
    · rw [eq_false_of_each (p := isOutside) (by decide) hblank] at hc
      cases hc
    · cases hblank

end Tight

/-! ## Tokens of tight texts -/

theorem Terminal.isOutside_of_mem {t : Terminal} (hq : t ≠ .atom .quoted) {w : Text} (hw : w ∈ t.language) :
    ∀ c ∈ w, isOutside c = true := by
  cases t with
  | mark m =>
    obtain rfl : w = m.lexeme := hw
    exact m.isOutside
  | endOfInput => exact hw.elim
  | atom a =>
    cases a with
    | key => exact fun c hc => isOutside_of_isBare ((mem_oneOrMore_one.mp hw).2 c hc)
    | unsigned => exact fun c hc => isOutside_of_isDecimal (isDecimal_of_mem_unsigned hw c hc)
    | quoted => exact absurd rfl hq
    | sign =>
      obtain ⟨g, rfl⟩ := mem_sign hw
      cases g
      all_goals decide
    | number => exact fun c hc => isOutside_of_inRanges (by decide) (by decide) (inNumber_of_mem hw c hc)

/-- The tokens that a tight text begins with follow right behind each other, and what is left is tight. -/
theorem Tight.stretch {b p r : Text} {as : List Token} (h : Stretch b as p) (hp : Tight (p ++ r)) :
    p = (as.map Token.text).flatten ∧ Tight r := by
  induction h with
  | nil => exact ⟨rfl, hp⟩
  | @cons b u w rest t ts hu hw _ ih =>
    rw [List.append_assoc, List.append_assoc] at hp
    obtain rfl := blank_eq_nil hu hp
    have htail : Tight (rest ++ r) := by
      by_cases hq : t = .atom .quoted
      · subst hq
        exact drop_quoted hw hp
      · exact drop (Terminal.isOutside_of_mem hq hw) hp
    obtain ⟨hrest, hr⟩ := ih htail
    exact ⟨by rw [List.map_cons, List.flatten_cons, ← hrest]; rfl, hr⟩

/-- A tight text that is a path is the words of its tokens, and only the quoted keys may have blanks in them. -/
theorem Tight.words {t : Text} (ht : Tight t) {d : Chain} (h : Spelled d.word t) :
    t = (d.word.map Token.text).flatten ∧
      ∀ a ∈ d.word, a.terminal ≠ .atom .quoted → ∀ c ∈ a.text, c.isBlank = false := by
  obtain ⟨p, u, hp, hu, rfl⟩ := h
  obtain ⟨hwords, hrest⟩ := ht.stretch hp
  obtain rfl := blank_eq_nil hu ((List.append_nil u).symm ▸ hrest)
  refine ⟨(List.append_nil p).trans hwords, fun a ha hq c hc => ?_⟩
  exact not_isBlank_of_isOutside (Terminal.isOutside_of_mem hq (hp.text_mem a ha) c hc)

/-! ## Canonical texts -/

namespace Lexicon

/-- The code points that a canonical text may end with. -/
def endsCanonical (c : CodePoint) : Bool := Lexeme.isKeyChar c || c = ']' || c = '$'

end Lexicon

/-- What a selector writes, and the end of it. -/
def Neat (w : Text) : Prop := Tight w ∧ ∃ c, w.getLast? = some c ∧ endsCanonical c = true

namespace Neat

variable {v w : Text}

theorem append (hv : Tight v) (hw : Neat w) : Neat (v ++ w) := by
  obtain ⟨htight, c, hc, hends⟩ := hw
  exact ⟨hv.append htight, c, by rw [List.getLast?_append, hc, Option.some_or], hends⟩

theorem bareKey {name : Text} (h : name ∈ Atom.language .key) : Neat name := by
  refine ⟨.of_forall fun c hc => isOutside_of_isBare ((mem_oneOrMore_one.mp h).2 c hc), ?_⟩
  obtain ⟨c, hc, hbare⟩ := Atom.getLast_key h
  exact ⟨c, hc, by simp [endsCanonical, isKeyChar_eq, hbare]⟩

theorem brackets (h : Tight w) : Neat ("[" ++ w ++ "]") :=
  append (.append (.of_forall (Mark.isOutside .leftBracket)) h)
    ⟨.of_forall (Mark.isOutside .rightBracket), ']', rfl, by decide⟩

theorem key {k : Key} (hk : k.IsProper) {lead w : Text} (hlead : Tight lead) (h : k.text lead = .ok w) : Neat w := by
  cases k with
  | bare name =>
    rw [Key.text, if_pos (Key.isBareName_iff.mpr hk)] at h
    obtain rfl := Except.ok.inj h
    exact append hlead (bareKey hk)
  | quoted name =>
    have hlead' : Tight (if lead = Text.ofString "." then [] else lead) := by
      split
      · exact .nil
      · exact hlead
    obtain rfl := Except.ok.inj h
    rw [List.append_assoc, List.append_assoc]
    exact append hlead' (List.append_assoc _ _ _ ▸ brackets (.quoted name))
  | unknown => exact hk.elim

theorem head {s : Selector} (hs : s.IsPlain) {w : Text} (h : s.head = .ok w) : Neat w := by
  cases s with
  | root =>
    obtain rfl := Except.ok.inj h
    exact ⟨.of_forall (Mark.isOutside .dollar), '$', rfl, by decide⟩
  | wildcard =>
    obtain rfl := Except.ok.inj h
    exact brackets (.of_forall (Mark.isOutside .star))
  | index n =>
    obtain rfl := Except.ok.inj h
    exact brackets (.of_forall fun c hc => isOutside_of_isDecimal (isDecimal_of_mem_unsigned (Decimal.text_mem n) c hc))
  | descent k => exact key hs (.of_forall (Mark.isOutside .dotDot)) h
  | field k => exact key hs (.of_forall (Mark.isOutside .dot)) h
  | current => exact hs.elim
  | unknown => exact hs.elim

end Neat

theorem Path.IsCanonical.neat {p : Path} (h : p.IsCanonical) : ∃ t, p.text = .ok t ∧ Neat t := by
  induction h with
  | single hs =>
    obtain ⟨hi, w, hw, -⟩ := Selector.exists_head hs
    exact ⟨w, text_singleton (Selector.text_of_head hi hw), .head hs hw⟩
  | cons hs _ ih =>
    obtain ⟨hi, w, hw, -⟩ := Selector.exists_head hs
    obtain ⟨t, ht, hneat⟩ := ih
    exact ⟨w ++ t, text_cons_ok (Selector.text_of_head hi hw) ht, .append (Neat.head hs hw).1 hneat⟩
  | nest _ ih =>
    obtain ⟨t, ht, hneat⟩ := ih
    exact ⟨"@" ++ t, text_singleton (Selector.text_current ht), .append (.of_forall (Mark.isOutside .at)) hneat⟩

/-! ## The command -/

theorem CommandLine.chomp_line {t : Text} {c : CodePoint} (ht : t.getLast? = some c) (hc : c ≠ .ofChar '\n') :
    chomp (t ++ "\n") = t := by
  rw [chomp_append, if_pos (by decide), chomp_of_getLast ht hc]

/-- The canonical text of what was read is one line without spaces, and the command prints it again. -/
theorem canonical_one_line (env : Environment) (engine : Engine) (s : Text) (p : Path)
    (h : readPath env (some "rd") s engine = .ok p) :
    ∃ t, p.text = .ok t ∧ (∀ c ∈ t, 0x20 ≤ c.val) ∧
      (∃ d : Derivation (.rule .path), Spelled d.word t ∧ t = (d.word.map Token.text).flatten ∧
        ∀ a ∈ d.word, a.terminal ≠ .atom .quoted → ∀ c ∈ a.text, c.isBlank = false) ∧
      (∃ c, t.getLast? = some c ∧ (Lexeme.isKeyChar c = true ∨ c = ']' ∨ c = '$')) ∧
      ∀ engine' env' b, env'.resolveBackend none = .ok b → Engine.FollowsGrammar engine' b →
        CommandLine.run env' ["--canonical"] (t ++ "\n") engine' = .printed (t ++ "\n") env'.debugEnabled := by
  have hrd : env.resolveBackend (some "rd") = .ok .rd := by rfl
  have hengine := engine.serves_of_rd hrd
  have hcanonical := isCanonical_of_readPath hengine h
  obtain ⟨t, ht, htight, c, hc, hends⟩ := hcanonical.neat
  obtain ⟨u, hu, hread⟩ := hcanonical.exists_readable
  obtain rfl := Except.ok.inj (ht.symm.trans hu)
  refine ⟨t, ht, fun c hc => of_decide_eq_true (htight.printed c hc), ?_, ⟨c, hc, ?_⟩, fun engine' env' b hb hb' => ?_⟩
  · obtain ⟨-, d, hspelled, -⟩ := (readPath_eq_ok_iff hengine).mp (hread hrd hengine)
    exact ⟨.rule d, hspelled, htight.words hspelled⟩
  · simpa [endsCanonical, or_assoc] using hends
  · have hrequest : CommandLine.Request.ofArguments ["--canonical"] = .ok (.run ⟨none, .unset, false, true⟩) := by
      decide +kernel
    have hne : c ≠ .ofChar '\n' := by
      rintro rfl
      revert hends
      decide
    have hchomp := CommandLine.chomp_line hc hne
    simp only [CommandLine.run, hrequest]
    refine CommandLine.runOptions_canonical ?_ ht
    rw [Option.getD_none, hchomp]
    exact hread hb (hb'.serves hb)

theorem canonical_one_line_of_control :
    ∃ t, Path.text [.root, .descent (.quoted "a\n b\x00")] = .ok t ∧
      CommandLine.run ⟨none, none⟩ ["--canonical"] (t ++ "\n") = .printed (t ++ "\n") false := by
  have hread : readPath ⟨none, none⟩ (some "rd") "$ ..['a\n b\\u0000']\t" = .ok [.root, .descent (.quoted "a\n b\x00")] := by
    decide +kernel
  have hb : (⟨none, none⟩ : Environment).resolveBackend none = .ok .rd := by decide +kernel
  obtain ⟨t, ht, -, -, -, hprinted⟩ := canonical_one_line ⟨none, none⟩ .ofRules _ _ hread
  exact ⟨t, ht, hprinted .ofRules _ _ hb trivial⟩

end JsonPath
