/-
  JsonPath.Proofs.RoundTrip — what is written can be read back.

  The text of a path is made by a walk over a stack, and so is not the text of its first
  selector with that of the others behind it by definition: `Path.text_cons` shows that
  it is. Each selector that stands by itself then writes the words of one step, whatever
  is before them, and so a canonical path writes the words of one chain. Reading finds
  that chain again, as it finds every derivation.

  Proved: `round_trip`, of canonical paths and of whatever was read.
-/

import JsonPath.Path.Canonical
import JsonPath.Proofs.Relocation

namespace JsonPath

open scoped Computability
open Lexicon Grammar

/-! ## The text of a path -/

namespace Path

theorem walk_append (l m : List Path) :
    walk (l ++ m) = do
      let a ← walk l
      let b ← walk m
      return a ++ b := by
  fun_induction walk l with
  | case1 => exact (bind_pure (walk m)).symm
  | case2 outer ih => rw [List.cons_append, walk, ih]
  | case3 s p outer ih =>
    rw [List.cons_append, walk, ← List.cons_append, ← List.cons_append, ih]
    simp only [bind_assoc, pure_bind, List.append_assoc]

theorem text_nil : text [] = .ok [] := by rw [text, walk, walk]

/-- The text of a path is the texts of its selectors, one behind the other. -/
theorem text_cons (s : Selector) (p : Path) :
    text (s :: p) = do
      let a ← s.text
      let b ← text p
      return a ++ b := by
  rw [text, walk, show s.inner :: p :: [] = [s.inner] ++ [p] from rfl, walk_append]
  simp only [Selector.text, text, bind_assoc, pure_bind, List.append_assoc]

theorem text_singleton {s : Selector} {w : Text} (h : s.text = .ok w) : text [s] = .ok w := by
  rw [text_cons, h, text_nil]
  show Except.ok (w ++ []) = _
  rw [List.append_nil]

theorem text_cons_ok {s : Selector} {p : Path} {w t : Text} (hs : s.text = .ok w) (hp : text p = .ok t) :
    text (s :: p) = .ok (w ++ t) := by
  rw [text_cons, hs, hp]
  rfl

end Path

theorem Selector.text_of_head {s : Selector} {w : Text} (hi : s.inner = []) (h : s.head = .ok w) : s.text = .ok w := by
  rw [Selector.text, h, hi, Path.text_nil]
  show Except.ok (w ++ []) = _
  rw [List.append_nil]

theorem Selector.text_current {p : Path} {t : Text} (h : p.text = .ok t) : (Selector.current p).text = .ok ("@" ++ t) := by
  rw [Selector.text, Selector.inner, h]
  rfl

/-! ## Words that are written -/

namespace Decimal

theorem isDecimal_digit {n : Nat} (h : n < 10) : isDecimal (.digit n) = true :=
  (by decide : ∀ n : Fin 10, isDecimal (.digit n) = true) ⟨n, h⟩

theorem nonzero_digit {n : Nat} (h : n < 10) (hn : n ≠ 0) : inRanges [('1', '9')] (.digit n) = true :=
  (by decide : ∀ n : Fin 10, n.val ≠ 0 → inRanges [('1', '9')] (.digit n) = true) ⟨n, h⟩ hn

theorem numeral_mem_nonzero {n : Nat} (hn : n ≠ 0) :
    numeral n ∈ one (inRanges [('1', '9')]) * (one isDecimal)∗ := by
  fun_induction numeral n with
  | case1 n h =>
    have hd : [CodePoint.digit n] ∈ one (inRanges [('1', '9')]) := ⟨_, nonzero_digit h hn, rfl⟩
    exact Language.append_mem_mul hd (Language.nil_mem_kstar _)
  | case2 n h ih =>
    obtain ⟨a, ha, b, hb, hab⟩ := Language.mem_mul.mp (ih (by omega))
    rw [← hab, List.append_assoc]
    refine Language.append_mem_mul ha (mem_star_one.mpr ?_)
    rw [List.forall_mem_append, List.forall_mem_singleton]
    exact ⟨mem_star_one.mp hb, isDecimal_digit (Nat.mod_lt n (by decide))⟩

theorem text_mem (n : Nat) : text n ∈ Atom.language .unsigned := by
  rw [text_eq_numeral]
  by_cases hn : n = 0
  · subst hn
    left
    rw [numeral]
    rfl
  · exact .inr (numeral_mem_nonzero hn)

theorem value?_text (n : Nat) : value? (text n) = some n := by
  rw [value?_of_mem (text_mem n), value_eq_ofDigits, text_eq_numeral, ofDigits_numeral]

end Decimal

theorem Key.isBareName_iff {name : Text} : Key.isBareName name = true ↔ name ∈ Atom.language .key := by
  show _ ↔ name ∈ oneOrMore (one isBare)
  rw [mem_oneOrMore_one, Key.isBareName, Bool.and_eq_true, List.all_eq_true]
  simp only [isKeyChar_eq, Bool.not_eq_true', List.isEmpty_eq_false_iff]

/-! ## Derivations that are written -/

theorem Stretch.single {t : Terminal} {w : Text} (hw : w ∈ t.language) (before : Text) :
    Stretch before [.behind before t w] w := by
  have hcons := Stretch.cons (u := []) (Language.nil_mem_kstar _) hw (.nil (before ++ [] ++ w))
  simpa using hcons

/-- Whatever is before it, the text is the words of a derivation with these meanings, without blanks. -/
def Writes (p : Phrase) (ms : List Meaning) (w : Text) : Prop :=
  ∀ before, ∃ d : Derivation p, Stretch before d.word w ∧ Means d.trees ms

namespace Writes

variable {p q : Phrase} {ms ns : List Meaning} {v w : Text}

theorem mark (m : Mark) : Writes (Grammar.mark m) [] m.lexeme :=
  fun before => ⟨.token (.behind before (.mark m) m.lexeme) rfl, .single rfl before, .nil⟩

theorem atom {x : Atom} (hw : w ∈ x.language) : Writes (Grammar.atom x) [.leaf ⟨(Terminal.atom x).grammarName, w⟩] w :=
  fun before => ⟨.token (.behind before (.atom x) w) rfl, .single hw before, .leaf rfl⟩

theorem both (h : Writes p ms v) (h' : Writes q ns w) : Writes (.both p q) (ms ++ ns) (v ++ w) := by
  intro before
  obtain ⟨d, hd, hm⟩ := h before
  obtain ⟨e, he, hn⟩ := h' (before ++ v)
  exact ⟨.both d e, hd.append he, hm.append hn⟩

theorem left (h : Writes p ms w) : Writes (.either p q) ms w := by
  intro before
  obtain ⟨d, hd, hm⟩ := h before
  exact ⟨.left d, hd, hm⟩

theorem right (h : Writes q ms w) : Writes (.either p q) ms w := by
  intro before
  obtain ⟨d, hd, hm⟩ := h before
  exact ⟨.right d, hd, hm⟩

theorem absent : Writes (.optional p) [] [] := fun before => ⟨.absent, .nil before, .nil⟩

/-- A nonterminal without a node. -/
theorem inline {n : Nonterminal} (hn : n.label? = none) (h : Writes n.body ms w) : Writes (.rule n) ms w := by
  intro before
  obtain ⟨d, hd, hm⟩ := h before
  refine ⟨.rule d, hd, ?_⟩
  simpa only [Derivation.trees_rule, hn] using hm

theorem node {n : Nonterminal} {l : Label} {m : Meaning} (hn : n.label? = some l) (hl : l.combine ms = .ok m)
    (h : Writes n.body ms w) : Writes (.rule n) [m] w := by
  intro before
  obtain ⟨d, hd, hm⟩ := h before
  refine ⟨.rule d, hd, ?_⟩
  simpa only [Derivation.trees_rule, hn] using Means.node hm hl

theorem bareKey {name : Text} (h : name ∈ Atom.language .key) : Writes (.rule .bareKey) [.key (.bare name)] name :=
  node rfl rfl (atom h)

theorem bracketKey (name : Text) :
    Writes (.rule .bracketKey) [.key (.quoted name)] ("[" ++ (Key.Quoted.encode name ++ "]")) := by
  have hkey : Writes (.rule .quotedKey) [.key (.quoted name)] (Key.Quoted.encode name) :=
    node rfl (Label.combine_quotedKey (Key.Quoted.decode_encode name)) (atom (encode_mem name))
  exact inline rfl (both (mark .leftBracket) (both hkey (mark .rightBracket)))

/-! ## Steps and chains that are written -/

theorem root : Writes (.rule .step) [.selector .root] "$" := inline rfl (left (node rfl rfl (mark .dollar)))

theorem wildcard : Writes (.rule .step) [.selector .wildcard] "[*]" :=
  inline rfl <| right <| right <| left <| node rfl rfl <| left <|
    both absent (both (mark .leftBracket) (both (mark .star) (mark .rightBracket)))

theorem index (n : Nat) : Writes (.rule .step) [.selector (.index n)] ("[" ++ (Decimal.text n ++ "]")) :=
  inline rfl <| right <| right <| right <| right <| node rfl (Label.combine_index (Decimal.value?_text n)) <|
    both (mark .leftBracket) (both (atom (Decimal.text_mem n)) (mark .rightBracket))

theorem descent {k : Key} (h : Writes (.either (.rule .bareKey) (.rule .bracketKey)) [.key k] w) :
    Writes (.rule .step) [.selector (.descent k)] (".." ++ w) :=
  inline rfl <| right <| left <| node rfl rfl <| both (mark .dotDot) h

theorem bracketField {k : Key} (h : Writes (.rule .bracketKey) [.key k] w) :
    Writes (.rule .step) [.selector (.field k)] w :=
  inline rfl <| right <| right <| right <| left <| node rfl rfl <| left (both absent h)

theorem bareField {k : Key} (h : Writes (.rule .bareKey) [.key k] w) :
    Writes (.rule .step) [.selector (.field k)] ("." ++ w) :=
  inline rfl <| right <| right <| right <| left <| node rfl rfl <| right (both (mark .dot) h)

theorem single (h : Writes (.rule .step) ms w) : Writes (.rule .chain) ms w := by
  intro before
  obtain ⟨s, hs, hm⟩ := h before
  refine ⟨.single s, ?_, ?_⟩
  · rwa [Derivation.word_single]
  · rwa [Derivation.trees_single]

theorem cons (h : Writes (.rule .step) ms v) (h' : Writes (.rule .chain) ns w) :
    Writes (.rule .chain) (ms ++ ns) (v ++ w) := by
  intro before
  obtain ⟨s, hs, hm⟩ := h before
  obtain ⟨d, hd, hn⟩ := h' (before ++ v)
  refine ⟨.cons s d, ?_, ?_⟩
  · rw [Derivation.word_cons]
    exact hs.append hd
  · rw [Derivation.trees_cons]
    exact hm.append hn

theorem nest {p : Path} (h : Writes (.rule .chain) (p.map .selector) w) :
    Writes (.rule .chain) [.selector (.current p)] ("@" ++ w) :=
  inline rfl (right (node rfl (Label.combine_current p) (both (mark .at) h)))

end Writes

theorem Selector.exists_head {s : Selector} (h : s.IsPlain) :
    s.inner = [] ∧ ∃ w, s.head = .ok w ∧ Writes (.rule .step) [.selector s] w := by
  cases s with
  | root => exact ⟨rfl, _, rfl, .root⟩
  | wildcard => exact ⟨rfl, _, rfl, .wildcard⟩
  | index n => exact ⟨rfl, _, rfl, .index n⟩
  | descent k =>
    refine ⟨rfl, ?_⟩
    cases k with
    | bare name => exact ⟨_, if_pos (Key.isBareName_iff.mpr h), .descent (.left (.bareKey h))⟩
    | quoted name => exact ⟨_, rfl, .descent (.right (.bracketKey name))⟩
    | unknown => exact h.elim
  | field k =>
    refine ⟨rfl, ?_⟩
    cases k with
    | bare name => exact ⟨_, if_pos (Key.isBareName_iff.mpr h), .bareField (.bareKey h)⟩
    | quoted name => exact ⟨_, rfl, .bracketField (.bracketKey name)⟩
    | unknown => exact h.elim
  | current => exact h.elim
  | unknown => exact h.elim

theorem Path.IsCanonical.exists_text {p : Path} (h : p.IsCanonical) :
    ∃ t, p.text = .ok t ∧ Writes (.rule .chain) (p.map .selector) t := by
  induction h with
  | single hs =>
    obtain ⟨hi, w, hw, hwrites⟩ := Selector.exists_head hs
    exact ⟨w, text_singleton (Selector.text_of_head hi hw), .single hwrites⟩
  | cons hs _ ih =>
    obtain ⟨hi, w, hw, hwrites⟩ := Selector.exists_head hs
    obtain ⟨t, ht, hchain⟩ := ih
    exact ⟨w ++ t, text_cons_ok (Selector.text_of_head hi hw) ht, .cons hwrites hchain⟩
  | @nest p _ ih =>
    obtain ⟨t, ht, hchain⟩ := ih
    exact ⟨"@" ++ t, text_singleton (Selector.text_current ht), .nest hchain⟩

/-! ## Reading back -/

theorem readPath_of_writes {env : Environment} {asked : Option Text} {b : Backend} {engine : Engine}
    (hb : env.resolveBackend asked = .ok b) (hengine : engine.Serves env asked) {p : Path} {t : Text}
    (h : Writes (.rule .chain) (p.map .selector) t) : readPath env asked t engine = .ok p := by
  obtain ⟨d, hd, hm⟩ := h []
  have hspelled : Spelled d.word t := ⟨t, [], hd, Language.nil_mem_kstar _, (List.append_nil t).symm⟩
  exact (readPath_eq_ok_iff hengine).mpr ⟨⟨b, hb⟩, d, hspelled, hm⟩

/-- The text of a canonical path reads as that path, whichever backend reads it. -/
theorem Path.IsCanonical.exists_readable {p : Path} (h : p.IsCanonical) :
    ∃ t, p.text = .ok t ∧ ∀ {env asked b engine}, Environment.resolveBackend env asked = .ok b →
      Engine.Serves engine env asked → readPath env asked t engine = .ok p := by
  obtain ⟨t, ht, hwrites⟩ := h.exists_text
  exact ⟨t, ht, fun hb hengine => readPath_of_writes hb hengine hwrites⟩

/-- Only canonical paths are read. -/
theorem isCanonical_of_readPath {env : Environment} {asked : Option Text} {engine : Engine}
    (hengine : engine.Serves env asked) {s : Text} {p : Path} (h : readPath env asked s engine = .ok p) :
    p.IsCanonical := by
  obtain ⟨⟨b, hb⟩, -⟩ := (readPath_eq_ok_iff hengine).mp h
  rcases readPath_cases hb (hengine b hb) s with ⟨q, hq, hread⟩ | ⟨e, he⟩
  · obtain rfl := Except.ok.inj (h.symm.trans hread)
    exact hq
  · cases h.symm.trans he

/-- Every canonical path has a text, which reads as that path, and only canonical paths are read. -/
theorem round_trip (env : Environment) (asked : Option Text) (b : Backend) (hb : env.resolveBackend asked = .ok b)
    (engine : Engine) (hengine : engine.FollowsGrammar b) :
    (∀ p, Path.IsCanonical p → ∃ t, Path.text p = .ok t ∧ readPath env asked t engine = .ok p) ∧
    (∀ s p, readPath env asked s engine = .ok p → Path.IsCanonical p) ∧
    ∀ s p, readPath env asked s engine = .ok p → ∃ t, Path.text p = .ok t ∧ readPath env asked t engine = .ok p := by
  have hserves := hengine.serves hb
  have hwrite : ∀ p, Path.IsCanonical p → ∃ t, Path.text p = .ok t ∧ readPath env asked t engine = .ok p := by
    intro p hp
    obtain ⟨t, ht, hread⟩ := hp.exists_readable
    exact ⟨t, ht, hread hb hserves⟩
  have hcanonical : ∀ s p, readPath env asked s engine = .ok p → Path.IsCanonical p :=
    fun s p => isCanonical_of_readPath hserves
  exact ⟨hwrite, hcanonical, fun s p hp => hwrite p (hcanonical s p hp)⟩

theorem round_trip_of_nested :
    (∃ t, Path.text [.root, .field (.quoted [.ofNat 0xD83D, '\n']), .current [.index 10]] = .ok t ∧
      readPath ⟨none, none⟩ none t = .ok [.root, .field (.quoted [.ofNat 0xD83D, '\n']), .current [.index 10]]) ∧
    Path.IsCanonical [.root, .wildcard, .current [.descent (.bare "a")]] ∧
    ∃ t, Path.text [.root, .wildcard, .current [.descent (.bare "a")]] = .ok t ∧
      readPath ⟨none, none⟩ none t = .ok [.root, .wildcard, .current [.descent (.bare "a")]] := by
  have hb : (⟨none, none⟩ : Environment).resolveBackend none = .ok .rd := by decide +kernel
  have hread : readPath ⟨none, none⟩ none "$ .* @ ..a" = .ok [.root, .wildcard, .current [.descent (.bare "a")]] := by
    decide +kernel
  obtain ⟨write, canonical, again⟩ := round_trip ⟨none, none⟩ none .rd hb .ofRules trivial
  exact ⟨write _ (.cons trivial (.cons trivial (.nest (.single trivial)))), canonical _ _ hread, again _ _ hread⟩

end JsonPath
