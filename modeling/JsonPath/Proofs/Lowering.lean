/-
  JsonPath.Proofs.Lowering — every tree that reading builds means something.

  A tree has a meaning if its labels have the parts that they need and the texts of its
  leaves can be converted. Both hold of the trees of a derivation whose tokens are words
  of their terminals: a path means a path of selectors, and never one with unknown parts.
  Such a path is canonical, which is what `JsonPath.Proofs.RoundTrip` starts from.

  Proved:
  - `Derivation.means_chain`: a chain means a canonical path.
  - `lowering_total`: no tree that was read fails to mean an expression, so a source is a
    path or malformed and nothing else.
-/

import JsonPath.Proofs.Decoding
import JsonPath.Proofs.Engine

namespace JsonPath

open scoped Computability
open Lexicon Grammar

/-! ## Canonical paths -/

def Key.IsProper : Key → Prop
  | .bare name => name ∈ Atom.language .key
  | .quoted _ => True
  | .unknown _ => False

/-- A selector that stands by itself. -/
def Selector.IsPlain : Selector → Prop
  | .descent key => key.IsProper
  | .field key => key.IsProper
  | .current _ => False
  | .unknown _ => False
  | _ => True

/-- Not empty, nor is any nested path, and only the last selector of a path holds another. -/
inductive Path.IsCanonical : Path → Prop where
  | single {s : Selector} : s.IsPlain → IsCanonical [s]
  | cons {s : Selector} {p : Path} : s.IsPlain → IsCanonical p → IsCanonical (s :: p)
  | nest {p : Path} : IsCanonical p → IsCanonical [.current p]

/-! ## Meanings of trees -/

/-- The trees mean these meanings, one each. -/
def Means (ts : List (Tree Token)) (ms : List Meaning) : Prop := Tree.meanings (Tree.mapList Token.leaf ts) = .ok ms

namespace Means

theorem nil : Means [] [] := rfl

theorem cons_iff {t : Tree Token} {ts : List (Tree Token)} {ms : List Meaning} :
    Means (t :: ts) ms ↔ ∃ m ns, t.unplaced.meaning = .ok m ∧ Means ts ns ∧ ms = m :: ns := by
  simp only [Means, Tree.mapList, Tree.meanings, Tree.unplaced, Bind.bind, Except.bind, Pure.pure, Except.pure]
  constructor
  · intro h
    cases hm : Tree.meaning (t.map Token.leaf) with
    | error e => simp [hm] at h
    | ok m =>
      cases hns : Tree.meanings (Tree.mapList Token.leaf ts) with
      | error e => simp [hm, hns] at h
      | ok ns =>
        simp only [hm, hns, Except.ok.injEq] at h
        exact ⟨m, ns, rfl, rfl, h.symm⟩
  · rintro ⟨m, ns, hm, hns, rfl⟩
    simp only [hm, hns]

theorem meaning {t : Tree Token} {m : Meaning} (h : Means [t] [m]) : t.unplaced.meaning = .ok m := by
  obtain ⟨m', ns, hm, -, hms⟩ := cons_iff.mp h
  rw [hm, (List.cons.inj hms).1]

theorem append {ts us : List (Tree Token)} {ms ns : List Meaning} (h : Means ts ms) (h' : Means us ns) :
    Means (ts ++ us) (ms ++ ns) := by
  induction ts generalizing ms with
  | nil =>
    obtain rfl : [] = ms := Except.ok.inj h
    exact h'
  | cons t ts ih =>
    obtain ⟨m, ms, ht, hts, rfl⟩ := cons_iff.mp h
    exact cons_iff.mpr ⟨m, ms ++ ns, ht, ih hts, rfl⟩

theorem expression {l : Label} {ts : List (Tree Token)} {e : Expression} (h : Means [.node l ts] [.expression e])
    (hl : Tree.isWhole (some l) = true) : (Tree.node l ts).unplaced.expression = .ok e := by
  have hlabel : (Tree.node l ts).unplaced.label? = some l := rfl
  rw [Tree.expression, hlabel, if_pos hl, h.meaning]

theorem node {l : Label} {ts : List (Tree Token)} {ms : List Meaning} {m : Meaning} (h : Means ts ms)
    (hl : l.combine ms = .ok m) : Means [.node l ts] [m] := by
  simp only [Means] at h
  simp only [Means, Tree.mapList, Tree.meanings, Tree.map, Tree.meaning, h, hl, Bind.bind, Except.bind, Pure.pure,
    Except.pure]

theorem leaf {a : Token} {x : Atom} (ha : a.terminal = .atom x) : Means [.leaf a] [.leaf a.leaf] := by
  have h : a.leaf.meaning = .ok (.leaf a.leaf) := by
    simp only [Token.leaf, ha]
    cases x <;> rfl
  simp only [Means, Tree.mapList, Tree.meanings, Tree.map, Tree.meaning, h, Bind.bind, Except.bind, Pure.pure,
    Except.pure]

end Means

/-! ## Meanings of nodes -/

theorem Meaning.map_toSelector (p : Path) : (p.map Meaning.selector).map Meaning.toSelector = p := by
  rw [List.map_map]
  exact List.map_id p

namespace Label

theorem combine_current (p : Path) : Label.current.combine (p.map .selector) = .ok (.selector (.current p)) := by
  rw [combine, Meaning.map_toSelector]

theorem combine_path (p : Path) : Label.path.combine (p.map .selector) = .ok (.expression (.path p)) := by
  rw [combine, Meaning.map_toSelector]

theorem combine_quotedKey {l : Leaf} {name : Text} (h : Key.Quoted.decode l.text = .ok name) :
    Label.quotedKey.combine [.leaf l] = .ok (.key (.quoted name)) := by
  simp only [combine, Meaning.toText, Bind.bind, Except.bind, h, Except.mapError, Pure.pure, Except.pure]

theorem combine_index {l : Leaf} {n : Nat} (h : Decimal.value? l.text = some n) :
    Label.index.combine [.leaf l] = .ok (.selector (.index n)) := by
  simp only [combine, Meaning.toText, Bind.bind, Except.bind, h, Pure.pure, Except.pure]

end Label

namespace Means

variable {a : Token} {ts : List (Tree Token)} {k : Key} {p : Path}

theorem bareKey (ha : a.terminal = .atom .key) : Means [.node .bareKey [.leaf a]] [.key (.bare a.text)] :=
  node (leaf ha) rfl

theorem quotedKey (ha : a.terminal = .atom .quoted) {name : Text} (h : Key.Quoted.decode a.text = .ok name) :
    Means [.node .quotedKey [.leaf a]] [.key (.quoted name)] :=
  node (leaf ha) (Label.combine_quotedKey h)

theorem field (h : Means ts [.key k]) : Means [.node .field ts] [.selector (.field k)] := node h rfl

theorem descent (h : Means ts [.key k]) : Means [.node .descent ts] [.selector (.descent k)] := node h rfl

theorem index (ha : a.terminal = .atom .unsigned) {n : Nat} (h : Decimal.value? a.text = some n) :
    Means [.node .index [.leaf a]] [.selector (.index n)] :=
  node (leaf ha) (Label.combine_index h)

theorem current (h : Means ts (p.map .selector)) : Means [.node .current ts] [.selector (.current p)] :=
  node h (Label.combine_current p)

theorem path (h : Means ts (p.map .selector)) : Means [.node .path ts] [.expression (.path p)] :=
  node h (Label.combine_path p)

theorem sign (ha : a.terminal = .atom .sign) {g : ComparisonSign} (h : a.text = g.spelling) :
    Means [.node .sign [.leaf a]] [.expression (.sign g)] := by
  refine node (leaf ha) ?_
  simp only [Label.combine, Meaning.toText, Token.leaf, Bind.bind, Except.bind, h, ComparisonSign.ofSpelling?_spelling,
    Pure.pure, Except.pure]

theorem number (ha : a.terminal = .atom .number) : Means [.node .number [.leaf a]] [.expression (.number ⟨a.text⟩)] :=
  node (leaf ha) rfl

end Means

/-! ## Meanings of derivations -/

theorem Decimal.isUnsigned_iff {t : Text} : Decimal.isUnsigned t = true ↔ t ∈ oneOrMore (one isDecimal) := by
  rw [mem_oneOrMore_one, Decimal.isUnsigned, Bool.and_eq_true, List.all_eq_true]
  simp only [isDigit_eq, Bool.not_eq_true', List.isEmpty_eq_false_iff]

theorem value?_of_mem {w : Text} (h : w ∈ Atom.language .unsigned) : Decimal.value? w = some (Decimal.value w) :=
  if_pos (Decimal.isUnsigned_iff.mpr (mem_oneOrMore_of_unsigned h))

namespace Grammar.Derivation

/-- Every token is a word of its terminal. -/
def Worded {p : Phrase} (d : Derivation p) : Prop := ∀ a ∈ d.word, a.text ∈ a.terminal.language

theorem means_bareKey {a : Token} (ha : a.terminal = .atom .key) (h : a.text ∈ a.terminal.language) :
    ∃ k : Key, k.IsProper ∧ Means [.node .bareKey [.leaf a]] [.key k] := by
  rw [ha] at h
  exact ⟨.bare a.text, h, .bareKey ha⟩

theorem means_quotedKey {a : Token} (ha : a.terminal = .atom .quoted) (h : a.text ∈ a.terminal.language) :
    ∃ k : Key, k.IsProper ∧ Means [.node .quotedKey [.leaf a]] [.key k] := by
  rw [ha] at h
  obtain ⟨name, hname⟩ := decode_ok h
  exact ⟨.quoted name, trivial, .quotedKey ha hname⟩

theorem means_index {a : Token} (ha : a.terminal = .atom .unsigned) (h : a.text ∈ a.terminal.language) :
    ∃ n, Means [.node .index [.leaf a]] [.selector (.index n)] := by
  rw [ha] at h
  exact ⟨_, .index ha (value?_of_mem h)⟩

theorem means_step (s : Step) (h : s.Worded) : ∃ sel : Selector, sel.IsPlain ∧ Means s.trees [.selector sel] := by
  induction s using step_cases with
  | root a ha => exact ⟨.root, trivial, by simpa using Means.node .nil rfl⟩
  | bareDescent a ha b hb =>
    obtain ⟨k, hk, hm⟩ := means_bareKey hb (h b (by simp [descent, bareKey, word]))
    exact ⟨.descent k, hk, by simpa using Means.descent hm⟩
  | bracketDescent a ha b c d hb hc hd =>
    obtain ⟨k, hk, hm⟩ := means_quotedKey hc (h c (by simp [descent, bracketKey, word]))
    exact ⟨.descent k, hk, by simpa using Means.descent hm⟩
  | bracketWildcard => exact ⟨.wildcard, trivial, by simpa using Means.node .nil rfl⟩
  | dotBracketWildcard => exact ⟨.wildcard, trivial, by simpa using Means.node .nil rfl⟩
  | dotWildcard => exact ⟨.wildcard, trivial, by simpa using Means.node .nil rfl⟩
  | bracketField a b c ha hb hc =>
    obtain ⟨k, hk, hm⟩ := means_quotedKey hb (h b (by simp [bracketField, bracketKey, word]))
    exact ⟨.field k, hk, by simpa using Means.field hm⟩
  | dotBracketField o ho a b c ha hb hc =>
    obtain ⟨k, hk, hm⟩ := means_quotedKey hb (h b (by simp [bracketField, bracketKey, dot, word]))
    exact ⟨.field k, hk, by simpa using Means.field hm⟩
  | bareField a ha b hb =>
    obtain ⟨k, hk, hm⟩ := means_bareKey hb (h b (by simp [bareField, bareKey, word]))
    exact ⟨.field k, hk, by simpa using Means.field hm⟩
  | index a b c ha hb hc =>
    obtain ⟨n, hm⟩ := means_index hb (h b (by simp [index, word]))
    exact ⟨.index n, trivial, by simpa using hm⟩

theorem means_chain (d : Chain) (h : d.Worded) : ∃ p, Path.IsCanonical p ∧ Means d.trees (p.map .selector) := by
  induction d using chain_induction with
  | single s =>
    obtain ⟨sel, hsel, hm⟩ := means_step s (by simpa [Worded] using h)
    exact ⟨[sel], .single hsel, by simpa using hm⟩
  | cons s d ih =>
    simp only [Worded, word_cons, List.forall_mem_append] at h
    obtain ⟨sel, hsel, hm⟩ := means_step s h.1
    obtain ⟨p, hp, hms⟩ := ih h.2
    refine ⟨sel :: p, .cons hsel hp, ?_⟩
    rw [trees_cons]
    exact hm.append hms
  | nest a ha d ih =>
    simp only [Worded, word_nest, List.forall_mem_cons] at h
    obtain ⟨p, hp, hm⟩ := ih h.2
    exact ⟨[.current p], .nest hp, by simpa using Means.current hm⟩

end Grammar.Derivation

/-! ## Trees that were read -/

theorem lower_path {s : Text} {t : Tree Token} (h : Rule.path.read s = .ok t) :
    ∃ p, Path.IsCanonical p ∧ t.unplaced.expression = .ok (.path p) := by
  obtain ⟨c, ⟨p, u, hp, -, -⟩, rfl⟩ := read_path_eq_ok_iff.mp h
  obtain ⟨q, hq, hm⟩ := c.means_chain hp.text_mem
  exact ⟨q, hq, hm.path.expression rfl⟩

namespace Rule

theorem value_of_anchored {α : Type} {r : Rule Cursor α} {c : Cursor} {a : α} (h : (anchored r c).value = some a) :
    (r c).value = some a := by
  cases hr : r c with
  | mk value stop ms =>
    cases value with
    | none =>
      rw [anchored_none hr] at h
      cases h
    | some b =>
      rw [anchored_some hr] at h
      split at h
      · exact h
      · cases h

/-- What a rule for one atom reads is a leaf with a word of that atom. -/
theorem exists_token {r : Rule Cursor (Tree Token)} {n : Nonterminal} {x : Atom} {s : Text} {t : Tree Token}
    (hr : Covers (.start s) (r (.start s)) [[.atom x]] (IsTree (.rule n))) (h : (anchored r).read s = .ok t) :
    ∃ d : Derivation (.rule n), d.trees = [t] ∧ d.Worded := by
  obtain ⟨_, -, _, hfollow, d, rfl, ht⟩ := hr.followed t (value_of_anchored (read_eq_ok_iff.mp h))
  obtain ⟨p, rest, -, hp, -⟩ := Follows.stretch (b := []) hfollow
  exact ⟨d, ht, hp.text_mem⟩

end Rule

theorem lower_sign {s : Text} {t : Tree Token} (h : (Rule.anchored Rule.sign).read s = .ok t) :
    ∃ g, t.unplaced.expression = .ok (.sign g) := by
  obtain ⟨d, ht, hw⟩ := Rule.exists_token (Rule.covers_sign _) h
  cases d with
  | rule d =>
    cases d with
    | token a ha =>
      have hmem : a.text ∈ a.terminal.language := hw a (List.mem_singleton_self a)
      rw [ha] at hmem
      obtain ⟨g, hg⟩ := mem_sign hmem
      obtain rfl : Tree.node .sign [.leaf a] = t := by
        simpa [Derivation.trees_rule, Derivation.trees_token, Nonterminal.label?, isKept] using ht
      exact ⟨g, (Means.sign ha hg).expression rfl⟩

theorem lower_number {s : Text} {t : Tree Token} (h : (Rule.anchored Rule.number).read s = .ok t) :
    ∃ n, t.unplaced.expression = .ok (.number n) := by
  obtain ⟨d, ht, -⟩ := Rule.exists_token (Rule.covers_number _) h
  cases d with
  | rule d =>
    cases d with
    | token a ha =>
      obtain rfl : Tree.node .number [.leaf a] = t := by
        simpa [Derivation.trees_rule, Derivation.trees_token, Nonterminal.label?, isKept] using ht
      exact ⟨_, (Means.number ha).expression rfl⟩

/-! ## Paths and malformed sources -/

section Backends

variable {env : Environment} {asked : Option Text} {b : Backend} {engine : Engine} {s : Text}

theorem readPath_of_ok (hb : env.resolveBackend asked = .ok b) (hengine : engine.FollowsGrammar b) {t : Tree Token}
    {p : Path} (h : Rule.path.read s = .ok t) (ht : t.unplaced.expression = .ok (.path p)) :
    readPath env asked s engine = .ok p := by
  have hread := (Backend.read_path_eq_ok_iff hengine).mpr h
  simp only [readPath, readTree, hb, hread, Tree.path, ht, Bind.bind, Except.bind, Except.mapError]

theorem readPath_of_error (hb : env.resolveBackend asked = .ok b) {e : SyntaxError}
    (h : b.read .path s engine = .error e) : readPath env asked s engine = .error (.malformed e) := by
  simp only [readPath, readTree, hb, h, Bind.bind, Except.bind, Except.mapError]

/-- With a known backend that follows the grammar, a source is a canonical path or malformed. -/
theorem readPath_cases (hb : env.resolveBackend asked = .ok b) (hengine : engine.FollowsGrammar b) (s : Text) :
    (∃ p, Path.IsCanonical p ∧ readPath env asked s engine = .ok p) ∨
      ∃ e, readPath env asked s engine = .error (.malformed e) := by
  cases h : b.read .path s engine with
  | ok t =>
    have hread := (Backend.read_path_eq_ok_iff hengine).mp h
    obtain ⟨p, hp, ht⟩ := lower_path hread
    exact .inl ⟨p, hp, readPath_of_ok hb hengine hread ht⟩
  | error e => exact .inr ⟨_, readPath_of_error hb h⟩

end Backends

/-- Lowering does not fail on what was read, so with a known backend that follows the grammar, a source is a path or
    malformed. -/
theorem lowering_total :
    (∀ s t, Rule.path.read s = .ok t → ∃ p, Path.IsCanonical p ∧ t.unplaced.expression = .ok (.path p)) ∧
    (∀ s t, (Rule.anchored Rule.sign).read s = .ok t → ∃ g, t.unplaced.expression = .ok (.sign g)) ∧
    (∀ s t, (Rule.anchored Rule.number).read s = .ok t → ∃ n, t.unplaced.expression = .ok (.number n)) ∧
    ∀ engine env asked b, env.resolveBackend asked = .ok b → Engine.FollowsGrammar engine b → ∀ s,
      (∀ e, readPath env asked s engine = .error e → ∃ m, e = .malformed m) ∧
      (isValidPath env asked s engine = .ok true ↔ ∃ p, readPath env asked s engine = .ok p) ∧
      (isValidPath env asked s engine = .ok false ↔ ∃ m, readPath env asked s engine = .error (.malformed m)) ∧
      ∃ v, isValidPath env asked s engine = .ok v := by
  refine ⟨fun s t => lower_path, fun s t => lower_sign, fun s t => lower_number, ?_⟩
  intro engine env asked b hb hengine s
  rcases readPath_cases hb hengine s with ⟨p, -, hp⟩ | ⟨e, he⟩
  · simp [isValidPath, hp]
  · simp [isValidPath, he]

theorem lowering_total_of_escape :
    (∃ g, (Tree.node .sign [.leaf ⟨.atom .sign, "==", 0, 2, ⟨1, 1⟩⟩]).unplaced.expression = .ok (.sign g)) ∧
      ∃ p, readPath ⟨some "lalr", none⟩ none "$['\\ud83d\\ude00\\/']" = .ok p := by
  have hsign : (Rule.anchored Rule.sign).read "==" =
      .ok (.node .sign [.leaf ⟨.atom .sign, "==", 0, 2, ⟨1, 1⟩⟩]) := by
    decide +kernel
  have hb : (⟨some "lalr", none⟩ : Environment).resolveBackend none = .ok (.driven .lalr) := by decide +kernel
  have hv : isValidPath ⟨some "lalr", none⟩ none "$['\\ud83d\\ude00\\/']" = .ok true := by decide +kernel
  obtain ⟨-, lower, -, lowerPath⟩ := lowering_total
  exact ⟨lower _ _ hsign, (lowerPath _ _ _ _ hb (Engine.ofRules_followsGrammar _) _).2.1.mp hv⟩

end JsonPath
