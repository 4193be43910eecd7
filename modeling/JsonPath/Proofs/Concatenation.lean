/-
  JsonPath.Proofs.Concatenation — reading two sources put together.

  One source behind another is read as the one path behind the other. Behind means where
  the first chain would have gone on: an `@` takes the rest of its chain, so if the first
  path ends in nested paths, the second one goes to the end of the innermost
  (`Path.graft`).

  No word grows across the junction. That need not be looked at code point by code
  point: the two derivations put together are one derivation of a chain
  (`exists_graft`), its words are spelled by the two texts together, and whatever spells
  a chain is read as that chain.

  Proved: `readPath_append`, also with an `@` between the two.
-/

import JsonPath.Proofs.Relocation

namespace JsonPath

open scoped Computability
open Lexicon Grammar

/-! ## Grafting -/

mutual

/-- The path with `q` behind its last selector, or inside of that if it holds a path. -/
def Path.graft : List Selector → Path → Path
  | [], q => q
  | [s], q => Selector.graft s q
  | s :: t :: p, q => s :: Path.graft (t :: p) q

def Selector.graft : Selector → Path → Path
  | .current p, q => [.current (Path.graft p q)]
  | s, q => s :: q

end

theorem Path.graft_plain {s : Selector} (h : s.IsPlain) (q : Path) : Path.graft [s] q = s :: q := by
  cases s with
  | current => exact h.elim
  | _ => rfl

theorem Path.graft_cons (s : Selector) {p : Path} (h : p ≠ []) (q : Path) :
    Path.graft (s :: p) q = s :: Path.graft p q := by
  obtain ⟨t, p, rfl⟩ := List.exists_cons_of_ne_nil h
  rfl

/-- Two chains make one, and what it means is the one path grafted on the other. -/
theorem Grammar.Derivation.exists_graft (d e : Chain) (h : d.Worded) {q : Path} (he : Means e.trees (q.map .selector)) :
    ∃ c : Chain, c.word = d.word ++ e.word ∧ ∃ p, p ≠ [] ∧ Means d.trees (p.map .selector) ∧
      Means c.trees ((Path.graft p q).map .selector) := by
  induction d using chain_induction with
  | single s =>
    obtain ⟨sel, hsel, hm⟩ := means_step s (by simpa [Worded] using h)
    refine ⟨.cons s e, by simp, [sel], List.cons_ne_nil _ _, by simpa using hm, ?_⟩
    rw [trees_cons, Path.graft_plain hsel]
    exact hm.append he
  | cons s d ih =>
    simp only [Worded, word_cons, List.forall_mem_append] at h
    obtain ⟨sel, -, hm⟩ := means_step s h.1
    obtain ⟨c, hc, p, hp, hd, hgraft⟩ := ih h.2
    refine ⟨.cons s c, by simp [hc], sel :: p, List.cons_ne_nil _ _, ?_, ?_⟩
    · rw [trees_cons]
      exact hm.append hd
    · rw [trees_cons, Path.graft_cons sel hp]
      exact hm.append hgraft
  | nest a ha d ih =>
    simp only [Worded, word_nest, List.forall_mem_cons] at h
    obtain ⟨c, hc, p, -, hd, hgraft⟩ := ih h.2
    refine ⟨.nest a ha c, by simp [hc], [.current p], List.cons_ne_nil _ _, ?_, ?_⟩
    · rw [trees_nest]
      exact hd.current
    · rw [trees_nest]
      exact hgraft.current

/-- A chain that is spelled somewhere is spelled behind any text and an `@`, which holds it. -/
theorem Grammar.Derivation.relocate_nest (d : Chain) {b v : Text} (h : Stretch b d.word v) {p : Path}
    (hm : Means d.trees (p.map .selector)) (b' : Text) {u : Text} (hu : u ∈ blank∗) :
    ∃ e : Chain, Stretch b' e.word (u ++ Text.ofString "@" ++ v) ∧
      Means e.trees (([.current p] : Path).map .selector) := by
  obtain ⟨e, hstretch, he⟩ := d.relocate h hm (b' ++ u ++ Text.ofString "@") (Language.nil_mem_kstar blank)
  have hat : (Token.behind (b' ++ u) (.mark .at) "@").terminal = .mark .at := rfl
  refine ⟨.nest _ hat e, ?_, ?_⟩
  · rw [word_nest]
    exact .cons hu rfl hstretch
  · rw [trees_nest]
    exact he.current

/-! ## Sources put together -/

theorem readPath_of_graft {env : Environment} {asked : Option Text} {b : Backend} {engine : Engine}
    (hb : env.resolveBackend asked = .ok b) (hengine : engine.Serves env asked) {d e : Chain} {v w u : Text}
    {p q : Path} (hd : Stretch [] d.word v) (hp : Means d.trees (p.map .selector)) (he : Stretch v e.word w)
    (hq : Means e.trees (q.map .selector)) (hu : u ∈ blank∗) :
    readPath env asked (v ++ w ++ u) engine = .ok (Path.graft p q) := by
  obtain ⟨c, hc, p', -, hp', hgraft⟩ := d.exists_graft e hd.text_mem hq
  obtain rfl := Meaning.map_selector_inj (hp'.unique hp)
  refine (readPath_eq_ok_iff hengine).mpr ⟨⟨b, hb⟩, c, ⟨v ++ w, u, ?_, hu, rfl⟩, hgraft⟩
  rw [hc]
  exact hd.append he

/-- A source behind another is read as a path grafted on another, and with `@` between them, as one that is held. -/
theorem readPath_append (env : Environment) (asked : Option Text) (engine : Engine) (hengine : engine.Serves env asked)
    (s₁ s₂ : Text) (p₁ p₂ : Path) (h₁ : readPath env asked s₁ engine = .ok p₁)
    (h₂ : readPath env asked s₂ engine = .ok p₂) :
    readPath env asked (s₁ ++ s₂) engine = .ok (Path.graft p₁ p₂) ∧
      readPath env asked (s₁ ++ "@" ++ s₂) engine = .ok (Path.graft p₁ [.current p₂]) := by
  obtain ⟨⟨b, hb⟩, d, ⟨v, u, hv, hu, rfl⟩, hd⟩ := (readPath_eq_ok_iff hengine).mp h₁
  obtain ⟨-, e, ⟨w, u', hw, hu', rfl⟩, he⟩ := (readPath_eq_ok_iff hengine).mp h₂
  constructor
  · obtain ⟨e', hstretch, he'⟩ := e.relocate hw he v hu
    have hread := readPath_of_graft hb hengine hv hd hstretch he' hu'
    rwa [show v ++ (u ++ w) ++ u' = v ++ u ++ (w ++ u') by simp] at hread
  · obtain ⟨e', hstretch, he'⟩ := e.relocate_nest hw he v hu
    have hread := readPath_of_graft hb hengine hv hd hstretch he' hu'
    rwa [show v ++ (u ++ Text.ofString "@" ++ w) ++ u' = v ++ u ++ "@" ++ (w ++ u') by simp] at hread

theorem readPath_append_of_nested :
    readPath ⟨none, none⟩ none "$@.a@[0] " = .ok [.root, .current [.field (.bare "a"), .current [.index 0]]] ∧
    readPath ⟨none, none⟩ none " .b" = .ok [.field (.bare "b")] ∧
    readPath ⟨none, none⟩ none ("$@.a@[0] " ++ " .b") =
      .ok [.root, .current [.field (.bare "a"), .current [.index 0, .field (.bare "b")]]] ∧
    readPath ⟨none, none⟩ none ("$@.a@[0] " ++ "@" ++ " .b") =
      .ok [.root, .current [.field (.bare "a"), .current [.index 0, .current [.field (.bare "b")]]]] := by
  have h₁ : readPath ⟨none, none⟩ none "$@.a@[0] " =
      .ok [.root, .current [.field (.bare "a"), .current [.index 0]]] := by
    decide +kernel
  have h₂ : readPath ⟨none, none⟩ none " .b" = .ok [.field (.bare "b")] := by decide +kernel
  exact ⟨h₁, h₂, readPath_append ⟨none, none⟩ none _ (Engine.ofRules_serves _ _) _ _ _ _ h₁ h₂⟩

end JsonPath
