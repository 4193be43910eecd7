/-
  JsonPath.Proofs.Relocation — the same words at another place.

  Where a token stood does not matter to what it means. A derivation takes other tokens in
  the place of its own, if they have the same terminals and words (`Token.content`), and
  its trees differ from the old ones in nothing but places. So what is spelled behind one
  text can be spelled behind another, or with more blanks before it.

  A source is a path if it spells a chain that means that path (`readPath_eq_ok_iff`).
  Nothing is said there of cursors, runs or backends, and what follows about the sources
  of paths needs no more than that.
-/

import JsonPath.Proofs.Lowering

namespace JsonPath

open scoped Computability
open Lexicon Grammar

/-- A token without its place. -/
def Token.content (a : Token) : Terminal × Text := (a.terminal, a.text)

theorem Token.leaf_eq {a b : Token} (h : a.content = b.content) : a.leaf = b.leaf := by
  obtain ⟨ht, hw⟩ := Prod.mk.inj h
  rw [leaf, leaf, ht, hw]

/-! ## Derivations -/

namespace Grammar.Derivation

/-- A derivation with other tokens, of the same terminals and words. -/
theorem exists_of_content {p : Phrase} (d : Derivation p) {as : List Token}
    (h : as.map Token.content = d.word.map Token.content) :
    ∃ e : Derivation p, e.word = as ∧ Tree.mapList Token.leaf e.trees = Tree.mapList Token.leaf d.trees := by
  induction d generalizing as with
  | token a ha =>
    obtain ⟨b, bs, rfl, hb, hnil⟩ := List.map_eq_cons_iff.mp h
    obtain rfl := List.map_eq_nil_iff.mp hnil
    have hterminal : b.terminal = a.terminal := (Prod.mk.inj hb).1
    refine ⟨.token b (hterminal.trans ha), rfl, ?_⟩
    simp only [trees_token]
    split
    · simp only [Tree.mapList, Tree.map, Token.leaf_eq hb]
    · rfl
  | @rule n d ih =>
    obtain ⟨e, rfl, ht⟩ := ih h
    refine ⟨.rule e, rfl, ?_⟩
    simp only [trees_rule]
    split
    · simp only [Tree.mapList, Tree.map, ht]
    · exact ht
  | both d₁ d₂ ih₁ ih₂ =>
    rw [word, List.map_append] at h
    obtain ⟨as₁, as₂, rfl, h₁, h₂⟩ := List.map_eq_append_iff.mp h
    obtain ⟨e₁, rfl, ht₁⟩ := ih₁ h₁
    obtain ⟨e₂, rfl, ht₂⟩ := ih₂ h₂
    refine ⟨.both e₁ e₂, rfl, ?_⟩
    simp only [Tree.mapList_eq_map] at ht₁ ht₂ ⊢
    simp only [trees_both, List.map_append, ht₁, ht₂]
  | left d ih =>
    obtain ⟨e, rfl, ht⟩ := ih h
    exact ⟨.left e, rfl, ht⟩
  | right d ih =>
    obtain ⟨e, rfl, ht⟩ := ih h
    exact ⟨.right e, rfl, ht⟩
  | absent =>
    obtain rfl := List.map_eq_nil_iff.mp h
    exact ⟨.absent, rfl, rfl⟩
  | present d ih =>
    obtain ⟨e, rfl, ht⟩ := ih h
    exact ⟨.present e, rfl, ht⟩
  | last d ih =>
    obtain ⟨e, rfl, ht⟩ := ih h
    exact ⟨.last e, rfl, ht⟩
  | more d₁ d₂ ih₁ ih₂ =>
    rw [word, List.map_append] at h
    obtain ⟨as₁, as₂, rfl, h₁, h₂⟩ := List.map_eq_append_iff.mp h
    obtain ⟨e₁, rfl, ht₁⟩ := ih₁ h₁
    obtain ⟨e₂, rfl, ht₂⟩ := ih₂ h₂
    refine ⟨.more e₁ e₂, rfl, ?_⟩
    simp only [Tree.mapList_eq_map] at ht₁ ht₂ ⊢
    simp only [trees_more, List.map_append, ht₁, ht₂]

end Grammar.Derivation

/-! ## Texts -/

namespace Stretch

variable {b p u : Text} {as : List Token}

/-- The same text behind another. -/
theorem relocate (h : Stretch b as p) (b' : Text) :
    ∃ bs, bs.map Token.content = as.map Token.content ∧ Stretch b' bs p := by
  induction h generalizing b' with
  | nil => exact ⟨[], rfl, .nil b'⟩
  | @cons b u w rest t ts hu hw _ ih =>
    obtain ⟨bs, hbs, hrest⟩ := ih (b' ++ u ++ w)
    exact ⟨.behind (b' ++ u) t w :: bs, congrArg ((t, w) :: ·) hbs, .cons hu hw hrest⟩

theorem Ends.of_content {bs : List Token} {r : Text} (h : Ends as r) (hbs : bs.map Token.content = as.map Token.content) :
    Ends bs r := by
  intro b hb
  have hlast := congrArg List.getLast? hbs
  rw [List.getLast?_map, List.getLast?_map, Option.mem_def.mp hb] at hlast
  obtain ⟨a, ha, hab⟩ := Option.map_eq_some_iff.mp hlast.symm
  obtain ⟨hterminal, htext⟩ := Prod.mk.inj hab
  rw [← hterminal, ← htext]
  exact h a ha

/-- More blanks in front belong to the first word. -/
theorem blanks (h : Stretch (b ++ u) as p) (hne : as ≠ []) (hu : u ∈ blank∗) : Stretch b as (u ++ p) := by
  cases h with
  | nil => exact absurd rfl hne
  | @cons _ v w rest t ts hv hw hrest =>
    have hcons : Stretch b _ _ := .cons (star_append_mem_star hu hv) hw (by simpa using hrest)
    simpa using hcons

end Stretch

/-- A chain that is spelled somewhere is spelled behind any text and any blanks, and means the same. -/
theorem Grammar.Derivation.relocate (d : Chain) {b p : Text} (h : Stretch b d.word p) {ms : List Meaning}
    (hm : Means d.trees ms) (b' : Text) {u : Text} (hu : u ∈ blank∗) :
    ∃ e : Chain, Stretch b' e.word (u ++ p) ∧ Means e.trees ms := by
  obtain ⟨as, has, hstretch⟩ := h.relocate (b' ++ u)
  obtain ⟨e, rfl, htrees⟩ := d.exists_of_content has
  refine ⟨e, hstretch.blanks e.chain_word_ne_nil hu, ?_⟩
  rwa [Means, htrees]

/-! ## Sources of paths -/

theorem Means.unique {ts : List (Tree Token)} {ms ns : List Meaning} (h : Means ts ms) (h' : Means ts ns) : ms = ns :=
  Except.ok.inj (h.symm.trans h')

theorem Meaning.map_selector_inj {p q : Path} (h : p.map Meaning.selector = q.map Meaning.selector) : p = q := by
  rw [← map_toSelector p, h, map_toSelector]

/-- With a known backend that follows the grammar, a source is the path that its chain means. -/
theorem readPath_eq_ok_iff {env : Environment} {asked : Option Text} {engine : Engine}
    (hengine : engine.Serves env asked) {s : Text} {p : Path} :
    readPath env asked s engine = .ok p ↔
      (∃ b, env.resolveBackend asked = .ok b) ∧ ∃ d : Chain, Spelled d.word s ∧ Means d.trees (p.map .selector) := by
  constructor
  · intro h
    cases hb : env.resolveBackend asked with
    | error e =>
      simp only [readPath, readTree, hb, Bind.bind, Except.bind, Except.mapError] at h
      cases h
    | ok b =>
      refine ⟨⟨b, rfl⟩, ?_⟩
      cases hread : b.read .path s engine with
      | error e =>
        rw [readPath_of_error hb hread] at h
        cases h
      | ok t =>
        have hread := (Backend.read_path_eq_ok_iff (hengine b hb)).mp hread
        obtain ⟨c, ⟨v, u, hv, hu, rfl⟩, rfl⟩ := read_path_eq_ok_iff.mp hread
        obtain ⟨q, -, hm⟩ := c.means_chain hv.text_mem
        rw [readPath_of_ok hb (hengine b hb) hread (hm.path.expression rfl)] at h
        obtain rfl := Except.ok.inj h
        exact ⟨c, ⟨v, u, hv, hu, rfl⟩, hm⟩
  · rintro ⟨⟨b, hb⟩, c, hspelled, hm⟩
    exact readPath_of_ok hb (hengine b hb) (read_path_eq_ok_iff.mpr ⟨c, hspelled, rfl⟩) (hm.path.expression rfl)

end JsonPath
