/-
  JsonPath.Proofs.Regrouping — what is left of a path once it is written.

  A path that was built by hand may have selectors behind a nested path, or nothing in
  one. Its text says where each nested path opens and never where one closes, so of the
  path only the sequence of its items is left: the selectors from left to right, with a
  mark where a nested path opens (`Path.flat`). Reading gives each mark all that follows
  it (`Path.regroup`), which is the one canonical path with these items, and nothing can
  be read if the items end with a mark or there are none.

  What the sequence is can be told from the text. For items that a path can be read
  from this is so because reading finds them; others become such items if one more
  selector is written behind them.

  Proved: `regrouping`.
-/

import JsonPath.Proofs.Ending
import JsonPath.Proofs.RoundTrip

namespace JsonPath

open scoped Computability
open Lexicon Grammar

/-! ## Items -/

/-- What a path writes at one go. -/
inductive Item where
  | selector (s : Selector)
  /-- A nested path opens. -/
  | opening
  deriving DecidableEq

def Selector.item : Selector → Item
  | .current _ => .opening
  | s => .selector s

mutual

def Selector.flat : Selector → List Item
  | .current path => .opening :: Path.flat path
  | s => [.selector s]

/-- The selectors of a path from left to right, with a mark where each nested path opens. -/
def Path.flat : List Selector → List Item
  | [] => []
  | s :: p => s.flat ++ Path.flat p

end

/-- The path in which each nested path goes on to the end. -/
def Path.regroup : List Item → Path
  | [] => []
  | .selector s :: items => s :: regroup items
  | .opening :: items => [.current (regroup items)]

theorem Selector.flat_eq (s : Selector) : s.flat = s.item :: Path.flat s.inner := by
  cases s <;> simp [Selector.flat, Selector.item, Selector.inner, Path.flat]

theorem Path.flat_append (p q : Path) : flat (p ++ q) = flat p ++ flat q := by
  induction p with
  | nil => rfl
  | cons s p ih => rw [List.cons_append, flat, flat, ih, List.append_assoc]

/-! ## Paths that have a text -/

mutual

/-- A selector with nothing unknown in it, whose bare keys, at any depth, are names. -/
def Selector.IsProper : Selector → Prop
  | .current path => Path.IsProper path
  | s => s.IsPlain

def Path.IsProper : List Selector → Prop
  | [] => True
  | s :: p => s.IsProper ∧ Path.IsProper p

end

def Item.IsPlain : Item → Prop
  | .selector s => s.IsPlain
  | .opening => True

mutual

theorem Selector.isProper_iff : ∀ s : Selector, s.IsProper ↔ ∀ i ∈ s.flat, i.IsPlain
  | .current path => by simp [Selector.IsProper, Selector.flat, Item.IsPlain, Path.isProper_iff path]
  | .root | .wildcard | .descent _ | .field _ | .index _ | .unknown _ => by
    simp [Selector.IsProper, Selector.flat, Item.IsPlain]

theorem Path.isProper_iff : ∀ p : List Selector, Path.IsProper p ↔ ∀ i ∈ Path.flat p, i.IsPlain
  | [] => by simp [Path.IsProper, Path.flat]
  | s :: p => by
    rw [Path.IsProper, Path.flat, List.forall_mem_append, Selector.isProper_iff s, Path.isProper_iff p]

end

/-! ## The text of items -/

namespace Item

def head : Item → Except TextError Text
  | .selector s => s.head
  | .opening => .ok "@"

def texts : List Item → Except TextError Text
  | [] => .ok []
  | i :: items => do
    let head ← i.head
    let rest ← texts items
    return head ++ rest

theorem head_item (s : Selector) : s.item.head = s.head := by cases s <;> rfl

theorem texts_append (is js : List Item) :
    texts (is ++ js) = do
      let a ← texts is
      let b ← texts js
      return a ++ b := by
  induction is with
  | nil => exact (bind_pure (texts js)).symm
  | cons i is ih =>
    rw [List.cons_append, texts, texts, ih]
    simp only [bind_assoc, pure_bind, List.append_assoc]

theorem exists_texts {is : List Item} (h : ∀ i ∈ is, i.IsPlain) : ∃ t, texts is = .ok t := by
  induction is with
  | nil => exact ⟨[], rfl⟩
  | cons i is ih =>
    rw [List.forall_mem_cons] at h
    obtain ⟨t, ht⟩ := ih h.2
    have hhead : ∃ w, i.head = .ok w := by
      cases i with
      | opening => exact ⟨_, rfl⟩
      | selector s =>
        obtain ⟨-, w, hw, -⟩ := Selector.exists_head h.1
        exact ⟨w, hw⟩
    obtain ⟨w, hw⟩ := hhead
    exact ⟨w ++ t, by rw [texts, hw, ht]; rfl⟩

end Item

theorem Path.walk_eq_texts (pending : List Path) : walk pending = Item.texts (flat pending.flatten) := by
  fun_induction walk pending with
  | case1 => rfl
  | case2 outer ih => rw [ih, List.flatten_cons, List.nil_append]
  | case3 s p outer ih =>
    rw [ih, List.flatten_cons, List.flatten_cons, List.flatten_cons, List.cons_append, flat, flat_append,
      Selector.flat_eq, List.cons_append, Item.texts, Item.head_item]

/-- The text of a path is that of its items. -/
theorem Path.text_eq_texts (p : Path) : p.text = Item.texts (flat p) := by
  rw [text, walk_eq_texts, List.flatten_singleton]

/-! ## Items that can be read -/

namespace Item

/-- There is an item, and the last one is a selector. -/
def IsClosed (is : List Item) : Prop := is ≠ [] ∧ is.getLast? ≠ some .opening

theorem isClosed_concat (is : List Item) (s : Selector) : IsClosed (is ++ [.selector s]) := by
  simp [IsClosed]

theorem IsClosed.tail {i : Item} {is : List Item} (h : IsClosed (i :: is)) (hne : is ≠ []) : IsClosed is := by
  obtain ⟨j, js, rfl⟩ := List.exists_cons_of_ne_nil hne
  refine ⟨hne, ?_⟩
  rw [← List.getLast?_cons_cons]
  exact h.2

end Item

theorem Path.flat_regroup {is : List Item} (h : ∀ i ∈ is, i.IsPlain) : flat (regroup is) = is := by
  induction is with
  | nil => rfl
  | cons i is ih =>
    rw [List.forall_mem_cons] at h
    cases i with
    | opening => rw [regroup, flat, flat, Selector.flat, ih h.2, List.append_nil]
    | selector s =>
      have hs : s.flat = [.selector s] := by
        cases s with
        | current => exact h.1.elim
        | _ => simp [Selector.flat]
      rw [regroup, flat, hs, ih h.2, List.singleton_append]

theorem Path.isCanonical_regroup {is : List Item} (h : ∀ i ∈ is, i.IsPlain) (hc : Item.IsClosed is) :
    IsCanonical (regroup is) := by
  induction is with
  | nil => exact absurd rfl hc.1
  | cons i is ih =>
    rw [List.forall_mem_cons] at h
    by_cases hne : is = []
    · subst hne
      cases i with
      | opening => exact absurd rfl hc.2
      | selector s => exact .single h.1
    · have htail := ih h.2 (hc.tail hne)
      cases i with
      | opening => exact .nest htail
      | selector s => exact .cons h.1 htail

/-- What items write reads as the path that regroups them. -/
theorem readPath_texts {env : Environment} {asked : Option Text} {b : Backend} {engine : Engine}
    (hb : env.resolveBackend asked = .ok b) (hengine : engine.Serves env asked) {is : List Item}
    (h : ∀ i ∈ is, i.IsPlain) (hc : Item.IsClosed is) {t : Text} (ht : Item.texts is = .ok t) :
    readPath env asked t engine = .ok (Path.regroup is) := by
  obtain ⟨u, hu, hread⟩ := (Path.isCanonical_regroup h hc).exists_readable
  rw [Path.text_eq_texts, Path.flat_regroup h, ht] at hu
  obtain rfl := Except.ok.inj hu
  exact hread hb hengine

/-- Items that are not closed write nothing, or an `@` at the end. -/
theorem isClosed_of_readPath {env : Environment} {asked : Option Text} {engine : Engine}
    (hengine : engine.Serves env asked) {is : List Item} {t : Text} (ht : Item.texts is = .ok t) {p : Path}
    (hread : readPath env asked t engine = .ok p) : Item.IsClosed is := by
  obtain ⟨-, d, hspelled, -⟩ := (readPath_eq_ok_iff hengine).mp hread
  obtain ⟨c, hc, hends⟩ := hspelled.exists_getLast
  refine ⟨?_, fun hlast => ?_⟩
  · rintro rfl
    obtain rfl := Except.ok.inj ht
    cases hc
  · obtain ⟨js, rfl⟩ := List.getLast?_eq_some_iff.mp hlast
    rw [Item.texts_append] at ht
    cases hjs : Item.texts js with
    | error e =>
      rw [hjs] at ht
      cases ht
    | ok a =>
      rw [hjs] at ht
      obtain rfl : a ++ "@" = t := Except.ok.inj ht
      rw [List.getLast?_append] at hc
      obtain rfl : CodePoint.ofChar '@' = c := Option.some.inj hc
      revert hends
      decide

theorem Item.texts_inj {is js : List Item} (hi : ∀ i ∈ is, i.IsPlain) (hj : ∀ j ∈ js, j.IsPlain)
    (h : texts is = texts js) : is = js := by
  have hroot : ∀ i ∈ [Item.selector .root], i.IsPlain := List.forall_mem_singleton.mpr trivial
  have hi' := List.forall_mem_append.mpr ⟨hi, hroot⟩
  have hj' := List.forall_mem_append.mpr ⟨hj, hroot⟩
  have hb : (⟨none, none⟩ : Environment).resolveBackend none = .ok .rd := by decide +kernel
  obtain ⟨t, ht⟩ := exists_texts hi'
  have ht' : texts (js ++ [.selector .root]) = .ok t := by rw [← ht, texts_append, texts_append, h]
  have hengine := Engine.ofRules_serves ⟨none, none⟩ none
  have hread := readPath_texts hb hengine hi' (isClosed_concat is _) ht
  rw [readPath_texts hb hengine hj' (isClosed_concat js _) ht'] at hread
  have hflat := congrArg Path.flat (Except.ok.inj hread)
  rw [Path.flat_regroup hi', Path.flat_regroup hj'] at hflat
  exact (List.append_cancel_right hflat).symm

/-- What becomes of a path that is written and read, and which paths have the same text. -/
theorem regrouping :
    (∀ engine env asked b, env.resolveBackend asked = .ok b → Engine.FollowsGrammar engine b →
      ∀ p, Path.IsProper p → ∃ t, Path.text p = .ok t ∧
        ((∃ q, readPath env asked t engine = .ok q) ↔ Path.flat p ≠ [] ∧ (Path.flat p).getLast? ≠ some .opening) ∧
        ∀ q, readPath env asked t engine = .ok q → q = Path.regroup (Path.flat p)) ∧
    ∀ p q, Path.IsProper p → Path.IsProper q → (Path.text p = Path.text q ↔ Path.flat p = Path.flat q) := by
  refine ⟨fun engine env asked b hb hengine p hp => ?_, fun p q hp hq => ?_⟩
  · have hserves := hengine.serves hb
    rw [Path.isProper_iff] at hp
    obtain ⟨t, ht⟩ := Item.exists_texts hp
    refine ⟨t, (Path.text_eq_texts p).trans ht, ⟨fun ⟨q, hq⟩ => isClosed_of_readPath hserves ht hq, fun hc => ?_⟩,
      fun q hq => ?_⟩
    · exact ⟨_, readPath_texts hb hserves hp hc ht⟩
    · have hread := readPath_texts hb hserves hp (isClosed_of_readPath hserves ht hq) ht
      exact Except.ok.inj (hq.symm.trans hread)
  · rw [Path.text_eq_texts, Path.text_eq_texts]
    exact ⟨Item.texts_inj ((Path.isProper_iff p).mp hp) ((Path.isProper_iff q).mp hq), congrArg Item.texts⟩

theorem regrouping_of_closed_nest :
    (∃ t, Path.text [.current [.root], .current [], .wildcard] = .ok t ∧
      readPath ⟨none, none⟩ none t = .ok [.current [.root, .current [.wildcard]]]) ∧
    (∃ t, Path.text [.root, .current []] = .ok t ∧ ¬ ∃ q, readPath ⟨none, none⟩ none t = .ok q) ∧
    Path.text [.current [.root], .current [], .wildcard] = Path.text [.current [.root, .current [.wildcard]]] := by
  have hb : (⟨none, none⟩ : Environment).resolveBackend none = .ok .rd := by decide +kernel
  obtain ⟨written, same⟩ := regrouping
  refine ⟨?_, ?_, (same _ _ (by simp [Path.IsProper, Selector.IsProper, Selector.IsPlain])
    (by simp [Path.IsProper, Selector.IsProper, Selector.IsPlain])).mpr rfl⟩
  · obtain ⟨t, ht, accepted, result⟩ := written .ofRules _ _ _ hb trivial [.current [.root], .current [], .wildcard]
      (by simp [Path.IsProper, Selector.IsProper, Selector.IsPlain])
    obtain ⟨q, hq⟩ := accepted.mpr (by decide)
    obtain rfl := result q hq
    exact ⟨t, ht, hq⟩
  · obtain ⟨t, ht, accepted, -⟩ := written .ofRules _ _ _ hb trivial [.root, .current []]
      (by simp [Path.IsProper, Selector.IsProper, Selector.IsPlain])
    exact ⟨t, ht, fun h => (accepted.mp h).2 (by decide)⟩

end JsonPath
