/-
  JsonPath.Proofs.Writing — the text of a path, told by recursion, and why there may be none.

  A path is written by a walk over the paths that are still open: at an `@` the walk goes
  into the nested path, and at its end it goes on with what was left of the path around.
  `Path.written` says the same by recursion on the path. A walk that forgot what it left
  behind an `@`, or took it up twice, would not be told from it on paths that were read:
  there a nested path is always the last selector.

  A path has no text where a selector in it is at fault: its bare key is no name, or it is
  unknown, or its key is (`Selector.Faulty`). The selectors come in the order of writing,
  each before those that it holds (`Path.preorder`). The first of them that is at fault is
  the error, however deep it stands and whatever is wrong behind it.

  Proved:
  - `Path.text_eq_written`, `Path.text_eq_mapM`: the walk comes to what the recursion does,
    and to the texts of the selectors one behind the other.
  - `Selector.head_eq_error_iff`: when what a selector writes at one go is an error.
  - `Path.text_eq_error_iff`: the error of a path.
  - `writing_recursive`, from both.
-/

import JsonPath.Proofs.Regrouping

namespace JsonPath

open Lexicon

/-! ## By recursion -/

mutual

/-- The text of a selector, that of a nested path behind its `@`. -/
def Selector.written : Selector → Except TextError Text
  | .current path => do
    let inner ← Path.written path
    return "@" ++ inner
  | s => s.head

/-- The texts of the selectors, from left to right. -/
def Path.written : List Selector → Except TextError Text
  | [] => return []
  | s :: p => do
    let first ← s.written
    let rest ← Path.written p
    return first ++ rest

end

theorem Selector.text_eq_head {s : Selector} (h : s.inner = []) : s.text = s.head := by
  rw [Selector.text, h, Path.text_nil]
  cases s.head with
  | error e => rfl
  | ok w => exact congrArg Except.ok (List.append_nil w)

mutual

theorem Selector.text_eq_written : ∀ s : Selector, s.text = s.written
  | .current path => by
    rw [Selector.written, ← Path.text_eq_written path]
    rfl
  | .root | .wildcard | .descent _ | .field _ | .index _ | .unknown _ => by
    rw [Selector.text_eq_head rfl, Selector.written]
    nofun

theorem Path.text_eq_written : ∀ p : List Selector, Path.text p = Path.written p
  | [] => Path.text_nil
  | s :: p => by rw [Path.text_cons, Path.written, Selector.text_eq_written s, Path.text_eq_written p]

end

/-- The selectors of a path are written one by one. -/
theorem Path.text_eq_mapM (p : List Selector) : Path.text p = (do let ws ← p.mapM Selector.text; return ws.flatten) := by
  induction p with
  | nil => exact Path.text_nil
  | cons s p ih =>
    rw [Path.text_cons, ih, List.mapM_cons]
    simp only [bind_assoc, pure_bind, List.flatten_cons]

example : Path.text [.current [.root, .current [], .wildcard], .index 7] = .ok "@$@[*][7]" := by
  rw [Path.text_eq_written]
  decide +kernel

/-! ## Faults -/

/-- A bare key that is no name, or a key that is unknown, and the error that it is. -/
inductive Key.Faulty : Key → TextError → Prop where
  | empty : Faulty (.bare []) (.invalidBareKey [])
  | stray {name : Text} {c : CodePoint} : c ∈ name → isBare c = false → Faulty (.bare name) (.invalidBareKey name)
  | unknown (shown : Text) : Faulty (.unknown shown) (.unknownKey shown)

/-- A selector that is at fault itself, whatever the selectors are that it holds. -/
inductive Selector.Faulty : Selector → TextError → Prop where
  | descent {key : Key} {e : TextError} : key.Faulty e → Faulty (.descent key) e
  | field {key : Key} {e : TextError} : key.Faulty e → Faulty (.field key) e
  | unknown (shown : Text) : Faulty (.unknown shown) (.unknownSelector shown)

theorem Key.isBareName_eq_false_iff {name : Text} :
    Key.isBareName name = false ↔ name = [] ∨ ∃ c ∈ name, isBare c = false := by
  simp only [Key.isBareName, isKeyChar_eq, Bool.and_eq_false_iff, Bool.not_eq_false', List.isEmpty_iff,
    List.all_eq_false, Bool.not_eq_true]

theorem Key.text_eq_error_iff {k : Key} {lead : Text} {e : TextError} : k.text lead = .error e ↔ k.Faulty e := by
  cases k with
  | quoted name =>
    constructor
    · nofun
    · nofun
  | unknown shown =>
    constructor
    · rintro ⟨⟩
      exact .unknown shown
    · rintro ⟨⟩
      rfl
  | bare name =>
    constructor
    · intro h
      simp only [Key.text] at h
      split at h
      · cases h
      · rename_i hname
        cases h
        rcases Key.isBareName_eq_false_iff.mp (Bool.eq_false_iff.mpr hname) with rfl | ⟨c, hc, hbare⟩
        · exact .empty
        · exact .stray hc hbare
    · intro h
      have hname : Key.isBareName name = false := by
        cases h with
        | empty => rfl
        | stray hc hbare => exact Key.isBareName_eq_false_iff.mpr (.inr ⟨_, hc, hbare⟩)
      simp only [Key.text, hname]
      cases h
      all_goals rfl

theorem Selector.head_eq_error_iff {s : Selector} {e : TextError} : s.head = .error e ↔ s.Faulty e := by
  cases s with
  | descent k =>
    refine Key.text_eq_error_iff.trans ⟨.descent, ?_⟩
    rintro ⟨⟩
    assumption
  | field k =>
    refine Key.text_eq_error_iff.trans ⟨.field, ?_⟩
    rintro ⟨⟩
    assumption
  | unknown shown =>
    constructor
    · rintro ⟨⟩
      exact .unknown shown
    · rintro ⟨⟩
      rfl
  | root | wildcard | current | index =>
    constructor
    · nofun
    · nofun

/-! ## The first fault -/

mutual

def Selector.preorder : Selector → List Selector
  | .current path => .current path :: Path.preorder path
  | s => [s]

/-- The selectors of a path and of those in it, from left to right, each before what it holds. -/
def Path.preorder : List Selector → List Selector
  | [] => []
  | s :: p => s.preorder ++ Path.preorder p

end

mutual

theorem Selector.flat_eq_map : ∀ s : Selector, s.flat = s.preorder.map Selector.item
  | .current path => by
    rw [Selector.flat, Selector.preorder, List.map_cons, ← Path.flat_eq_map path]
    rfl
  | .root | .wildcard | .descent _ | .field _ | .index _ | .unknown _ => by
    simp [Selector.flat, Selector.preorder, Selector.item]

theorem Path.flat_eq_map : ∀ p : List Selector, Path.flat p = (Path.preorder p).map Selector.item
  | [] => rfl
  | s :: p => by
    rw [Path.flat, Path.preorder, List.map_append, Selector.flat_eq_map s, Path.flat_eq_map p]

end

/-- Items are written in turn up to the first that cannot be, and that one is the error. -/
theorem Item.texts_eq_error_iff {is : List Item} {e : TextError} :
    texts is = .error e ↔
      ∃ before i after, is = before ++ i :: after ∧ (∀ j ∈ before, ∀ e', j.head ≠ .error e') ∧ i.head = .error e := by
  induction is with
  | nil =>
    constructor
    · intro h
      cases h
    · rintro ⟨before, i, after, h, -⟩
      simp at h
  | cons j is ih =>
    rw [texts]
    cases hj : j.head with
    | error e' =>
      constructor
      · intro h
        exact ⟨[], j, is, rfl, List.forall_mem_nil _, hj.trans h⟩
      · rintro ⟨before, i, after, h, hbefore, hi⟩
        rcases List.cons_eq_append_iff.mp h with ⟨-, heq⟩ | ⟨before', rfl, -⟩
        · rw [← hj, ← (List.cons.inj heq).1, hi]
          rfl
        · exact absurd hj (hbefore j List.mem_cons_self e')
    | ok w =>
      -- an item that is written leaves the error to those behind it
      have hrest : (do let ws ← texts is; return w ++ ws) = Except.error e ↔ texts is = .error e := by
        cases texts is with
        | error e' => exact Iff.rfl
        | ok ws =>
          constructor
          · intro h
            cases h
          · intro h
            cases h
      refine hrest.trans (ih.trans ⟨?_, ?_⟩)
      · rintro ⟨before, i, after, rfl, hbefore, hi⟩
        have hwritten : ∀ e', j.head ≠ .error e' := by simp [hj]
        exact ⟨j :: before, i, after, rfl, List.forall_mem_cons.mpr ⟨hwritten, hbefore⟩, hi⟩
      · rintro ⟨before, i, after, h, hbefore, hi⟩
        rcases List.cons_eq_append_iff.mp h with ⟨-, heq⟩ | ⟨before', rfl, rfl⟩
        · rw [(List.cons.inj heq).1, hj] at hi
          cases hi
        · exact ⟨before', i, after, rfl, (List.forall_mem_cons.mp hbefore).2, hi⟩

/-- The error of a path is that of the first selector at fault in it. -/
theorem Path.text_eq_error_iff {p : List Selector} {e : TextError} :
    Path.text p = .error e ↔
      ∃ before s after, Path.preorder p = before ++ s :: after ∧ (∀ r ∈ before, ∀ e', ¬ r.Faulty e') ∧ s.Faulty e := by
  have hhead : ∀ (s : Selector) (e' : TextError), s.item.head = .error e' ↔ s.Faulty e' := fun s e' => by
    rw [Item.head_item, Selector.head_eq_error_iff]
  rw [Path.text_eq_texts, Path.flat_eq_map, Item.texts_eq_error_iff]
  constructor
  · rintro ⟨before, i, after, h, hbefore, hi⟩
    obtain ⟨before, tail, hp, rfl, htail⟩ := List.map_eq_append_iff.mp h
    obtain ⟨s, after, rfl, rfl, rfl⟩ := List.map_eq_cons_iff.mp htail
    refine ⟨before, s, after, hp, fun r hr e' hfault => ?_, (hhead s e).mp hi⟩
    exact hbefore r.item (List.mem_map_of_mem hr) e' ((hhead r e').mpr hfault)
  · rintro ⟨before, s, after, hp, hbefore, hs⟩
    refine ⟨before.map Selector.item, s.item, after.map Selector.item, ?_, fun j hj e' => ?_, (hhead s e).mpr hs⟩
    · rw [hp, List.map_append, List.map_cons]
    · obtain ⟨r, hr, rfl⟩ := List.mem_map.mp hj
      exact fun h => hbefore r hr e' ((hhead r e').mp h)

/-- There is an error just where there is a fault. -/
theorem Path.exists_text_eq_error_iff {p : List Selector} :
    (∃ e, Path.text p = .error e) ↔ ∃ s ∈ Path.preorder p, ∃ e, s.Faulty e := by
  classical
  constructor
  · rintro ⟨e, h⟩
    obtain ⟨before, s, after, hp, -, hs⟩ := Path.text_eq_error_iff.mp h
    exact ⟨s, by rw [hp]; exact List.mem_append_cons_self, e, hs⟩
  · rintro ⟨r, hr, hfault⟩
    have hsome : ((preorder p).find? fun s => decide (∃ e, s.Faulty e)).isSome :=
      List.find?_isSome.mpr ⟨r, hr, decide_eq_true hfault⟩
    obtain ⟨s, hfind⟩ := Option.isSome_iff_exists.mp hsome
    obtain ⟨hs, before, after, hp, hbefore⟩ := List.find?_eq_some_iff_append.mp hfind
    obtain ⟨e, hfault⟩ := of_decide_eq_true hs
    exact ⟨e, Path.text_eq_error_iff.mpr ⟨before, s, after, hp, fun r hr => by simpa using hbefore r hr, hfault⟩⟩

/-! ## Both -/

/-- The text of a path is the texts of its selectors, one behind the other, and that of an
    `@` is the `@` and the text of what it holds. There is none if a selector in the path is
    at fault, and then the first of these is the error, in the order of writing. -/
theorem writing_recursive :
    (∀ p : List Selector, Path.text p = (do let ws ← p.mapM Selector.text; return ws.flatten)) ∧
    (∀ p : List Selector, (Selector.current p).text = (do let w ← Path.text p; return "@" ++ w)) ∧
    (∀ p : List Selector, Path.text p = Path.written p) ∧
    (∀ p : List Selector, (∃ e, Path.text p = .error e) ↔ ∃ s ∈ Path.preorder p, ∃ e, s.Faulty e) ∧
    ∀ (p : List Selector) (e : TextError), Path.text p = .error e ↔
      ∃ before s after, Path.preorder p = before ++ s :: after ∧ (∀ r ∈ before, ∀ e', ¬ r.Faulty e') ∧ s.Faulty e := by
  exact ⟨Path.text_eq_mapM, fun _ => rfl, Path.text_eq_written, fun _ => Path.exists_text_eq_error_iff,
    fun _ _ => Path.text_eq_error_iff⟩

example : Path.text [.current [.root, .field (.bare "a b")], .wildcard, .unknown "None"] =
    .error (.invalidBareKey "a b") := by
  rw [Path.text_eq_written]
  decide +kernel

end JsonPath
