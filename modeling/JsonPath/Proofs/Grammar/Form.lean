/-
  JsonPath.Proofs.Grammar.Form — paths as sequences of forms.

  Read as terminals, a step has one of ten forms, and with the mark `@` that makes
  eleven. No form begins another (`form_eq_of_isPrefix`), so a sequence of forms can be cut into
  its forms in one way only.

  Proved:
  - `derivable_iff`: the terminals of a path are any forms and then a selector's.
  - `viable_iff`: what begins a path is any forms and then the beginning of one more.
  - `viable_next_iff`, `derivable_forms_iff`: what may come after such a beginning
    depends on the last form alone, which is why reading need not look back.
  - `word_injective`: a derivation is known from its word.
-/

import JsonPath.Proofs.Grammar
import JsonPath.Rule.Selector

namespace JsonPath

/-- The terminals of a selector's forms. -/
def Alternative.forms : Alternative → List (List Terminal)
  | root => [[Mark.dollar]]
  | descent => [[Mark.dotDot, Atom.key], [Mark.dotDot, Mark.leftBracket, Atom.quoted, Mark.rightBracket]]
  | wildcard =>
    [[Mark.leftBracket, Mark.star, Mark.rightBracket], [Mark.dot, Mark.leftBracket, Mark.star, Mark.rightBracket],
      [Mark.dot, Mark.star]]
  | field =>
    [[Mark.leftBracket, Atom.quoted, Mark.rightBracket], [Mark.dot, Mark.leftBracket, Atom.quoted, Mark.rightBracket],
      [Mark.dot, Atom.key]]
  | index => [[Mark.leftBracket, Atom.unsigned, Mark.rightBracket]]

theorem Alternative.mem_standard (x : Alternative) : x ∈ standard := by cases x <;> decide

namespace Grammar

def selectorForms : List (List Terminal) := Alternative.standard.flatMap Alternative.forms

def forms : List (List Terminal) := [.mark .at] :: selectorForms

/-- Whether the terminals are the beginning of a form, and `t` may come next in it. -/
def Begins (part : List Terminal) (t : Terminal) : Prop := ∃ f ∈ forms, part ++ [t] <+: f

theorem selectorForm_mem {f : List Terminal} (h : f ∈ selectorForms) : f ∈ forms := List.mem_cons_of_mem _ h

theorem forms_concat {fs : List (List Terminal)} (hfs : ∀ f ∈ fs, f ∈ forms) {g : List Terminal} (hg : g ∈ forms) :
    ∀ f ∈ fs ++ [g], f ∈ forms :=
  List.forall_mem_append.mpr ⟨hfs, List.forall_mem_singleton.mpr hg⟩

theorem form_eq_of_isPrefix {f g : List Terminal} (hf : f ∈ forms) (hg : g ∈ forms) (h : f <+: g) : f = g :=
  (by decide : ∀ f ∈ forms, ∀ g ∈ forms, f <+: g → f = g) f hf g hg h

theorem form_ne_nil {f : List Terminal} (h : f ∈ forms) : f ≠ [] := (by decide : ∀ f ∈ forms, f ≠ []) f h

theorem endOfInput_not_mem {f : List Terminal} (h : f ∈ forms) : .endOfInput ∉ f :=
  (by decide : ∀ f ∈ forms, .endOfInput ∉ f) f h

theorem form_unique {f g x y : List Terminal} (hf : f ∈ forms) (hg : g ∈ forms) (h : f ++ x = g ++ y) : f = g := by
  rcases List.prefix_or_prefix_of_prefix (List.prefix_append f x) (h ▸ List.prefix_append g y) with hp | hp
  · exact form_eq_of_isPrefix hf hg hp
  · exact (form_eq_of_isPrefix hg hf hp).symm

namespace Begins

variable {part f : List Terminal} {t : Terminal}

theorem nil : Begins [] (.mark .dollar) := ⟨[.mark .dollar], by decide, List.prefix_refl _⟩

theorem not_form (h : Begins part t) (hf : f ∈ forms) : ¬ f <+: part := by
  intro hp
  obtain ⟨g, hg, hpg⟩ := h
  have hfg : f <+: g := hp.trans ((List.prefix_append part [t]).trans hpg)
  obtain rfl := form_eq_of_isPrefix hf hg hfg
  have := hp.length_le
  have := hpg.length_le
  simp only [List.length_append, List.length_singleton] at this
  omega

theorem ne_endOfInput (h : Begins part t) : t ≠ .endOfInput := by
  obtain ⟨f, hf, hp⟩ := h
  rintro rfl
  exact endOfInput_not_mem hf (hp.subset (by simp))

end Begins

/-! ## Steps by their words -/

namespace Derivation

theorem word_mem_selectorForms (s : Step) : s.word.map Token.terminal ∈ selectorForms := by
  induction s using step_cases
  all_goals
    simp only [root, descent, bareKey, bracketKey, bracketWildcard, dotWildcard, bracketField, bareField, index, dot, word,
      List.nil_append, List.cons_append, List.map_cons, List.map_nil, *]
    decide

theorem exists_step {w : List Token} (h : w.map Token.terminal ∈ selectorForms) : ∃ s : Step, s.word = w := by
  simp only [selectorForms, Alternative.standard, Alternative.forms, List.flatMap_cons, List.flatMap_nil, List.append_nil,
    List.cons_append, List.nil_append, List.mem_cons, List.not_mem_nil, or_false, List.map_eq_cons_iff,
    List.map_eq_nil_iff] at h
  rcases h with ⟨a, _, rfl, ha, rfl⟩ | ⟨a, _, rfl, ha, b, _, rfl, hb, rfl⟩ |
    ⟨a, _, rfl, ha, b, _, rfl, hb, c, _, rfl, hc, d, _, rfl, hd, rfl⟩ | ⟨a, _, rfl, ha, b, _, rfl, hb, c, _, rfl, hc, rfl⟩ |
    ⟨a, _, rfl, ha, b, _, rfl, hb, c, _, rfl, hc, d, _, rfl, hd, rfl⟩ | ⟨a, _, rfl, ha, b, _, rfl, hb, rfl⟩ |
    ⟨a, _, rfl, ha, b, _, rfl, hb, c, _, rfl, hc, rfl⟩ | ⟨a, _, rfl, ha, b, _, rfl, hb, c, _, rfl, hc, d, _, rfl, hd, rfl⟩ |
    ⟨a, _, rfl, ha, b, _, rfl, hb, rfl⟩ | ⟨a, _, rfl, ha, b, _, rfl, hb, c, _, rfl, hc, rfl⟩
  · exact ⟨root a ha, rfl⟩
  · exact ⟨descent a ha (.left (bareKey b hb)), rfl⟩
  · exact ⟨descent a ha (.right (bracketKey b c d hb hc hd)), rfl⟩
  · exact ⟨bracketWildcard .absent a b c ha hb hc, rfl⟩
  · exact ⟨bracketWildcard (dot a ha) b c d hb hc hd, rfl⟩
  · exact ⟨dotWildcard a b ha hb, rfl⟩
  · exact ⟨bracketField .absent (bracketKey a b c ha hb hc), rfl⟩
  · exact ⟨bracketField (dot a ha) (bracketKey b c d hb hc hd), rfl⟩
  · exact ⟨bareField a ha (bareKey b hb), rfl⟩
  · exact ⟨index a b c ha hb hc, rfl⟩

/-- The step that a word belongs to. -/
def step? : List Token → Option Step
  | [a] => if h : a.terminal = .mark .dollar then some (root a h) else none
  | [a, b] =>
    if h : a.terminal = .mark .dotDot ∧ b.terminal = .atom .key then some (descent a h.1 (.left (bareKey b h.2)))
    else if h : a.terminal = .mark .dot ∧ b.terminal = .mark .star then some (dotWildcard a b h.1 h.2)
    else if h : a.terminal = .mark .dot ∧ b.terminal = .atom .key then some (bareField a h.1 (bareKey b h.2))
    else none
  | [a, b, c] =>
    if h : a.terminal = .mark .leftBracket ∧ c.terminal = .mark .rightBracket then
      if hs : b.terminal = .mark .star then some (bracketWildcard .absent a b c h.1 hs h.2)
      else if hq : b.terminal = .atom .quoted then some (bracketField .absent (bracketKey a b c h.1 hq h.2))
      else if hu : b.terminal = .atom .unsigned then some (index a b c h.1 hu h.2)
      else none
    else none
  | [o, a, b, c] =>
    if h : a.terminal = .mark .leftBracket ∧ c.terminal = .mark .rightBracket then
      if hs : o.terminal = .mark .dot ∧ b.terminal = .mark .star then
        some (bracketWildcard (dot o hs.1) a b c h.1 hs.2 h.2)
      else if hq : o.terminal = .mark .dot ∧ b.terminal = .atom .quoted then
        some (bracketField (dot o hq.1) (bracketKey a b c h.1 hq.2 h.2))
      else if hd : o.terminal = .mark .dotDot ∧ b.terminal = .atom .quoted then
        some (descent o hd.1 (.right (bracketKey a b c h.1 hd.2 h.2)))
      else none
    else none
  | _ => none

theorem step?_word (s : Step) : step? s.word = some s := by
  induction s using step_cases
  all_goals
    simp [root, descent, bareKey, bracketKey, bracketWildcard, dotWildcard, bracketField, bareField, index, dot, word,
      step?, *]

/-- Where the words of two steps begin the same tokens, the steps are the same. -/
theorem step_append_inj {s r : Step} {x y : List Token} (h : s.word ++ x = r.word ++ y) : s = r ∧ x = y := by
  have hf : s.word.map Token.terminal = r.word.map Token.terminal := by
    refine form_unique (x := x.map Token.terminal) (y := y.map Token.terminal)
      (selectorForm_mem (word_mem_selectorForms s)) (selectorForm_mem (word_mem_selectorForms r)) ?_
    rw [← List.map_append, ← List.map_append, h]
  have hlen : s.word.length = r.word.length := by simpa using congrArg List.length hf
  obtain ⟨hw, hxy⟩ := List.append_inj h hlen
  have hs := step?_word s
  rw [hw, step?_word r] at hs
  exact ⟨(Option.some.inj hs).symm, hxy⟩

theorem step_word_ne_nil (s : Step) : s.word ≠ [] := by
  intro h
  have := word_mem_selectorForms s
  rw [h] at this
  exact form_ne_nil (selectorForm_mem this) rfl

theorem step_append_ne_at {s : Step} {a : Token} (ha : a.terminal = .mark .at) (x y : List Token) :
    s.word ++ x ≠ a :: y := by
  intro h
  have hs := word_mem_selectorForms s
  have : s.word.map Token.terminal = [.mark .at] := by
    refine form_unique (x := x.map Token.terminal) (y := y.map Token.terminal) (selectorForm_mem hs)
      (List.mem_cons_self ..) ?_
    rw [← List.map_append, h, List.map_cons, ha]
    rfl
  rw [this] at hs
  revert hs
  decide

/-! ## Chains by their words -/

theorem chain_word_ne_nil (d : Chain) : d.word ≠ [] := by
  induction d using chain_induction with
  | single s => simpa using step_word_ne_nil s
  | cons s d _ => simp [step_word_ne_nil s]
  | nest a h d _ => simp

theorem chain_ext {d e : Chain} (h : d.word = e.word) : d = e := by
  induction d using chain_induction generalizing e with
  | single s =>
    rw [word_single, ← List.append_nil s.word] at h
    induction e using chain_induction with
    | single r =>
      rw [word_single, ← List.append_nil r.word] at h
      rw [(step_append_inj h).1]
    | cons r e _ =>
      rw [word_cons] at h
      exact absurd (step_append_inj h).2.symm (chain_word_ne_nil e)
    | nest b hb e _ => exact absurd h (step_append_ne_at hb _ _)
  | cons s d ih =>
    rw [word_cons] at h
    induction e using chain_induction with
    | single r =>
      rw [word_single, ← List.append_nil r.word] at h
      exact absurd (step_append_inj h).2 (chain_word_ne_nil d)
    | cons r e _ =>
      rw [word_cons] at h
      obtain ⟨rfl, hde⟩ := step_append_inj h
      rw [ih hde]
    | nest b hb e _ => exact absurd h (step_append_ne_at hb _ _)
  | nest a ha d ih =>
    rw [word_nest] at h
    induction e using chain_induction with
    | single r =>
      rw [word_single, ← List.append_nil r.word] at h
      exact absurd h.symm (step_append_ne_at ha _ _)
    | cons r e _ =>
      rw [word_cons] at h
      exact absurd h.symm (step_append_ne_at ha _ _)
    | nest b hb e _ =>
      obtain ⟨rfl, hde⟩ := List.cons.inj h
      rw [ih hde]

theorem word_injective {d e : Derivation (.rule .path)} (h : d.word = e.word) : d = e := by
  obtain ⟨c, rfl⟩ := path_surjective d
  obtain ⟨c', rfl⟩ := path_surjective e
  rw [chain_ext (d := c) (e := c') h]

theorem word_forms (d : Chain) : ∃ fs : List (List Terminal), (∀ f ∈ fs, f ∈ forms) ∧ ∃ g ∈ selectorForms,
    d.word.map Token.terminal = fs.flatten ++ g := by
  induction d using chain_induction with
  | single s => exact ⟨[], nofun, _, word_mem_selectorForms s, by simp⟩
  | cons s d ih =>
    obtain ⟨fs, hfs, g, hg, hd⟩ := ih
    exact ⟨_ :: fs, List.forall_mem_cons.mpr ⟨selectorForm_mem (word_mem_selectorForms s), hfs⟩, g, hg, by simp [hd]⟩
  | nest a h d ih =>
    obtain ⟨fs, hfs, g, hg, hd⟩ := ih
    exact ⟨[.mark .at] :: fs, List.forall_mem_cons.mpr ⟨List.mem_cons_self .., hfs⟩, g, hg, by simp [hd, h]⟩

theorem exists_forms (d : Chain) : ∃ fs : List (List Terminal), (∀ f ∈ fs, f ∈ forms) ∧
    d.word.map Token.terminal = fs.flatten := by
  obtain ⟨fs, hfs, g, hg, hd⟩ := d.word_forms
  exact ⟨fs ++ [g], forms_concat hfs (selectorForm_mem hg), by simp [hd]⟩

theorem getLast?_terminals (d : Chain) : (d.word.map Token.terminal).getLast? ≠ some (.mark .at) := by
  obtain ⟨fs, -, g, hg, hd⟩ := d.word_forms
  rw [hd, List.getLast?_append]
  have hlast : ∀ g ∈ selectorForms, ∀ x, g.getLast?.or x ≠ some (.mark .at) := by
    simp [selectorForms, Alternative.standard, Alternative.forms]
  exact hlast g hg _

theorem exists_chain {fs : List (List Terminal)} (hfs : ∀ f ∈ fs, f ∈ forms) {g : List Terminal}
    (hg : g ∈ selectorForms) {w : List Token} (hw : w.map Token.terminal = fs.flatten ++ g) :
    ∃ d : Chain, d.word = w := by
  induction fs generalizing w with
  | nil =>
    obtain ⟨s, hs⟩ := exists_step (w := w) (by simpa [hw] using hg)
    exact ⟨single s, by simp [hs]⟩
  | cons f fs ih =>
    rw [List.forall_mem_cons] at hfs
    rw [List.flatten_cons, List.append_assoc] at hw
    obtain ⟨w₁, w₂, rfl, h₁, h₂⟩ := List.map_eq_append_iff.mp hw
    obtain ⟨d, rfl⟩ := ih hfs.2 h₂
    rcases List.mem_cons.mp hfs.1 with rfl | hf
    · obtain ⟨a, _, rfl, ha, hnil⟩ := List.map_eq_cons_iff.mp h₁
      obtain rfl := List.map_eq_nil_iff.mp hnil
      exact ⟨nest a ha d, rfl⟩
    · obtain ⟨s, rfl⟩ := exists_step (w := w₁) (by rwa [h₁])
      exact ⟨cons s d, word_cons s d⟩

end Derivation

/-! ## Beginnings of paths -/

theorem derivable_iff {ts : List Terminal} :
    Derivable ts ↔ ∃ fs : List (List Terminal), (∀ f ∈ fs, f ∈ forms) ∧ ∃ g ∈ selectorForms, ts = fs.flatten ++ g := by
  constructor
  · intro ⟨d, hd⟩
    obtain ⟨c, rfl⟩ := Derivation.path_surjective d
    obtain ⟨fs, hfs, g, hg, hw⟩ := Derivation.word_forms c
    exact ⟨fs, hfs, g, hg, hd ▸ hw⟩
  · intro ⟨fs, hfs, g, hg, hts⟩
    have hmap : (ts.map fun t => (⟨t, [], 0, 0, .first⟩ : Token)).map Token.terminal = ts := by
      simp [Function.comp_def]
    obtain ⟨d, hd⟩ := Derivation.exists_chain hfs hg (hmap.trans hts)
    exact ⟨.rule d, (congrArg _ hd).trans hmap⟩

theorem begins_of_append_eq_flatten {fs : List (List Terminal)} (hfs : ∀ f ∈ fs, f ∈ forms) {ts more : List Terminal}
    (h : ts ++ more = fs.flatten) :
    ∃ gs : List (List Terminal), (∀ g ∈ gs, g ∈ forms) ∧ ∃ part t, Begins part t ∧ ts = gs.flatten ++ part := by
  induction fs generalizing ts with
  | nil =>
    rw [List.flatten_nil, List.append_eq_nil_iff] at h
    exact ⟨[], nofun, [], _, .nil, by simp [h.1]⟩
  | cons f fs ih =>
    rw [List.forall_mem_cons] at hfs
    rw [List.flatten_cons, List.append_eq_append_iff] at h
    rcases h with ⟨x, hf, -⟩ | ⟨x, rfl, hx⟩
    · cases x with
      | nil => exact ⟨[f], List.forall_mem_singleton.mpr hfs.1, [], _, .nil, by simp [hf]⟩
      | cons t x => exact ⟨[], nofun, ts, t, ⟨f, hfs.1, x, by simp [hf]⟩, rfl⟩
    · obtain ⟨gs, hgs, part, t, hb, rfl⟩ := ih hfs.2 hx.symm
      exact ⟨f :: gs, List.forall_mem_cons.mpr ⟨hfs.1, hgs⟩, part, t, hb, by simp⟩

theorem viable_iff {ts : List Terminal} :
    Viable ts ↔ ∃ fs : List (List Terminal), (∀ f ∈ fs, f ∈ forms) ∧ ∃ part t, Begins part t ∧ ts = fs.flatten ++ part := by
  constructor
  · intro ⟨more, h⟩
    obtain ⟨fs, hfs, g, hg, he⟩ := derivable_iff.mp h
    exact begins_of_append_eq_flatten (forms_concat hfs (selectorForm_mem hg)) (by simpa using he)
  · intro ⟨fs, hfs, part, t, ⟨f, hf, rest, hrest⟩, hts⟩
    refine ⟨t :: rest ++ [.mark .dollar],
      derivable_iff.mpr ⟨fs ++ [f], forms_concat hfs hf, [.mark .dollar], by decide, ?_⟩⟩
    simp [hts, ← hrest]

/-- Two ways to cut terminals into forms and a rest: one only goes further than the other. -/
theorem flatten_append_eq {fs gs : List (List Terminal)} (hfs : ∀ f ∈ fs, f ∈ forms) (hgs : ∀ g ∈ gs, g ∈ forms)
    {x y : List Terminal} (h : fs.flatten ++ x = gs.flatten ++ y) :
    (∃ hs, gs = fs ++ hs ∧ x = hs.flatten ++ y) ∨ ∃ k hs, fs = gs ++ k :: hs ∧ y = (k :: hs).flatten ++ x := by
  induction fs generalizing gs with
  | nil => exact .inl ⟨gs, rfl, h⟩
  | cons f fs ih =>
    cases gs with
    | nil => exact .inr ⟨f, fs, rfl, h.symm⟩
    | cons g gs =>
      rw [List.forall_mem_cons] at hfs hgs
      rw [List.flatten_cons, List.flatten_cons, List.append_assoc, List.append_assoc] at h
      obtain rfl := form_unique hfs.1 hgs.1 h
      rcases ih hfs.2 hgs.2 (List.append_cancel_left h) with ⟨hs, rfl, hx⟩ | ⟨k, hs, rfl, hy⟩
      · exact .inl ⟨hs, rfl, hx⟩
      · exact .inr ⟨k, hs, rfl, hy⟩

variable {fs : List (List Terminal)} {part : List Terminal} {t : Terminal}

theorem viable_next_iff (hfs : ∀ f ∈ fs, f ∈ forms) (hp : Begins part t) (u : Terminal) :
    Viable (fs.flatten ++ part ++ [u]) ↔ Begins part u := by
  constructor
  · intro h
    obtain ⟨gs, hgs, part', t', hp', he⟩ := viable_iff.mp h
    rw [List.append_assoc] at he
    rcases flatten_append_eq hfs hgs he with ⟨hs, rfl, hx⟩ | ⟨k, hs, rfl, hy⟩
    · cases hs with
      | nil =>
        obtain ⟨f, hf, hpf⟩ := hp'
        rw [List.flatten_nil, List.nil_append] at hx
        exact ⟨f, hf, hx ▸ (List.prefix_append part' [t']).trans hpf⟩
      | cons k hs =>
        have hk : k ∈ forms := hgs k (by simp)
        have hpre : k <+: part ++ [u] := ⟨hs.flatten ++ part', by simp [hx]⟩
        rcases List.prefix_concat_iff.mp hpre with hk' | hk'
        · exact ⟨k, hk, hk' ▸ List.prefix_refl _⟩
        · exact absurd hk' (hp.not_form hk)
    · exact absurd ⟨hs.flatten ++ (part ++ [u]), by simp [hy]⟩ (hp'.not_form (hfs k (by simp)))
  · intro ⟨f, hf, hpf⟩
    obtain ⟨rest, rfl⟩ := hpf
    refine ⟨rest ++ [.mark .dollar],
      derivable_iff.mpr ⟨fs ++ [part ++ [u] ++ rest], forms_concat hfs hf, [.mark .dollar], by decide, ?_⟩⟩
    simp

theorem derivable_forms_iff (hfs : ∀ f ∈ fs, f ∈ forms) (hp : Begins part t) :
    Derivable (fs.flatten ++ part) ↔ part = [] ∧ ∃ gs, ∃ g ∈ selectorForms, fs = gs ++ [g] := by
  constructor
  · intro h
    obtain ⟨gs, hgs, g, hg, he⟩ := derivable_iff.mp h
    have hall : ∀ k ∈ gs ++ [g], k ∈ forms := forms_concat hgs (selectorForm_mem hg)
    rcases flatten_append_eq (x := part) (y := []) hfs hall (by simpa using he) with ⟨hs, heq, hx⟩ | ⟨k, hs, rfl, hy⟩
    · cases hs with
      | nil => exact ⟨hx, gs, g, hg, by simpa using heq.symm⟩
      | cons k hs => exact absurd ⟨hs.flatten, by simp [hx]⟩ (hp.not_form (hall k (heq ▸ by simp)))
    · simp [form_ne_nil (hfs k (by simp))] at hy
  · intro ⟨hnil, gs, g, hg, he⟩
    subst hnil he
    exact derivable_iff.mpr ⟨gs, fun f hf => hfs f (by simp [hf]), g, hg, by simp⟩

end Grammar

end JsonPath
