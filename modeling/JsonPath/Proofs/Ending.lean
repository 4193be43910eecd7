/-
  JsonPath.Proofs.Ending — how the source of a path ends.

  The last token of a chain is a `$`, a `]`, a `*` or a key, whatever is before it, and
  behind that there are only blanks. A run of blanks ends with a space, a tab or a line
  feed: it may hold a carriage return, but only with a line feed behind it. So a source
  that ends with `@`, or with a carriage return, is no path.

  Proved: `Spelled.exists_getLast`.
-/

import JsonPath.Proofs.Grammar.Form
import JsonPath.Proofs.Spelling

namespace JsonPath

open scoped Computability
open Lexicon Grammar

namespace Lexicon

/-- The code points that a run of blanks may end with. -/
def endsBlank : CodePoint → Bool := inRanges (each [' ', '\t', '\n'])

/-- The code points that a chain may end with. -/
def endsChain (c : CodePoint) : Bool := isBare c || inRanges (each ['$', ']', '*']) c

theorem getLast_blanks {u : Text} (hu : u ∈ blank∗) : ∀ c ∈ u.getLast?, endsBlank c = true := by
  refine star_induction (p := fun u => ∀ c ∈ u.getLast?, endsBlank c = true) nofun ?_ hu
  rintro a ha b hb c hc
  rw [List.getLast?_append, Option.mem_def, Option.or_eq_some_iff] at hc
  rcases hc with hc | ⟨-, hc⟩
  · exact hb c hc
  · rcases ha with ((rfl | rfl) | rfl) | rfl
    all_goals
      obtain rfl := Option.some.inj hc
      decide

end Lexicon

/-! ## The last token -/

namespace Grammar

/-- The terminals that a chain may end with. -/
def closing : List Terminal := [.mark .dollar, .mark .rightBracket, .mark .star, .atom .key]

theorem closing_of_form : ∀ f ∈ selectorForms, ∃ t ∈ closing, f.getLast? = some t := by decide

theorem Derivation.exists_concat (d : Chain) : ∃ as a, d.word = as ++ [a] ∧ a.terminal ∈ closing := by
  obtain ⟨fs, -, g, hg, hd⟩ := d.word_forms
  obtain ⟨t, ht, hlast⟩ := closing_of_form g hg
  rcases List.eq_nil_or_concat d.word with hnil | ⟨as, a, hconcat⟩
  · exact absurd hnil d.chain_word_ne_nil
  · rw [List.concat_eq_append] at hconcat
    refine ⟨as, a, hconcat, ?_⟩
    have hterminal := congrArg List.getLast? hd
    rw [hconcat, List.map_append, List.map_singleton, List.getLast?_concat, List.getLast?_append, hlast,
      Option.some_or] at hterminal
    rwa [Option.some.inj hterminal]

end Grammar

theorem Atom.getLast_key {w : Text} (hw : w ∈ Atom.language .key) : ∃ c, w.getLast? = some c ∧ isBare c = true := by
  obtain ⟨hne, hall⟩ := mem_oneOrMore_one.mp hw
  exact ⟨_, List.getLast?_eq_some_getLast hne, hall _ (List.getLast_mem hne)⟩

theorem Terminal.getLast_of_closing {t : Terminal} (ht : t ∈ closing) {w : Text} (hw : w ∈ t.language) :
    ∃ c, w.getLast? = some c ∧ endsChain c = true := by
  simp only [closing, List.mem_cons, List.not_mem_nil, or_false] at ht
  rcases ht with rfl | rfl | rfl | rfl
  · obtain rfl : w = _ := hw
    exact ⟨'$', rfl, by decide⟩
  · obtain rfl : w = _ := hw
    exact ⟨']', rfl, by decide⟩
  · obtain rfl : w = _ := hw
    exact ⟨'*', rfl, by decide⟩
  · obtain ⟨c, hc, hbare⟩ := Atom.getLast_key hw
    exact ⟨c, hc, by simp [endsChain, hbare]⟩

/-! ## The last code point -/

theorem Stretch.exists_concat {b p : Text} {as : List Token} {a : Token} (h : Stretch b (as ++ [a]) p) :
    ∃ q, p = q ++ a.text ∧ a.text ∈ a.terminal.language := by
  obtain ⟨q, r, rfl, -, hr⟩ := h.split
  cases hr with
  | @cons _ u w _ t _ _ hw hnil =>
    obtain rfl := hnil.eq_nil
    exact ⟨q ++ u, by simp [Token.behind], hw⟩

theorem Stretch.exists_getLast {b p : Text} {d : Chain} (h : Stretch b d.word p) :
    ∃ c, p.getLast? = some c ∧ endsChain c = true := by
  obtain ⟨as, a, hd, ha⟩ := d.exists_concat
  rw [hd] at h
  obtain ⟨q, rfl, hw⟩ := h.exists_concat
  obtain ⟨c, hc, hends⟩ := Terminal.getLast_of_closing ha hw
  exact ⟨c, by rw [List.getLast?_append, hc, Option.some_or], hends⟩

/-- The source of a path ends with what a chain ends with, or with blanks. -/
theorem Spelled.exists_getLast {s : Text} {d : Chain} (h : Spelled d.word s) :
    ∃ c, s.getLast? = some c ∧ (endsChain c = true ∨ endsBlank c = true) := by
  obtain ⟨p, u, hp, hu, rfl⟩ := h
  obtain ⟨c, hc, hends⟩ := hp.exists_getLast
  rw [List.getLast?_append, hc]
  cases hlast : u.getLast? with
  | none => exact ⟨c, rfl, .inl hends⟩
  | some e => exact ⟨e, rfl, .inr (getLast_blanks hu e hlast)⟩

end JsonPath
