/-
  JsonPath.Proofs.Recognition — what is read as a path is what the grammar derives.

  Sound: the chain that a run folds into is a derivation, and what was followed is
  spelled. Complete: a derivation that the source spells can be followed, form by form,
  to the end of the source. A run from there on would have to follow a form too, and of
  those there is at most one, so the run is that derivation, and nothing is left of it
  when it is folded.

  Proved: `path_recognized`, with the trees and that the derivation is the only one.
-/

import JsonPath.Proofs.Run
import JsonPath.Reading

namespace JsonPath

open scoped Computability
open Lexicon Grammar

/-! ## At the end of a source -/

theorem Cursor.rest_front_behind {b u : Text} (hu : u ∈ blank∗) : (behind b u).front.rest = [] := by
  have h := front_behind (b := b) (r := []) hu (by simp [Lexeme.blanks])
  rw [List.append_nil] at h
  rw [h]
  rfl

theorem Cursor.take_endOfInput {c stop : Cursor} {a : Token} :
    c.take .endOfInput = .ok (a, stop) → c.front.rest = [] := by
  intro h
  obtain ⟨w, hw, -, -⟩ := take_ok h
  simp only [Terminal.lexeme?] at hw
  split at hw
  · assumption
  · cases hw

theorem Cursor.blank_of_rest_front {b s : Text} (h : (behind b s).front.rest = []) : s ∈ blank∗ := by
  obtain ⟨u, r, rfl, hu, hr⟩ := exists_blanks s
  rw [front_behind hu hr] at h
  obtain rfl : r = [] := h
  rwa [List.append_nil]

theorem Cursor.take_endOfInput_error {c : Cursor} {m : Miss} (h : c.take .endOfInput = .error m) :
    c.front.rest ≠ [] := by
  intro hc
  have := (take_error h).2
  simp [Terminal.lexeme?, hc] at this

/-! ## Derivations and runs -/

namespace Grammar.Derivation

theorem follows (d : Chain) {p u : Text} (h : Stretch [] d.word p) (hu : u ∈ blank∗) :
    Follows (.start (p ++ u)) (d.word.map Token.terminal) d.word (.behind p u) := by
  obtain ⟨fs, hfs, hd⟩ := d.exists_forms
  have hs := isChain_of_begins hfs .nil
  rw [List.append_nil, ← hd] at hs
  refine h.follows hs fun c hc => ?_
  obtain ⟨r, rfl⟩ := List.head?_eq_some_iff.mp hc
  exact .inl (startsBlank_of_mem hu)

end Grammar.Derivation

/-- A run from a place that a chain leads from to the end of the source gets there. -/
theorem Run.last_eq_of_end {c e last : Cursor} {links : List (Link × Cursor)} {ms : List Miss} (hrun : Run c links last)
    (hstuck : Stuck last ms) (d : Chain) (hd : Follows c (d.word.map Token.terminal) d.word e)
    (he : e.front.rest = []) : last = e := by
  obtain ⟨fs, hfs, as, hf⟩ := hrun.follows
  obtain ⟨gs, hgs, hgw⟩ := d.exists_forms
  rw [hgw] at hd
  rcases flatten_compare hfs hgs hf hd with ⟨k, hs, rfl, cs, hk⟩ | ⟨hs, rfl, cs, hk⟩
  · obtain ⟨m, hm, -⟩ := hstuck.missed k (hgs k (by simp))
    obtain ⟨_, _, _, -, hfollow, -⟩ := hk.split
    exact absurd hfollow hm.not_follows
  · exact (eq_nil_of_end hk he).2

/-! ## Sources -/

theorem Rule.read_eq_ok_iff {α : Type} {r : Rule Cursor α} {s : Text} {a : α} :
    r.read s = .ok a ↔ (r (.start s)).value = some a := by
  unfold Rule.read
  cases h : (r (.start s)).value with
  | none => simp [h]
  | some b => simp [h]

theorem read_path_sound {s : Text} {t : Tree Token} (h : Rule.path.read s = .ok t) :
    ∃ d : Derivation (.rule .path), Spelled d.word s ∧ d.trees = [t] := by
  obtain ⟨last, hrun, -⟩ := Rule.linksOf_run Alternative.mem_standard (Cursor.start s)
  have hvalue : (Rule.pathOf Alternative.standard (Cursor.start s)).value = some t := Rule.read_eq_ok_iff.mp h
  cases hfold : Rule.fold (Cursor.start s) (Rule.linksOf Alternative.standard (Cursor.start s)).links with
  | mk trees stop =>
    obtain ⟨-, hnil | ⟨hne, d, hd, hfollow⟩⟩ := Rule.fold_run hrun
    · rw [Rule.pathOf_nil hnil] at hvalue
      cases hvalue
    · rw [hfold] at hne hd hfollow
      obtain ⟨t₀, trees, rfl⟩ := List.exists_cons_of_ne_nil hne
      rw [Rule.pathOf_cons hfold] at hvalue
      split at hvalue
      · rename_i hend
        obtain ⟨p, u, hs, hp, rfl⟩ := Follows.stretch (b := []) (s := s) hfollow
        have hu := Cursor.blank_of_rest_front (Cursor.take_endOfInput hend)
        refine ⟨.rule d, ⟨p, u, hp, hu, hs⟩, ?_⟩
        rw [← Option.some.inj hvalue]
        exact congrArg (fun ts => [Tree.node .path ts]) hd
      · cases hvalue

theorem read_path_complete {s : Text} (d : Derivation (.rule .path)) (h : Spelled d.word s) :
    ∃ t, Rule.path.read s = .ok t ∧ d.trees = [t] := by
  obtain ⟨c, rfl⟩ := Derivation.path_surjective d
  obtain ⟨p, u, hp, hu, rfl⟩ := h
  obtain ⟨last, hrun, hstuck⟩ := Rule.linksOf_run Alternative.mem_standard (.start (p ++ u))
  have hend : (Cursor.behind p u).front.rest = [] := Cursor.rest_front_behind hu
  obtain rfl := hrun.last_eq_of_end hstuck c (c.follows hp hu) hend
  obtain ⟨hfold, hne⟩ := Rule.fold_eq_of_last hrun c (c.follows hp hu)
  refine ⟨.node .path c.trees, Rule.read_eq_ok_iff.mpr ?_, rfl⟩
  obtain ⟨t, trees, hcons⟩ := List.exists_cons_of_ne_nil hne
  rw [hcons] at hfold ⊢
  show (Rule.pathOf Alternative.standard _).value = _
  rw [Rule.pathOf_cons hfold]
  split
  · rfl
  · rename_i htake
    exact absurd hend (Cursor.take_endOfInput_error htake)

theorem read_path_eq_ok_iff {s : Text} {t : Tree Token} :
    Rule.path.read s = .ok t ↔ ∃ c : Chain, Spelled c.word s ∧ t = .node .path c.trees := by
  constructor
  · intro h
    obtain ⟨d, hd, ht⟩ := read_path_sound h
    obtain ⟨c, rfl⟩ := Derivation.path_surjective d
    exact ⟨c, hd, (List.cons.inj ht).1.symm⟩
  · rintro ⟨c, hc, rfl⟩
    obtain ⟨t, hread, ht⟩ := read_path_complete (.rule c) hc
    obtain rfl : Tree.node .path c.trees = t := (List.cons.inj ht).1
    exact hread

theorem read_path_eq_ok_iff_derivation {s : Text} {t : Tree Token} :
    Rule.path.read s = .ok t ↔ ∃ d : Derivation (.rule .path), Spelled d.word s ∧ d.trees = [t] := by
  refine ⟨read_path_sound, fun ⟨d, hd, ht⟩ => ?_⟩
  obtain ⟨u, hu, hdu⟩ := read_path_complete d hd
  obtain rfl : t = u := by simpa [ht] using hdu
  exact hu

/-- Reading decides the language of the grammar and builds its trees. No source has two derivations. -/
theorem path_recognized (s : Text) :
    (∀ t, Rule.path.read s = .ok t ↔ ∃ d : Derivation (.rule .path), Spelled d.word s ∧ d.trees = [t]) ∧
    ∀ d e : Derivation (.rule .path), Spelled d.word s → Spelled e.word s → d = e := by
  refine ⟨fun t => read_path_eq_ok_iff_derivation, fun d e hd he => ?_⟩
  obtain ⟨c, rfl⟩ := Derivation.path_surjective d
  obtain ⟨c', rfl⟩ := Derivation.path_surjective e
  obtain ⟨p, u, hp, hu, rfl⟩ := hd
  obtain ⟨q, v, hq, hv, heq⟩ := he
  have hend : (Cursor.behind p u).front.rest = [] := Cursor.rest_front_behind hu
  have hend' : (Cursor.behind q v).front.rest = [] := Cursor.rest_front_behind hv
  have hf := c.follows hp hu
  have hf' := c'.follows hq hv
  rw [← heq] at hf'
  obtain ⟨fs, hfs, hw⟩ := c.exists_forms
  obtain ⟨gs, hgs, hw'⟩ := c'.exists_forms
  rw [hw] at hf
  rw [hw'] at hf'
  rw [Derivation.chain_ext (flatten_unique_of_end hfs hgs hf hf' hend hend')]

theorem path_recognized_of_blanks : ∃ d : Derivation (.rule .path), Spelled d.word "$\t. a" ∧
    d.trees = [.node .path [.node .root [], .node .field [.node .bareKey [.leaf ⟨.atom .key, "a", 4, 5, ⟨1, 5⟩⟩]]]] ∧
    ∀ e : Derivation (.rule .path), Spelled e.word "$\t. a" → e = d := by
  have hread : Rule.path.read "$\t. a" =
      .ok (.node .path [.node .root [], .node .field [.node .bareKey [.leaf ⟨.atom .key, "a", 4, 5, ⟨1, 5⟩⟩]]]) := by
    decide +kernel
  obtain ⟨recognized, unique⟩ := path_recognized "$\t. a"
  obtain ⟨d, hd, ht⟩ := (recognized _).mp hread
  exact ⟨d, hd, ht, fun e he => unique e d he hd⟩

end JsonPath
