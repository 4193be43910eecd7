/-
  JsonPath.Proofs.Engine — what backends owe, and what is read with those that keep to it.

  An engine answers as it likes, so what holds of every backend holds of the engines that
  keep to the grammar. There are two things to keep to, and `rd`, which runs on no engine,
  owes neither.

  (1) `FollowsGrammar`: a source has a tree where a derivation spells it, and that tree.
  With such a backend a source is read as by the rules (`Backend.read_path_eq_ok_iff`).

  (2) `Reports`: a source without one is refused at the end of its longest viable prefix,
  for want of what may come next. The end of the input is not asked for. With such a
  backend the error is that of the rules but for the end of the input
  (`Backend.read_path_eq_error`).

  `Engine.ofRules` keeps to both.
-/

import JsonPath.Proofs.Frontier

namespace JsonPath

open Grammar

namespace Engine

/-- The backend reads the sources that derivations of a path spell, into the trees of those. -/
def FollowsGrammar (engine : Engine) : Backend → Prop
  | .rd => True
  | .driven kind => ∀ s t, engine.parse kind .path s = .ok t ↔
      ∃ d : Derivation (.rule .path), Spelled d.word s ∧ d.trees = [t]

/-- The backend stops at the end of the longest viable prefix, where it accepts what may come next in a path. -/
def Reports (engine : Engine) : Backend → Prop
  | .rd => True
  | .driven kind => ∀ s u, engine.parse kind .path s = .error u → ∃ k : Nat, u.offset s = k ∧
      (∃ ts, ViableAt s k ts) ∧ (∀ k' ts, ViableAt s k' ts → k' ≤ k) ∧
      ∀ ts, ViableAt s k ts → ∀ t, t ∈ u.expected ↔ Viable (ts ++ [t])

/-- Whichever backend is resolved follows the grammar. -/
def Serves (engine : Engine) (env : Environment) (asked : Option Text) : Prop :=
  ∀ b, env.resolveBackend asked = .ok b → engine.FollowsGrammar b

/-- Whichever backend is resolved reports what the grammar has for it. -/
def Explains (engine : Engine) (env : Environment) (asked : Option Text) : Prop :=
  ∀ b, env.resolveBackend asked = .ok b → engine.Reports b

theorem FollowsGrammar.serves {engine : Engine} {env : Environment} {asked : Option Text} {b : Backend}
    (h : engine.FollowsGrammar b) (hb : env.resolveBackend asked = .ok b) : engine.Serves env asked := by
  intro b' hb'
  obtain rfl := Except.ok.inj (hb.symm.trans hb')
  exact h

/-- Where `rd` is resolved, no engine is asked. -/
theorem serves_of_rd (engine : Engine) {env : Environment} {asked : Option Text}
    (hb : env.resolveBackend asked = .ok .rd) : engine.Serves env asked :=
  FollowsGrammar.serves (b := .rd) trivial hb

end Engine

/-! ## Sources that are read -/

@[simp] theorem Except.mapError_eq_ok_iff {ε ε' α : Type} {f : ε → ε'} {x : Except ε α} {a : α} :
    x.mapError f = .ok a ↔ x = .ok a := by
  cases x <;> simp [Except.mapError]

theorem Backend.read_path_eq_ok_iff {b : Backend} {engine : Engine} (h : engine.FollowsGrammar b) {s : Text}
    {t : Tree Token} : b.read .path s engine = .ok t ↔ Rule.path.read s = .ok t := by
  cases b with
  | rd => exact Iff.rfl
  | driven kind => rw [read, Except.mapError_eq_ok_iff, h s t, read_path_eq_ok_iff_derivation]

/-- With a known backend that follows the grammar, a source has the tree that it has by the rules. -/
theorem readTree_eq_ok_iff {env : Environment} {asked : Option Text} {engine : Engine} (h : engine.Serves env asked)
    {s : Text} {t : Tree Token} :
    readTree env asked s engine = .ok t ↔ (∃ b, env.resolveBackend asked = .ok b) ∧ Rule.path.read s = .ok t := by
  cases hb : env.resolveBackend asked with
  | error e => simp [readTree, hb, Bind.bind, Except.bind, Except.mapError]
  | ok b =>
    have htree : readTree env asked s engine = (b.read .path s engine).mapError .malformed := by
      simp only [readTree, hb, Bind.bind, Except.bind, Except.mapError]
    rw [htree, Except.mapError_eq_ok_iff, Backend.read_path_eq_ok_iff (h b hb)]
    exact ⟨fun hread => ⟨⟨b, rfl⟩, hread⟩, And.right⟩

/-! ## Sources that are refused -/

/-- What a backend says of a source that the rules refuse so. -/
def Backend.restate : Backend → SyntaxError → SyntaxError
  | rd, e => e
  | driven _, e => { e with expected := e.expected.erase .endOfInput }

theorem Backend.read_path_eq_error {b : Backend} {engine : Engine} (hb : engine.FollowsGrammar b)
    (hr : engine.Reports b) {s : Text} {e : SyntaxError} (h : Rule.path.read s = .error e) :
    b.read .path s engine = .error (b.restate e) := by
  cases b with
  | rd => exact h
  | driven kind =>
    cases hparse : engine.parse kind .path s with
    | ok t =>
      obtain ⟨d, hd, -⟩ := (hb s t).mp hparse
      obtain ⟨t, ht, -⟩ := read_path_complete d hd
      cases h.symm.trans ht
    | error u =>
      obtain ⟨ts, place, hfrontier⟩ := exists_frontier s
      have hviable := hfrontier.viableAt
      obtain ⟨rfl, hoffset, -⟩ := hfrontier.read_error h
      obtain ⟨k, hk, ⟨us, hus⟩, hmax, haccepted⟩ := hr _ u hparse
      obtain rfl : k = place.front.offset := Nat.le_antisymm (hfrontier.viableAt_le hus).1 (hmax _ ts hviable)
      have hsame : u.expected = e.expected.erase .endOfInput := by
        ext t
        rw [haccepted ts hviable, TerminalSet.mem_erase, hfrontier.viable_concat_iff h]
      simp only [read, hparse, Except.mapError, Unexpected.error, restate, hk, hoffset, hsame]

/-! ## The engine of the rules -/

theorem Terminal.ofGrammarName?_grammarName (t : Terminal) : ofGrammarName? t.grammarName = some t := by
  cases t with
  | mark m => cases m <;> decide
  | atom a => cases a <;> decide
  | endOfInput => decide

namespace Unexpected

theorem mem_expected_ofError {e : SyntaxError} {t : Terminal} :
    t ∈ (ofError e).expected ↔ t ≠ .endOfInput ∧ t ∈ e.expected := by
  have hname : Terminal.ofGrammarName? ∘ Terminal.grammarName = some := funext Terminal.ofGrammarName?_grammarName
  rw [expected, ofError, List.filterMap_map, hname, List.filterMap_some, TerminalSet.mem_ofList, TerminalSet.mem_toList,
    TerminalSet.mem_erase]

theorem offset_ofError {e : SyntaxError} {k : Nat} (h : e.offset = k) : (ofError e).offset e.source = e.offset := by
  have hk : ¬ e.offset < 0 := by omega
  by_cases hend : e.offset = e.source.length
  · simp [offset, ofError, Obstacle.isEnd, hend]
  · simp [offset, ofError, Obstacle.isEnd, hend, hk]

end Unexpected

namespace Engine

theorem ofRules_parse_eq_error {kind : ParserKind} {goal : Goal} {s : Text} {u : Unexpected}
    (h : ofRules.parse kind goal s = .error u) : ∃ e, goal.rule.read s = .error e ∧ u = .ofError e := by
  cases hread : goal.rule.read s with
  | ok t => simp [ofRules, hread, Except.mapError] at h
  | error e =>
    simp only [ofRules, hread, Except.mapError, Except.error.injEq] at h
    exact ⟨e, rfl, h.symm⟩

theorem ofRules_followsGrammar (b : Backend) : ofRules.FollowsGrammar b := by
  cases b with
  | rd => exact trivial
  | driven kind => exact fun s t => Except.mapError_eq_ok_iff.trans read_path_eq_ok_iff_derivation

theorem ofRules_serves (env : Environment) (asked : Option Text) : ofRules.Serves env asked :=
  fun b _ => ofRules_followsGrammar b

theorem ofRules_reports (b : Backend) : ofRules.Reports b := by
  cases b with
  | rd => exact trivial
  | driven kind =>
    intro s u h
    obtain ⟨e, hread, rfl⟩ := ofRules_parse_eq_error h
    obtain ⟨ts, place, hfrontier⟩ := exists_frontier s
    obtain ⟨rfl, hoffset, -⟩ := hfrontier.read_error hread
    refine ⟨place.front.offset, (Unexpected.offset_ofError hoffset).trans hoffset, ⟨ts, hfrontier.viableAt⟩,
      fun k us hk => (hfrontier.viableAt_le hk).1, fun us hus t => ?_⟩
    obtain rfl := (hfrontier.viableAt_le hus).2 rfl
    rw [Unexpected.mem_expected_ofError, hfrontier.viable_concat_iff hread]

theorem ofRules_explains (env : Environment) (asked : Option Text) : ofRules.Explains env asked :=
  fun b _ => ofRules_reports b

end Engine

end JsonPath
