/-
  JsonPath.Proofs.Literals — what a session takes when it probes for a literal.

  A probe for an atom takes the longest prefix of what remains that is a word of the
  atom, and moves on by its length. It goes by the text from the offset on and by nothing
  else: what is before it, and what was missed earlier, makes no difference, and an offset
  behind the end leaves nothing to take. What only begins a word counts for nothing: in
  `-1.5e+` the exponent has no digits, so the number is `-1.5`.

  A key that was written between quotes is a word, and no word of that atom begins
  another. So it is taken whole from the middle of any source, whatever stands behind it,
  and decoding gives the key back.

  Proved:
  - `perform_of_some`, `perform_of_none`: a probe for an atom, told from what remains.
  - `Session.literal_longest`, and `Key.Quoted.encode_undone` for quoted keys.
-/

import JsonPath.Proofs.Decoding
import JsonPath.Proofs.Scans
import JsonPath.Proofs.Spelling

namespace JsonPath

open Lexicon

namespace Session

/-! ## Probes -/

/-- From an offset that is not before the start of the source, a call reads from there. -/
theorem reply_call (source : Text) (pos : Nat) (furthest : Furthest) (c : Call) :
    (⟨source, pos, furthest⟩ : Session).reply (.call c) = (c.rule (Cursor.seek source pos)).atOffset := by
  have hpos : (0 : Int) ≤ pos := Int.natCast_nonneg pos
  exact call_of_nonneg (s := ⟨source, pos, furthest⟩) hpos c

section Probes

variable {source : Text} {pos : Nat} {a : Atom}

theorem reply_probe (furthest : Furthest) :
    (⟨source, pos, furthest⟩ : Session).reply (.call (.probe a)) =
      (⟨((Cursor.seek source pos).probe a).value.map .token, ((Cursor.seek source pos).probe a).stop,
        ((Cursor.seek source pos).probe a).misses⟩ : Reply Cursor Outcome).atOffset := by
  rw [reply_call]
  show Reply.atOffset ((Outcome.token <$> Rule.probe a) (Cursor.seek source pos)) = _
  rw [Rule.map_apply]
  rfl

theorem perform_of_some {w : Text} (h : a.lexeme? (source.drop pos) = some w) (furthest : Furthest) :
    (⟨source, pos, furthest⟩ : Session).perform (.call (.probe a)) =
      (.token ⟨a, w, pos, pos + w.length, (Cursor.seek source pos).location⟩, ⟨source, pos + w.length, furthest⟩) := by
  have hlexeme : (Terminal.atom a).lexeme? (Cursor.seek source pos).rest = some w := by rwa [Cursor.rest_seek]
  have hstop : ((Cursor.seek source pos).advance w.length).offset = pos + w.length := by
    have hle := (Terminal.lexeme?_isPrefix hlexeme).length_le
    rw [Cursor.offset_advance, Nat.min_eq_left hle]
    rfl
  have hplace : Place.offset ((Cursor.seek source pos).advance w.length) = (pos + w.length : Int) := by
    show (((Cursor.seek source pos).advance w.length).offset : Int) = _
    rw [hstop, Int.natCast_add]
  unfold perform
  rw [reply_probe]
  simp only [Cursor.probe, hlexeme, hstop, Option.map_some, Reply.atOffset, after, hplace, Int.natCast_add]
  rfl

theorem perform_of_none (h : a.lexeme? (source.drop pos) = none) (furthest : Furthest) :
    (⟨source, pos, furthest⟩ : Session).perform (.call (.probe a)) =
      (.nothing, ⟨source, pos, furthest.note ⟨pos, a⟩⟩) := by
  have hlexeme : (Terminal.atom a).lexeme? (Cursor.seek source pos).rest = none := by rwa [Cursor.rest_seek]
  unfold perform
  rw [reply_probe]
  simp only [Cursor.probe, hlexeme, Option.map_none, Reply.atOffset, after]
  rfl

end Probes

/-! ## The longest literal -/

/-- A probe for an atom finds a token if and only if some prefix of what remains is a word of
    the atom. Its text is the longest such prefix, and the session moves on by its length. -/
theorem literal_longest (source : Text) (pos : Nat) (furthest : Furthest) (a : Atom) :
    let probed := (⟨source, pos, furthest⟩ : Session).perform (.call (.probe a))
    ((∃ t, probed.1 = .token t) ↔ ∃ w ∈ a.language, w <+: source.drop pos) ∧
    ∀ t, probed.1 = .token t →
      t.text ∈ a.language ∧ t.text <+: source.drop pos ∧
      (∀ v ∈ a.language, v <+: source.drop pos → v.length ≤ t.text.length) ∧
      probed.2.offset = pos + t.text.length := by
  intro probed
  have hlongest := a.longest (source.drop pos)
  cases h : a.lexeme? (source.drop pos) with
  | none =>
    rw [h] at hlongest
    have hprobed : probed.1 = .nothing := congrArg Prod.fst (perform_of_none h furthest)
    have hnot : ∀ t, probed.1 ≠ .token t := by
      intro t ht
      rw [hprobed] at ht
      cases ht
    refine ⟨⟨fun ⟨t, ht⟩ => absurd ht (hnot t), fun ⟨w, hw, hp⟩ => absurd hp (hlongest w hw)⟩, fun t ht => ?_⟩
    exact absurd ht (hnot t)
  | some w =>
    rw [h] at hlongest
    obtain ⟨hmem, hprefix, hmax⟩ := hlongest
    have hprobed := perform_of_some h furthest
    refine ⟨⟨fun _ => ⟨w, hmem, hprefix⟩, fun _ => ⟨_, congrArg Prod.fst hprobed⟩⟩, fun t ht => ?_⟩
    have htoken := ht.symm.trans (congrArg Prod.fst hprobed)
    injection htoken with htoken
    subst htoken
    exact ⟨hmem, hprefix, hmax, congrArg (fun r => r.2.offset) hprobed⟩

theorem literal_longest_of_exponent :
    let probed := (⟨"[-1.5e+]", 1, .start⟩ : Session).perform (.call (.probe (.atom .number)))
    ∃ t, probed.1 = .token t ∧ t.text = "-1.5" ∧ probed.2.offset = 5 ∧
      ∀ v ∈ Atom.language .number, v <+: ("-1.5e+]" : Text) → v.length ≤ 4 := by
  intro probed
  obtain ⟨t, ht, htext⟩ : ∃ t, probed.1 = .token t ∧ t.text = "-1.5" := ⟨_, rfl, by decide +kernel⟩
  obtain ⟨-, h⟩ := literal_longest "[-1.5e+]" 1 .start .number
  obtain ⟨-, -, hmax, hoffset⟩ := h t ht
  rw [htext] at hmax hoffset
  exact ⟨t, ht, htext, hoffset, hmax⟩

end Session

/-! ## Quoted keys -/

namespace Key.Quoted

theorem encode_injective : Function.Injective encode := by
  intro name name' h
  have hname := decode_encode name
  rw [h, decode_encode] at hname
  exact (Except.ok.inj hname).symm

/-- Wherever a written key stands, a session takes it and no more, and decoding what was taken
    gives the key. -/
theorem encode_undone (name before after : Text) (furthest : Furthest) :
    let source := before ++ encode name ++ after
    let probed := (⟨source, before.length, furthest⟩ : Session).perform (.call (.probe (.atom .quoted)))
    probed = (.token (.behind before (.atom .quoted) (encode name)),
      ⟨source, before.length + (encode name).length, furthest⟩) ∧
    decode (encode name) = .ok name ∧ Function.Injective encode := by
  intro source probed
  have hsource : source = before ++ (encode name ++ after) := List.append_assoc ..
  have hdrop : source.drop before.length = encode name ++ after := by rw [hsource, List.drop_left]
  have hlexeme : Atom.lexeme? .quoted (source.drop before.length) = some (encode name) := by
    rw [hdrop]
    exact quoted?_of_isPrefix (encode_mem name) (List.prefix_append ..)
  have hlocation : (Cursor.seek source before.length).location = .ofOffset before before.length := by
    rw [hsource, Cursor.seek_append]
    rfl
  refine ⟨?_, decode_encode name, encode_injective⟩
  show Session.perform _ _ = _
  rw [Session.perform_of_some hlexeme furthest, hlocation]
  rfl

end Key.Quoted

end JsonPath
