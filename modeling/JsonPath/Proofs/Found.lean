/-
  JsonPath.Proofs.Found — what a call finds is made of terminals that were followed.

  A call that finds a token or trees has taken terminals, one at least, from where it
  stood, and what it found has no tokens but theirs. So what was tried and given up on the
  way leaves nothing behind. In a source the terminals stand in the text behind the offset.

  The end of the input is not found in this sense: looking for it answers yes or no, and
  takes nothing.

  Proved:
  - `Call.found`: which terminals; `Session.found_of_perform`: the same of a session.
  - `Found.exists_stretch`, `Found.offset_lt`: where they stand.
-/

import JsonPath.Proofs.Rewinding
import JsonPath.Proofs.Spans

namespace JsonPath

open Grammar

/-! ## Terminals that were taken -/

/-- Whether an outcome is something that was read. -/
def Outcome.isFound : Outcome → Bool
  | token _ | tree _ | trees _ => true
  | _ => false

def Outcome.leaves : Outcome → List Token
  | token a => [a]
  | tree t => t.leaves
  | trees ts => Tree.leavesList ts
  | _ => []

/-- Terminals were followed from one place to the other, and the leaves are among them. -/
def Found (c : Cursor) (o : Outcome) (last : Cursor) : Prop :=
  ∃ ts as, ts ≠ [] ∧ Follows c ts as last ∧ ∀ a ∈ o.leaves, a ∈ as

theorem Cursor.take_of_probe {t : Terminal} (ht : t ≠ .endOfInput) {c : Cursor} {a : Token}
    (h : (c.probe t).value = some a) : c.take t = .ok (a, (c.probe t).stop) := by
  have hlongest := Terminal.longest ht c.rest
  unfold probe at h ⊢
  cases hw : t.lexeme? c.rest with
  | none =>
    rw [hw] at h
    cases h
  | some w =>
    rw [hw] at hlongest h
    obtain ⟨hmem, ⟨r, hr⟩, -⟩ := hlongest
    have hfront : c.front = c := front_eq (by rw [← hr]; exact blanks_word hmem r)
    cases h
    simp only [take, hfront, hw]

namespace Found

variable {c : Cursor}

theorem ofTake {t : Terminal} (ht : t ≠ .endOfInput) {a : Token} {stop : Cursor} (h : c.take t = .ok (a, stop)) :
    Found c (.token a) stop :=
  ⟨[t], [a], List.cons_ne_nil _ _, .cons ht h (.nil stop), fun _ hb => hb⟩

theorem ofWord {p : Phrase} (d : Derivation p) {o : Outcome} {stop : Cursor}
    (h : Follows c (d.word.map Token.terminal) d.word stop) (hd : d.word ≠ [])
    (ho : o.leaves = Tree.leavesList d.trees) : Found c o stop := by
  refine ⟨_, _, mt List.map_eq_nil_iff.mp hd, h, fun a ha => ?_⟩
  rw [ho, d.leaves_trees] at ha
  exact (List.mem_filter.mp ha).1

theorem ofCovers {p : Phrase} {reply : Reply Cursor (Tree Token)} {lines : List (List Terminal)} {t : Tree Token}
    (h : Covers c reply lines (Rule.IsTree p)) (hlines : [] ∉ lines) (ht : reply.value = some t) :
    Found c (.tree t) reply.stop := by
  obtain ⟨ts, hts, as, hfollow, d, rfl, htree⟩ := h.followed t ht
  obtain rfl := hfollow.terminals
  refine ofWord d hfollow (fun hnil => ?_) ?_
  · rw [hnil] at hts
    exact hlines hts
  · rw [htree]
    exact (List.append_nil _).symm

theorem ofChain {trees : List (Tree Token)} (h : (Rule.chain c).value = some trees) :
    Found c (.trees trees) (Rule.chain c).stop := by
  cases hchain : Rule.chain c with
  | mk value stop ms =>
    rw [hchain] at h
    obtain rfl : value = some trees := h
    obtain ⟨⟨d, rfl, hfollow⟩, -⟩ := Rule.chain_some hchain
    exact ofWord d hfollow d.chain_word_ne_nil rfl

end Found

theorem RuleName.found {r : RuleName} {c : Cursor} {o : Outcome} (h : (r.rule c).value = some o) :
    Found c o (r.rule c).stop := by
  cases r
  all_goals
    rw [rule, Rule.map_apply] at h ⊢
    obtain ⟨found, hfound, rfl⟩ := Option.map_eq_some_iff.mp h
  case chain => exact .ofChain hfound
  case selector => exact .ofCovers (Rule.covers_selectorOf _ c) (by decide) hfound
  case root => exact .ofCovers (Rule.covers_root c) (by decide) hfound
  case descent => exact .ofCovers (Rule.covers_descent c) (by decide) hfound
  case wildcard => exact .ofCovers (Rule.covers_wildcard c) (by decide) hfound
  case field => exact .ofCovers (Rule.covers_field c) (by decide) hfound
  case index => exact .ofCovers (Rule.covers_index c) (by decide) hfound
  case bareKey => exact .ofCovers (Rule.covers_bareKey c) (by decide) hfound
  case bracketKey => exact .ofCovers (Rule.covers_bracketKey c) (by decide) hfound
  case sign => exact .ofCovers (Rule.covers_sign c) (by decide) hfound
  case number => exact .ofCovers (Rule.covers_number c) (by decide) hfound

/-- What is read up to the end ends behind the blanks that were before the end. -/
theorem Rule.anchored_value {α : Type} {r : Rule Cursor α} {c : Cursor} {a : α} (h : (anchored r c).value = some a) :
    (r c).value = some a ∧ (anchored r c).stop = (r c).stop.front := by
  cases hr : r c with
  | mk value stop ms =>
    cases value with
    | none =>
      rw [anchored_none hr] at h
      cases h
    | some b =>
      rw [anchored_some hr] at h ⊢
      cases htake : stop.take .endOfInput with
      | error m =>
        rw [htake] at h
        cases h
      | ok p =>
        obtain ⟨e, last⟩ := p
        rw [htake] at h
        obtain ⟨w, hw, rfl, -⟩ := Cursor.take_ok htake
        obtain rfl : [] = w := by
          simpa only [Terminal.lexeme?, Cursor.take_endOfInput htake, if_true, Option.some.injEq] using hw
        exact ⟨h, rfl⟩

/-! ## Calls -/

namespace Rule

variable {c : Cursor} {o : Outcome}

theorem found_probe (t : Terminal) (ht : t ≠ .endOfInput)
    (h : ((Outcome.token <$> probe t : Rule Cursor Outcome) c).value = some o) :
    Found c o ((Outcome.token <$> probe t : Rule Cursor Outcome) c).stop := by
  rw [map_apply] at h ⊢
  obtain ⟨a, ha, rfl⟩ := Option.map_eq_some_iff.mp h
  exact .ofTake ht (Cursor.take_of_probe ht ha)

theorem found_spaced (t : Terminal) (ht : t ≠ .endOfInput)
    (h : ((Outcome.token <$> spaced (probe t) : Rule Cursor Outcome) c).value = some o) :
    Found c o ((Outcome.token <$> spaced (probe t) : Rule Cursor Outcome) c).stop := by
  rw [map_apply, spaced_probe] at h ⊢
  cases htake : c.take t with
  | error m =>
    rw [htake] at h
    cases h
  | ok p =>
    obtain ⟨a, stop⟩ := p
    rw [htake] at h
    cases h
    exact .ofTake ht htake

theorem not_isFound_truth {r : Rule Cursor Bool} (h : ((Outcome.truth <$> r) c).value = some o) :
    o.isFound = false := by
  rw [map_apply] at h
  obtain ⟨b, -, rfl⟩ := Option.map_eq_some_iff.mp h
  rfl

end Rule

/-- What is found ends where the last of its terminals does, or behind the blanks after that. -/
theorem Call.found {call : Call} {c : Cursor} {o : Outcome} (h : (call.rule c).value = some o) (ho : o.isFound = true) :
    ∃ last, Found c o last ∧ ((call.rule c).stop = last ∨ (call.rule c).stop = last.front) := by
  have hnot : o.isFound ≠ false := by
    rw [ho]
    decide
  cases call with
  | blanks => exact absurd (Rule.not_isFound_truth h) hnot
  | skipToEnd =>
    cases h
    cases ho
  | probe t =>
    cases t with
    | endOfInput => exact absurd (Rule.not_isFound_truth h) hnot
    | mark m => exact ⟨_, Rule.found_probe (.mark m) nofun h, .inl rfl⟩
    | atom a => exact ⟨_, Rule.found_probe (.atom a) nofun h, .inl rfl⟩
  | take t =>
    cases t with
    | endOfInput => exact absurd (Rule.not_isFound_truth h) hnot
    | mark m => exact ⟨_, Rule.found_spaced (.mark m) nofun h, .inl rfl⟩
    | atom a => exact ⟨_, Rule.found_spaced (.atom a) nofun h, .inl rfl⟩
  | probeMark t =>
    cases t with
    | mark m => exact ⟨_, Rule.found_probe (.mark m) nofun h, .inl rfl⟩
    | atom | endOfInput =>
      cases h
      cases ho
  | takeMark t =>
    cases t with
    | mark m => exact ⟨_, Rule.found_spaced (.mark m) nofun h, .inl rfl⟩
    | atom | endOfInput =>
      cases h
      cases ho
  | run r => exact ⟨_, r.found h, .inl rfl⟩
  | attempt r =>
    rw [rule, Rule.attempt_apply] at h ⊢
    simp only at h
    rw [h]
    exact ⟨_, r.found h, .inl rfl⟩
  | anchored r =>
    obtain ⟨hvalue, hstop⟩ := Rule.anchored_value h
    exact ⟨_, r.found hvalue, .inr hstop⟩
  | path =>
    rw [rule, Rule.map_apply] at h ⊢
    obtain ⟨t, ht, rfl⟩ := Option.map_eq_some_iff.mp h
    have hpath : Rule.path c = ((Tree.node .path <$> Rule.anchored Rule.chain : Rule Cursor _) c) := rfl
    rw [hpath, Rule.map_apply] at ht ⊢
    obtain ⟨trees, htrees, rfl⟩ := Option.map_eq_some_iff.mp ht
    obtain ⟨hvalue, hstop⟩ := Rule.anchored_value htrees
    exact ⟨_, .ofChain hvalue, .inr hstop⟩

/-! ## Places in a source -/

theorem Cursor.offset_front_le (c : Cursor) : c.front.offset ≤ c.offset + c.rest.length := by
  show (c.advance _).offset ≤ _
  rw [offset_advance]
  omega

section Sources

variable {source : Text} {pos : Nat} {o : Outcome} {last stop : Cursor}

/-- What is found in a source has its tokens in the text behind the offset. -/
theorem Found.exists_stretch (hpos : pos ≤ source.length) (h : Found (Cursor.seek source pos) o last) :
    ∃ as p rest, as ≠ [] ∧ source = source.take pos ++ p ++ rest ∧ Stretch (source.take pos) as p ∧
      last = .behind (source.take pos ++ p) rest ∧ ∀ a ∈ o.leaves, a ∈ as := by
  obtain ⟨ts, as, hts, hfollow, hleaves⟩ := h
  have hterminals := hfollow.terminals
  rw [Cursor.seek_of_le hpos] at hfollow
  obtain ⟨p, rest, hsource, hp, rfl⟩ := hfollow.stretch
  refine ⟨as, p, rest, ?_, ?_, hp, rfl, hleaves⟩
  · rintro rfl
    exact hts hterminals.symm
  · rw [List.append_assoc, ← hsource, List.take_append_drop]

theorem Found.offset_lt (hpos : pos ≤ source.length) (h : Found (Cursor.seek source pos) o last)
    (hstop : stop = last ∨ stop = last.front) : pos < stop.offset ∧ stop.offset ≤ source.length := by
  obtain ⟨as, p, rest, has, hsource, hp, rfl, -⟩ := h.exists_stretch hpos
  obtain ⟨a, as, rfl⟩ := List.exists_cons_of_ne_nil has
  obtain ⟨hstart, hlt, hle⟩ := hp.start_stop (List.mem_cons_self ..)
  have hlength := congrArg List.length hsource
  have hplace : (Cursor.behind (source.take pos ++ p) rest).offset = pos + p.length := by
    simp only [Cursor.behind, List.length_append, List.length_take_of_le hpos]
  have hrest : (Cursor.behind (source.take pos ++ p) rest).rest.length = rest.length := rfl
  simp only [List.length_append, List.length_take_of_le hpos] at hlength hstart hle
  generalize Cursor.behind (source.take pos ++ p) rest = last at hstop hplace hrest
  have hfront := last.le_front
  have hfront' := last.offset_front_le
  rcases hstop with rfl | rfl
  · omega
  · omega

end Sources

namespace Session

theorem value_of_isFound {s : Session} {op : Operation} (h : (s.perform op).1.isFound = true) :
    (s.reply op).value = some (s.perform op).1 := by
  unfold perform at h ⊢
  cases hvalue : (s.reply op).value with
  | some o => simp only [hvalue]
  | none =>
    simp only [hvalue] at h
    split at h
    · cases h
    · cases h

theorem found_of_perform {source : Text} {pos : Nat} {furthest : Furthest} {c : Call}
    (h : ((⟨source, pos, furthest⟩ : Session).perform (.call c)).1.isFound = true) :
    ∃ last stop, Found (Cursor.seek source pos) ((⟨source, pos, furthest⟩ : Session).perform (.call c)).1 last ∧
      (stop = last ∨ stop = last.front) ∧
      ((⟨source, pos, furthest⟩ : Session).perform (.call c)).2.offset = (stop.offset : Int) := by
  have hvalue := value_of_isFound h
  rw [reply_call] at hvalue
  obtain ⟨last, hfound, hstop⟩ := Call.found hvalue h
  refine ⟨last, _, hfound, hstop, ?_⟩
  rw [perform_snd, reply_call]
  rfl

end Session

end JsonPath
