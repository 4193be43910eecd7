/-
  JsonPath.Proofs.Covers — rules read along lines of terminals.

  A rule for selectors tries lines of terminals, in some order and sharing what it can.
  What it comes to is told by the lines alone. A value means that one of them was
  followed to its end; no value means that each ended with a miss. `Covers` says so, and
  says that the misses of a reply are misses of its lines, of which none is forgotten
  but for another further on.

  The one place where a line is not tried at all is behind a dot that may be left out:
  where a dot stands, the line without it would miss its bracket at the dot.

  Proved: `covers_selectorOf`, for alternatives in any order.
-/

import JsonPath.Proofs.Lookahead

namespace JsonPath

open Grammar

/-- The miss is among the misses, or one further on is. -/
def Reported (m : Miss) (ms : List Miss) : Prop := m ∈ ms ∨ ∃ n ∈ ms, m.offset < n.offset

theorem Reported.exists_le {m : Miss} {ms : List Miss} (h : Reported m ms) : ∃ n ∈ ms, m.offset ≤ n.offset := by
  rcases h with h | ⟨n, hn, hlt⟩
  · exact ⟨m, h, Int.le_refl _⟩
  · exact ⟨n, hn, Int.le_of_lt hlt⟩

theorem Reported.mono {m : Miss} {ms ns : List Miss} (h : Reported m ms) (hs : ∀ n ∈ ms, n ∈ ns) : Reported m ns := by
  rcases h with h | ⟨n, hn, hlt⟩
  · exact .inl (hs m h)
  · exact .inr ⟨n, hs n hn, hlt⟩

/-- What a reply at `c` has to do with lines of terminals, where `means` tells the value of a line's tokens. -/
structure Covers {α : Type} (c : Cursor) (reply : Reply Cursor α) (lines : List (List Terminal))
    (means : List Token → α → Prop) : Prop where
  followed : ∀ a, reply.value = some a → ∃ ts ∈ lines, ∃ as, Follows c ts as reply.stop ∧ means as a
  missed : reply.value = none → ∀ ts ∈ lines, ∃ m, Misses c ts m ∧ Reported m reply.misses
  misses : ∀ m ∈ reply.misses, ∃ ts ∈ lines, Misses c ts m

namespace Covers

variable {α : Type} {c : Cursor} {reply : Reply Cursor α} {lines more : List (List Terminal)}
  {means means' : List Token → α → Prop}

theorem mono (h : Covers c reply lines means) (hm : ∀ as a, means as a → means' as a) : Covers c reply lines means' := by
  refine ⟨fun a ha => ?_, h.missed, h.misses⟩
  obtain ⟨ts, hts, as, hf, hmeans⟩ := h.followed a ha
  exact ⟨ts, hts, as, hf, hm as a hmeans⟩

/-- Other lines may be added if they are missed where these are. -/
theorem widen (h : Covers c reply lines means) (hsub : lines ⊆ more)
    (hmissed : reply.value = none → ∀ ts ∈ more, ∃ m, Misses c ts m ∧ Reported m reply.misses) :
    Covers c reply more means := by
  refine ⟨fun a ha => ?_, hmissed, fun m hm => ?_⟩
  · obtain ⟨ts, hts, hf⟩ := h.followed a ha
    exact ⟨ts, hsub hts, hf⟩
  · obtain ⟨ts, hts, hmiss⟩ := h.misses m hm
    exact ⟨ts, hsub hts, hmiss⟩

/-- Lines that begin with a terminal that is missed. -/
theorem here {t : Terminal} {m : Miss} {stop : Cursor} (h : c.take t = .error m) (hne : lines ≠ []) :
    Covers c (⟨none, stop, [m]⟩ : Reply Cursor α) (lines.map (t :: ·)) means := by
  refine ⟨nofun, fun _ ts hts => ?_, fun n hn => ?_⟩
  · obtain ⟨ts, -, rfl⟩ := List.mem_map.mp hts
    exact ⟨m, .here h, .inl (List.mem_singleton_self m)⟩
  · obtain rfl := List.mem_singleton.mp hn
    obtain ⟨ts, hts⟩ := List.exists_mem_of_ne_nil lines hne
    exact ⟨t :: ts, List.mem_map_of_mem hts, .here h⟩

/-- Lines that begin with a terminal that is taken. -/
theorem later {t : Terminal} (ht : t ≠ .endOfInput) {a : Token} {stop : Cursor} (htake : c.take t = .ok (a, stop))
    (h : Covers stop reply lines fun as => means (a :: as)) : Covers c reply (lines.map (t :: ·)) means := by
  refine ⟨fun b hb => ?_, fun hn ts hts => ?_, fun m hm => ?_⟩
  · obtain ⟨ts, hts, as, hf, hmeans⟩ := h.followed b hb
    exact ⟨t :: ts, List.mem_map_of_mem hts, a :: as, .cons ht htake hf, hmeans⟩
  · obtain ⟨us, hus, rfl⟩ := List.mem_map.mp hts
    obtain ⟨m, hm, hr⟩ := h.missed hn us hus
    exact ⟨m, .later ht htake hm, hr⟩
  · obtain ⟨ts, hts, hmiss⟩ := h.misses m hm
    exact ⟨t :: ts, List.mem_map_of_mem hts, .later ht htake hmiss⟩

/-- What is read after lines were missed, with their misses. -/
theorem append {stop : Cursor} {ms : List Miss} (h : Covers c (⟨none, stop, ms⟩ : Reply Cursor α) lines means)
    (h' : Covers c reply more means) :
    Covers c ⟨reply.value, reply.stop, ms ++ reply.misses⟩ (lines ++ more) means := by
  refine ⟨fun a ha => ?_, fun hn ts hts => ?_, fun m hm => ?_⟩
  · obtain ⟨ts, hts, hf⟩ := h'.followed a ha
    exact ⟨ts, List.mem_append_right _ hts, hf⟩
  · rcases List.mem_append.mp hts with hts | hts
    · obtain ⟨m, hm, hrep⟩ := h.missed rfl ts hts
      exact ⟨m, hm, hrep.mono fun _ => List.mem_append_left _⟩
    · obtain ⟨m, hm, hrep⟩ := h'.missed hn ts hts
      exact ⟨m, hm, hrep.mono fun _ => List.mem_append_right _⟩
  · rcases List.mem_append.mp hm with hm | hm
    · obtain ⟨ts, hts, hmiss⟩ := h.misses m hm
      exact ⟨ts, List.mem_append_left _ hts, hmiss⟩
    · obtain ⟨ts, hts, hmiss⟩ := h'.misses m hm
      exact ⟨ts, List.mem_append_right _ hts, hmiss⟩

end Covers

namespace Rule

variable {α β : Type} {c : Cursor} {lines more : List (List Terminal)} {means means' : List Token → α → Prop}

theorem spaced_probe (t : Terminal) (c : Cursor) : spaced (probe t) c =
    match c.take t with
    | .ok (a, stop) => ⟨some a, stop, []⟩
    | .error m => ⟨none, c, [m]⟩ := by
  have hb : (Place.blanks c : Reply Cursor Bool) = ⟨some (Lexeme.blanks c.rest ≠ []), c.front, []⟩ := rfl
  have hp : (Place.probe t c.front : Reply Cursor Token) = Cursor.probe t c.front := rfl
  simp only [spaced, attempt, Bind.bind, bind, blanks, probe, hb, hp, Cursor.probe, Cursor.take]
  cases t.lexeme? c.front.rest with
  | some w => rfl
  | none => rfl

theorem covers_pure {a : α} (h : means [] a) : Covers c ((Pure.pure a : Rule Cursor α) c) [[]] means where
  followed _ hb := ⟨[], List.mem_singleton_self _, [], .nil c, Option.some.inj hb ▸ h⟩
  missed hn := nomatch hn
  misses _ hm := nomatch hm

theorem take_bind_ok {t : Terminal} {a : Token} {stop : Cursor} (h : c.take t = .ok (a, stop)) (f : Token → Rule Cursor α) :
    (spaced (probe t) >>= f) c = f a stop := by
  show bind (spaced (probe t)) f c = f a stop
  simp only [bind, spaced_probe, h, List.nil_append]

theorem take_bind_error {t : Terminal} {m : Miss} (h : c.take t = .error m) (f : Token → Rule Cursor α) :
    (spaced (probe t) >>= f) c = ⟨none, c, [m]⟩ := by
  show bind (spaced (probe t)) f c = _
  simp only [bind, spaced_probe, h]

theorem covers_take {t : Terminal} (ht : t ≠ .endOfInput) {f : Token → Rule Cursor α}
    (lines : List (List Terminal)) (hne : lines ≠ [])
    (h : ∀ a stop, a.terminal = t → c.take t = .ok (a, stop) → Covers stop (f a stop) lines fun as => means (a :: as)) :
    Covers c ((spaced (probe t) >>= f) c) (lines.map (t :: ·)) means := by
  cases htake : c.take t with
  | error m =>
    rw [take_bind_error htake]
    exact .here htake hne
  | ok p =>
    obtain ⟨a, stop⟩ := p
    rw [take_bind_ok htake]
    obtain ⟨_, _, _, ha⟩ := Cursor.take_ok htake
    exact .later ht htake (h a stop ha htake)

theorem covers_mark {m : Mark} {f : Token → Rule Cursor α} (lines : List (List Terminal)) (hne : lines ≠ [])
    (h : ∀ a stop, a.terminal = .mark m → c.take (.mark m) = .ok (a, stop) →
      Covers stop (f a stop) lines fun as => means (a :: as)) :
    Covers c ((mark m >>= f) c) (lines.map (.mark m :: ·)) means :=
  covers_take (by simp) lines hne h

theorem covers_atom {x : Atom} {f : Token → Rule Cursor α} (lines : List (List Terminal)) (hne : lines ≠ [])
    (h : ∀ a stop, a.terminal = .atom x → c.take (.atom x) = .ok (a, stop) →
      Covers stop (f a stop) lines fun as => means (a :: as)) :
    Covers c ((atom x >>= f) c) (lines.map (.atom x :: ·)) means :=
  covers_take (by simp) lines hne h

/-- A rule whose value is the only thing that is done something with. -/
theorem covers_map {r : Rule Cursor α} (h : Covers c (r c) lines means) {g : α → β} {means' : List Token → β → Prop}
    (hg : ∀ as a, means as a → means' as (g a)) : Covers c ((r >>= fun a => Pure.pure (g a)) c) lines means' := by
  show Covers c (bind r (fun a => pure (g a)) c) lines means'
  unfold bind
  generalize r c = reply at h ⊢
  obtain ⟨_ | a, stop, ms⟩ := reply
  · exact ⟨nofun, fun _ => h.missed rfl, h.misses⟩
  · refine ⟨fun b hb => ?_, nofun, by simpa [pure] using h.misses⟩
    obtain ⟨ts, hts, as, hf, hmeans⟩ := h.followed a rfl
    exact ⟨ts, hts, as, hf, Option.some.inj hb ▸ hg as a hmeans⟩

theorem covers_attempt {r : Rule Cursor α} (h : Covers c (r c) lines means) : Covers c (attempt r c) lines means := by
  unfold attempt
  generalize r c = reply at h ⊢
  obtain ⟨_ | a, stop, ms⟩ := reply
  · exact ⟨nofun, h.missed, h.misses⟩
  · exact h

theorem covers_orElse {r s : Rule Cursor α} (hr : Covers c (r c) lines means) (hs : Covers c (s c) more means) :
    Covers c ((r <|> s) c) (lines ++ more) means := by
  show Covers c (orElse r (fun _ => s) c) (lines ++ more) means
  unfold orElse
  generalize r c = reply at hr ⊢
  obtain ⟨_ | a, stop, ms⟩ := reply
  · exact hr.append hs
  · exact hr.widen (List.subset_append_left ..) nofun

theorem optional_bind_ok {t : Terminal} {a : Token} {stop : Cursor} (h : c.take t = .ok (a, stop)) (r : Rule Cursor α) :
    (optional (spaced (probe t)) >>= fun _ => r) c = r stop := by
  show bind (optional (spaced (probe t))) (fun _ => r) c = r stop
  simp only [bind, optional, attempt, spaced_probe, h, List.nil_append]

theorem optional_bind_error {t : Terminal} {m : Miss} (h : c.take t = .error m) (r : Rule Cursor α) :
    (optional (spaced (probe t)) >>= fun _ => r) c = ⟨(r c).value, (r c).stop, m :: (r c).misses⟩ := by
  show bind (optional (spaced (probe t))) (fun _ => r) c = _
  simp only [bind, optional, attempt, spaced_probe, h, List.singleton_append]

/-- Behind a dot that may be left out. No line without it could begin where the dot is. -/
theorem covers_optional_dot {r : Rule Cursor α} (hne : lines ≠ [])
    (hlines : ∀ ts ∈ lines, ts.head? = some (.mark .leftBracket)) (h : Covers c (r c) lines means)
    (hdot : ∀ a stop, a.terminal = .mark .dot → c.take (.mark .dot) = .ok (a, stop) →
      Covers stop (r stop) lines fun as => means (a :: as)) :
    Covers c ((optional (mark .dot) >>= fun _ => r) c) (lines ++ lines.map (.mark .dot :: ·)) means := by
  unfold mark
  cases htake : c.take (.mark .dot) with
  | error m =>
    rw [optional_bind_error htake]
    have hhere : Covers c (⟨none, c, [m]⟩ : Reply Cursor α) (lines.map (.mark .dot :: ·)) means := .here htake hne
    have hc := hhere.append h
    refine hc.widen (by simp) fun hn ts hts => hc.missed hn ts ?_
    exact List.mem_append.mpr (List.mem_append.mp hts).symm
  | ok p =>
    obtain ⟨a, stop⟩ := p
    rw [optional_bind_ok htake]
    obtain ⟨_, _, _, ha⟩ := Cursor.take_ok htake
    have hc := hdot a stop ha htake
    have hlt : c.front.offset < stop.offset := Cursor.front_lt_of_take (by simp) htake
    have hlater := Covers.later (by simp) htake hc
    refine hlater.widen (List.subset_append_right ..) fun hn ts hts => ?_
    rcases List.mem_append.mp hts with hts | hts
    · obtain ⟨ts', rfl⟩ := List.head?_eq_some_iff.mp (hlines ts hts)
      obtain ⟨m, hm, hrep⟩ := hc.missed hn _ hts
      obtain ⟨n, hn, hle⟩ := hrep.exists_le
      cases hb : c.take (.mark .leftBracket) with
      | error k =>
        refine ⟨k, .here hb, .inr ⟨n, hn, ?_⟩⟩
        obtain ⟨rfl, -⟩ := Cursor.take_error hb
        have := hm.front_le
        have := stop.le_front
        show (c.front.offset : Int) < n.offset
        omega
      | ok q =>
        have hapart : apart (.mark .dot) (.mark .leftBracket) = true := by decide
        rw [apart_of_take (by simp) (by simp) htake hb] at hapart
        cases hapart
    · exact hlater.missed hn ts hts

/-! ## Selectors -/

/-- The tree is what a derivation of the phrase makes of the tokens. -/
def IsTree (p : Phrase) (as : List Token) (t : Tree Token) : Prop := ∃ d : Derivation p, d.word = as ∧ d.trees = [t]

theorem covers_bareKey (c : Cursor) : Covers c (bareKey c) [[.atom .key]] (IsTree (.rule .bareKey)) := by
  refine covers_atom [[]] (by simp) fun a _ ha _ => covers_pure ⟨.bareKey a ha, rfl, by simp⟩

theorem covers_bracketKey (c : Cursor) : Covers c (bracketKey c)
    [[.mark .leftBracket, .atom .quoted, .mark .rightBracket]] (IsTree (.rule .bracketKey)) := by
  refine covers_mark [[.atom .quoted, .mark .rightBracket]] (by simp) fun a _ ha _ => ?_
  refine covers_atom [[.mark .rightBracket]] (by simp) fun b _ hb _ => ?_
  refine covers_mark [[]] (by simp) fun d _ hd _ => covers_pure ⟨.bracketKey a b d ha hb hd, rfl, by simp⟩

theorem covers_root (c : Cursor) : Covers c (root c) (Alternative.forms .root) (IsTree (.rule .step)) := by
  refine covers_mark [[]] (by simp) fun a _ ha _ => covers_pure ⟨.root a ha, rfl, by simp⟩

theorem covers_descent (c : Cursor) : Covers c (descent c) (Alternative.forms .descent) (IsTree (.rule .step)) := by
  refine covers_mark [[.atom .key], [.mark .leftBracket, .atom .quoted, .mark .rightBracket]] (by simp)
    fun a d ha _ => ?_
  have hbare : Covers d (attempt bareKey d) _ (IsTree (.either (.rule .bareKey) (.rule .bracketKey))) :=
    (covers_attempt (covers_bareKey d)).mono fun _ _ ⟨k, hw, ht⟩ => ⟨.left k, hw, ht⟩
  have hbracket : Covers d (attempt bracketKey d) _ (IsTree (.either (.rule .bareKey) (.rule .bracketKey))) :=
    (covers_attempt (covers_bracketKey d)).mono fun _ _ ⟨k, hw, ht⟩ => ⟨.right k, hw, ht⟩
  refine covers_map (covers_orElse hbare hbracket) fun as t ⟨k, hw, ht⟩ =>
    ⟨.descent a ha k, congrArg (a :: ·) hw, by simp [ht]⟩

/-- A wildcard in brackets, whatever stands before it. -/
theorem covers_brackets {means : List Token → Tree Token → Prop}
    (h : ∀ a b d : Token, a.terminal = .mark .leftBracket → b.terminal = .mark .star →
      d.terminal = .mark .rightBracket → means [a, b, d] (.node .wildcard [])) :
    Covers c ((do
      let _ ← mark .leftBracket
      let _ ← mark .star
      let _ ← mark .rightBracket
      return .node .wildcard [] : Rule Cursor (Tree Token)) c)
      [[.mark .leftBracket, .mark .star, .mark .rightBracket]] means := by
  refine covers_mark [[.mark .star, .mark .rightBracket]] (by simp) fun a _ ha _ => ?_
  refine covers_mark [[.mark .rightBracket]] (by simp) fun b _ hb _ => ?_
  exact covers_mark [[]] (by simp) fun d _ hd _ => covers_pure (h a b d ha hb hd)

theorem covers_bracketWildcard (c : Cursor) : Covers c (bracketWildcard c)
    [[.mark .leftBracket, .mark .star, .mark .rightBracket],
      [.mark .dot, .mark .leftBracket, .mark .star, .mark .rightBracket]] (IsTree (.rule .step)) := by
  refine covers_optional_dot (by simp) (by simp) (covers_brackets fun a b d ha hb hd => ?_)
    fun o _ ho _ => covers_brackets fun a b d ha hb hd => ?_
  · exact ⟨.bracketWildcard .absent a b d ha hb hd, rfl, by simp⟩
  · exact ⟨.bracketWildcard (.dot o ho) a b d ha hb hd, rfl, by simp⟩

theorem covers_dotWildcard (c : Cursor) :
    Covers c (dotWildcard c) [[.mark .dot, .mark .star]] (IsTree (.rule .step)) := by
  refine covers_mark [[.mark .star]] (by simp) fun a _ ha _ => ?_
  refine covers_mark [[]] (by simp) fun b _ hb _ => covers_pure ⟨.dotWildcard a b ha hb, rfl, by simp⟩

theorem covers_wildcard (c : Cursor) : Covers c (wildcard c) (Alternative.forms .wildcard) (IsTree (.rule .step)) :=
  covers_orElse (covers_bracketWildcard c) (covers_dotWildcard c)

theorem covers_bracketField (c : Cursor) : Covers c (bracketField c)
    [[.mark .leftBracket, .atom .quoted, .mark .rightBracket],
      [.mark .dot, .mark .leftBracket, .atom .quoted, .mark .rightBracket]] (IsTree (.rule .step)) := by
  have hplain : ∀ as k, IsTree (.rule .bracketKey) as k → IsTree (.rule .step) as (.node .field [k]) := by
    intro as k ⟨d, hw, ht⟩
    exact ⟨.bracketField .absent d, hw, by simp [ht]⟩
  have hdot : ∀ o : Token, o.terminal = .mark .dot → ∀ as k, IsTree (.rule .bracketKey) as k →
      IsTree (.rule .step) (o :: as) (.node .field [k]) := by
    intro o ho as k ⟨d, hw, ht⟩
    exact ⟨.bracketField (.dot o ho) d, congrArg (o :: ·) hw, by simp [ht]⟩
  exact covers_optional_dot (by simp) (by simp) (covers_map (covers_bracketKey c) hplain)
    fun o d ho _ => covers_map (covers_bracketKey d) (hdot o ho)

theorem covers_dotField (c : Cursor) : Covers c (dotField c) [[.mark .dot, .atom .key]] (IsTree (.rule .step)) := by
  refine covers_mark [[.atom .key]] (by simp) fun a d ha _ => ?_
  refine covers_map (covers_bareKey d) fun as t ⟨k, hw, ht⟩ => ⟨.bareField a ha k, congrArg (a :: ·) hw, by simp [ht]⟩

theorem covers_field (c : Cursor) : Covers c (field c) (Alternative.forms .field) (IsTree (.rule .step)) :=
  covers_orElse (covers_bracketField c) (covers_dotField c)

theorem covers_index (c : Cursor) : Covers c (index c) (Alternative.forms .index) (IsTree (.rule .step)) := by
  refine covers_mark [[.atom .unsigned, .mark .rightBracket]] (by simp) fun a _ ha _ => ?_
  refine covers_atom [[.mark .rightBracket]] (by simp) fun b _ hb _ => ?_
  refine covers_mark [[]] (by simp) fun d _ hd _ => covers_pure ⟨.index a b d ha hb hd, rfl, by simp⟩

theorem covers_sign (c : Cursor) : Covers c (sign c) [[.atom .sign]] (IsTree (.rule .sign)) := by
  refine covers_atom [[]] (by simp) fun a _ ha _ => covers_pure ⟨.rule (.token a ha), rfl, ?_⟩
  simp [Derivation.trees_rule, Derivation.trees_token, Nonterminal.label?, isKept]

theorem covers_number (c : Cursor) : Covers c (number c) [[.atom .number]] (IsTree (.rule .number)) := by
  refine covers_atom [[]] (by simp) fun a _ ha _ => covers_pure ⟨.rule (.token a ha), rfl, ?_⟩
  simp [Derivation.trees_rule, Derivation.trees_token, Nonterminal.label?, isKept]

theorem covers_alternative (x : Alternative) (c : Cursor) : Covers c (x.rule c) x.forms (IsTree (.rule .step)) := by
  cases x with
  | root => exact covers_root c
  | descent => exact covers_descent c
  | wildcard => exact covers_wildcard c
  | field => exact covers_field c
  | index => exact covers_index c

theorem covers_selectorOf (order : List Alternative) (c : Cursor) :
    Covers c (selectorOf order c) (order.flatMap Alternative.forms) (IsTree (.rule .step)) := by
  induction order with
  | nil => exact ⟨nofun, nofun, nofun⟩
  | cons x order ih => exact covers_orElse (covers_attempt (covers_alternative x c)) ih

end Rule

end JsonPath
