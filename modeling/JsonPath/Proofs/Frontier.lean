/-
  JsonPath.Proofs.Frontier — where a source can be followed no further.

  The frontier of a source is a place that terminals lead to which begin a path, and from
  where no form leads on. A source has one frontier, however it is found
  (`Frontier.unique`), and what reading replies can be told from it: whether the source
  is a path, where it is rejected and what was expected (`Frontier.read_ok_iff`,
  `Frontier.read_error`).

  A frontier is one for what is behind it. So if another source can be followed along the
  same terminals to a place with the same text behind it, that is where its own frontier
  is (`Frontier.transfer`). A dot is the one terminal for which that takes care: where the
  text behind begins with a dot, the two are `..` or not, and which they are depends on
  whether blanks are between them.
-/

import JsonPath.Proofs.Rejection

namespace JsonPath

open scoped Computability
open Lexicon Grammar

theorem Grammar.Derivable.exists_chain {as : List Token} (h : Derivable (as.map Token.terminal)) :
    ∃ c : Chain, c.word = as := by
  obtain ⟨fs, hfs, g, hg, hts⟩ := derivable_iff.mp h
  exact Derivation.exists_chain hfs hg hts

theorem Grammar.Derivable.viable {ts : List Terminal} (h : Derivable ts) : Viable ts :=
  ⟨[], by rwa [List.append_nil]⟩

theorem Grammar.Viable.isChain {ts : List Terminal} (h : Viable ts) :
    ∃ next, (ts ++ [next]).IsChain (splits · · = true) := by
  obtain ⟨gs, hgs, part, next, hb, rfl⟩ := viable_iff.mp h
  exact ⟨next, isChain_of_begins hgs hb⟩

/-! ## Frontiers and replies -/

/-- The source is followed along `ts`, which are forms and the beginning of one, to a place where all forms are missed. -/
inductive Frontier (s : Text) : List Terminal → Cursor → Prop where
  | mk {fs : List (List Terminal)} {as : List Token} {last : Cursor} {part : List Terminal} {place : Cursor} :
    (∀ f ∈ fs, f ∈ forms) → Follows (.start s) fs.flatten as last → Front last part place →
    Frontier s (fs.flatten ++ part) place

theorem exists_frontier (s : Text) : ∃ ts place, Frontier s ts place := by
  obtain ⟨last, hrun, hstuck⟩ := Rule.linksOf_run Alternative.mem_standard (Cursor.start s)
  obtain ⟨part, place, hfront, -, -⟩ := hstuck.exists_front
  obtain ⟨fs, hfs, as, hf⟩ := hrun.follows
  exact ⟨_, place, .mk hfs hf hfront⟩

namespace Frontier

variable {s : Text} {ts us : List Terminal} {place place' : Cursor}

theorem follows (h : Frontier s ts place) : ∃ as, Follows (.start s) ts as place := by
  cases h with
  | mk _ hf hfront =>
    obtain ⟨bs, hp⟩ := hfront.follows
    exact ⟨_, hf.append hp⟩

theorem viable (h : Frontier s ts place) : Viable ts := by
  cases h with
  | mk hfs _ hfront =>
    obtain ⟨t, ht⟩ := hfront.begins
    exact viable_iff.mpr ⟨_, hfs, _, t, ht, rfl⟩

theorem viableAt (h : Frontier s ts place) : ViableAt s place.front.offset ts := by
  obtain ⟨as, hf⟩ := h.follows
  exact viableAt_of_follows hf h.viable

theorem ne_endOfInput (h : Frontier s ts place) {t : Terminal} (ht : Viable (ts ++ [t])) : t ≠ .endOfInput := by
  cases h with
  | mk hfs _ hfront =>
    obtain ⟨next, hnext⟩ := hfront.begins
    exact ((viable_next_iff hfs hnext t).mp ht).ne_endOfInput

/-- Nothing that begins a path is followed further, and nothing else as far. -/
theorem front_le (h : Frontier s ts place) (hv : Viable us) {bs : List Token} {d : Cursor}
    (hu : Follows (.start s) us bs d) :
    d.front.offset ≤ place.front.offset ∧ (d.front.offset = place.front.offset → us = ts) := by
  cases h with
  | mk hfs hf hfront =>
    obtain ⟨gs, hgs, vs, t, hb, rfl⟩ := viable_iff.mp hv
    exact hfront.viable_le hfs hgs hf hb hu

/-- No viable prefix is longer than the one up to the frontier, and only those terminals spell one as long. -/
theorem viableAt_le (h : Frontier s ts place) {k : Nat} (hk : ViableAt s k us) :
    k ≤ place.front.offset ∧ (k = place.front.offset → us = ts) := by
  obtain ⟨gs, hgs, vs, t, hb, heq, bs, d, hd, hle⟩ := hk.exists_follows
  obtain ⟨hmax, hsame⟩ := h.front_le (viable_iff.mpr ⟨gs, hgs, vs, t, hb, heq⟩) hd
  exact ⟨Nat.le_trans hle hmax, fun hk => hsame (Nat.le_antisymm hmax (hk ▸ hle))⟩

theorem unique (h : Frontier s ts place) (h' : Frontier s us place') : ts = us ∧ place = place' := by
  obtain ⟨as, hf⟩ := h.follows
  obtain ⟨bs, hf'⟩ := h'.follows
  obtain ⟨hle, -⟩ := h'.front_le h.viable hf
  obtain ⟨hle', heq⟩ := h.front_le h'.viable hf'
  obtain rfl := heq (Nat.le_antisymm hle' hle)
  exact ⟨rfl, (hf.unique hf').2⟩

/-- A source that is no path is rejected at its frontier, for want of what may come next. -/
theorem read_error (h : Frontier s ts place) {e : SyntaxError} (he : Rule.path.read s = .error e) :
    e.source = s ∧ e.offset = place.front.offset ∧
      ∀ t, t ∈ e.expected ↔ Viable (ts ++ [t]) ∨ t = .endOfInput ∧ Derivable ts := by
  obtain ⟨last, hrun, hstuck⟩ := Rule.linksOf_run Alternative.mem_standard (Cursor.start s)
  obtain ⟨part, place', hfront, hoffset, hexpected⟩ := hstuck.exists_front
  obtain ⟨hsource, heq, hmem⟩ := read_path_error he hrun hfront rfl hoffset
  obtain ⟨fs, hfs, as, hf⟩ := hrun.follows
  obtain ⟨next, hnext⟩ := hfront.begins
  obtain ⟨rfl, rfl⟩ := h.unique (.mk hfs hf hfront)
  refine ⟨hsource, heq, fun t => ?_⟩
  rw [hmem, hexpected, viable_next_iff hfs hnext, derivable_iff_follows hfs hf hfront]

/-- What may come next is what was expected, but for the end of the input. -/
theorem viable_concat_iff (h : Frontier s ts place) {e : SyntaxError} (he : Rule.path.read s = .error e) {t : Terminal} :
    Viable (ts ++ [t]) ↔ t ≠ .endOfInput ∧ t ∈ e.expected := by
  obtain ⟨-, -, hexpected⟩ := h.read_error he
  rw [hexpected]
  exact ⟨fun ht => ⟨h.ne_endOfInput ht, .inl ht⟩, fun ⟨hne, ht⟩ => ht.resolve_right fun hend => hne hend.1⟩

theorem read_ok_iff (h : Frontier s ts place) :
    (∃ t, Rule.path.read s = .ok t) ↔ Derivable ts ∧ place.front.rest = [] := by
  obtain ⟨as, hf⟩ := h.follows
  constructor
  · intro ⟨t, ht⟩
    obtain ⟨c, ⟨p, u, hp, hu, rfl⟩, rfl⟩ := read_path_eq_ok_iff.mp ht
    -- the chain leads to the end of the source, which is as far as the frontier can be
    have hchain := c.follows hp hu
    have hderivable : Derivable (c.word.map Token.terminal) := ⟨.rule c, rfl⟩
    have hend : (Cursor.behind p u).front.rest = [] := Cursor.rest_front_behind hu
    obtain ⟨hle, heq⟩ := h.front_le hderivable.viable hchain
    have hlength := h.viableAt.1
    have hge := Cursor.length_le_front (b := p) hu []
    rw [List.append_nil] at hge
    rw [List.length_append] at hlength
    obtain rfl := heq (by omega)
    obtain ⟨-, rfl⟩ := hf.unique hchain
    exact ⟨hderivable, hend⟩
  · intro ⟨hderivable, hrest⟩
    rw [← hf.terminals] at hderivable
    obtain ⟨c, rfl⟩ := hderivable.exists_chain
    obtain ⟨p, u, rfl, hp, rfl⟩ := Follows.stretch (b := []) hf
    have hspelled : Spelled c.word (p ++ u) := ⟨p, u, hp, Cursor.blank_of_rest_front hrest, rfl⟩
    exact ⟨_, read_path_eq_ok_iff.mpr ⟨c, hspelled, rfl⟩⟩

end Frontier

/-! ## The same text behind -/

theorem Cursor.take_of_none {t : Terminal} {c : Cursor} (h : t.lexeme? c.front.rest = none) :
    c.take t = .error ⟨c.front.offset, t⟩ := by
  rw [take, h]

theorem Cursor.take_of_isPrefix {m : Mark} {c : Cursor} (h : m.lexeme <+: c.front.rest) :
    ∃ a d, c.take (.mark m) = .ok (a, d) := by
  rw [take, Terminal.lexeme?, if_pos (List.isPrefixOf_iff_prefix.mpr h)]
  exact ⟨_, _, rfl⟩

theorem follows_or_misses {ts : List Terminal} (h : .endOfInput ∉ ts) (c : Cursor) :
    (∃ as d, Follows c ts as d) ∨ ∃ m, Misses c ts m := by
  induction ts generalizing c with
  | nil => exact .inl ⟨[], c, .nil c⟩
  | cons t ts ih =>
    rw [List.mem_cons, not_or] at h
    cases htake : c.take t with
    | error m => exact .inr ⟨m, .here htake⟩
    | ok p =>
      obtain ⟨a, d⟩ := p
      rcases ih h.2 d with ⟨as, e, hf⟩ | ⟨m, hm⟩
      · exact .inl ⟨_, _, .cons (Ne.symm h.1) htake hf⟩
      · exact .inr ⟨m, .later (Ne.symm h.1) htake hm⟩

/-- The text ahead of `d` is the one ahead of `c`, and there are blanks before it if there were. -/
structure Cursor.SameAhead (c d : Cursor) : Prop where
  rest : d.front.rest = c.front.rest
  gap : d.front = d → c.front = c

namespace Front

variable {last place last' place' : Cursor} {part : List Terminal} {as : List Token}

/-- Behind a dot that is all there is of a form, there is no other dot. -/
theorem not_dotDot (h : Front last [.mark .dot] place) {r : Text} (hr : place.rest = .ofChar '.' :: r) : False := by
  obtain ⟨as, hfollow⟩ := h.follows
  have hdots : Mark.lexeme .dotDot <+: last.front.rest := by
    cases hfollow with
    | cons _ htake hnil =>
      cases hnil
      obtain ⟨⟨x, hx⟩, rfl⟩ := Cursor.take_mark htake
      rw [Cursor.rest_advance, ← hx, List.drop_left] at hr
      exact ⟨r, by rw [← hx, hr]; rfl⟩
  obtain ⟨a, d, htake⟩ := Cursor.take_of_isPrefix hdots
  have htwo : Follows last [.mark .dotDot] [a] d := .cons (by simp) htake (.nil d)
  obtain ⟨-, hlt⟩ := eq_dot_of_dotDot (f := [.mark .dot, .mark .star]) (by decide) (by simp) hfollow htwo
  obtain ⟨m, hm, hle⟩ := h.missed [.mark .dotDot, .atom .key] (by decide)
  have hkey : Misses d [.atom .key] m := hm.drop htwo
  have hge := hkey.front_le
  have hback := d.le_front
  omega

/-- Nor is there where the same text is ahead. -/
theorem dotDot_missed (h : Front last [.mark .dot] place) (h' : Follows last' [.mark .dot] as place')
    (hsame : place.SameAhead place') {a : Token} {d : Cursor} : last'.take (.mark .dotDot) ≠ .ok (a, d) := by
  intro htwo
  cases h' with
  | cons _ htake hnil =>
    cases hnil
    obtain ⟨-, hplace⟩ := Cursor.take_mark htake
    obtain ⟨⟨r, hr⟩, -⟩ := Cursor.take_mark htwo
    have hdot : place'.rest = .ofChar '.' :: r := by rw [hplace, Cursor.rest_advance, ← hr]; rfl
    have hstay : place'.front = place' := Cursor.front_eq (by rw [hdot]; exact Lexicon.blanks_eq_nil (by decide) r)
    have hrest := hsame.rest
    rw [hstay, hsame.gap hstay, hdot] at hrest
    exact h.not_dotDot hrest.symm

theorem eq_dot (h : Front last [.mark .dot] place) (h' : Follows last' [.mark .dot] as place')
    (hsame : place.SameAhead place') {t : Terminal} {us f : List Terminal} (hf : f ∈ forms) (hu : t :: us <+: f)
    {bs : List Token} {d : Cursor} (hd : Follows last' (t :: us) bs d) : t = .mark .dot := by
  have hheads : ∀ f ∈ forms, ∀ t ∈ f.head?, apart (.mark .dot) t = false → t = .mark .dot ∨ t = .mark .dotDot := by
    decide
  have hmissed {a d} := h.dotDot_missed (a := a) (d := d) h' hsame
  obtain ⟨x, rfl⟩ := hu
  cases h' with
  | cons hne hdot _ =>
    cases hd with
    | cons hne' htake _ =>
      rcases hheads _ hf t rfl (apart_of_take hne hne' hdot htake) with heq | rfl
      · exact heq
      · exact absurd htake hmissed

/-- What continues the part is not followed: it was missed where the text ahead was read first. -/
theorem eq_of_isPrefix (h : Front last part place) (h' : Follows last' part as place') (hsame : place.SameAhead place')
    {us f : List Terminal} (hf : f ∈ forms) (hu : us <+: f) {bs : List Token} {d : Cursor} (hd : Follows last' us bs d)
    (hpre : part <+: us) : us = part := by
  obtain ⟨x, rfl⟩ := hpre
  cases x with
  | nil => exact List.append_nil part
  | cons t x =>
    have hb : Begins part t := ⟨f, hf, (List.prefix_append (part ++ [t]) x).trans (by simpa using hu)⟩
    obtain ⟨_, _, e, rfl, hpe, hx⟩ := hd.split
    obtain ⟨-, rfl⟩ := h'.unique hpe
    have hnone := (Cursor.take_error (h.exists_miss hb).1).2
    rw [← hsame.rest] at hnone
    cases hx with
    | cons _ htake _ => cases htake.symm.trans (Cursor.take_of_none hnone)

/-- What else is followed stays behind the place and is no whole form. -/
theorem followed_le (h : Front last part place) (h' : Follows last' part as place') (hsame : place.SameAhead place')
    {us f : List Terminal} (hf : f ∈ forms) (hu : us <+: f) {bs : List Token} {d : Cursor} (hd : Follows last' us bs d) :
    us ≠ f ∧ d.front.offset ≤ place'.front.offset := by
  obtain ⟨next, g, hg, hp⟩ := h.begins
  have hpart : part <+: g := (List.prefix_append part [next]).trans hp
  have hback := place'.le_front
  have hform : us = f → ¬ us <+: part := fun heq hpre => Begins.not_form ⟨g, hg, hp⟩ hf (heq ▸ hpre)
  rcases follows_compare hf hg hu hpart hd h' with hpre | hpre | ⟨rfl, hlt⟩ | ⟨rfl, hlt⟩
  · refine ⟨fun heq => hform heq hpre, ?_⟩
    by_cases heq : us = part
    · subst heq
      obtain ⟨-, rfl⟩ := hd.unique h'
      exact Nat.le_refl _
    · have := front_lt_of_isPrefix hd h' hpre heq
      omega
  · obtain rfl := h.eq_of_isPrefix h' hsame hf hu hd hpre
    obtain ⟨-, rfl⟩ := hd.unique h'
    exact ⟨fun heq => hform heq (List.prefix_refl _), Nat.le_refl _⟩
  · exact ⟨fun heq => form_ne_dot hf heq.symm, by omega⟩
  · cases us with
    | nil =>
      cases hd
      have := h'.offset_le
      omega
    | cons x us =>
      obtain rfl := h.eq_dot h' hsame hf hu hd
      have hpre : [.mark .dot] <+: Terminal.mark .dot :: us := List.cons_prefix_cons.mpr ⟨rfl, List.nil_prefix⟩
      obtain ⟨-, rfl⟩ := List.cons.inj (h.eq_of_isPrefix h' hsame hf hu hd hpre)
      obtain ⟨-, rfl⟩ := hd.unique h'
      have := d.le_front
      omega

/-- Where the same part of a form leads to the same text, that is the front too. -/
theorem transfer (h : Front last part place) (h' : Follows last' part as place') (hsame : place.SameAhead place') :
    Front last' part place' := by
  refine ⟨h.begins, ⟨as, h'⟩, fun f hf => ?_⟩
  rcases follows_or_misses (endOfInput_not_mem hf) last' with ⟨bs, d, hd⟩ | ⟨m, hm⟩
  · exact absurd rfl (h.followed_le h' hsame hf (List.prefix_refl f) hd).1
  · obtain ⟨us, t, bs, d, hp, hd, herr⟩ := hm.exists_follows
    obtain ⟨rfl, -⟩ := Cursor.take_error herr
    have hle := (h.followed_le h' hsame hf ((List.prefix_append us [t]).trans hp) hd).2
    exact ⟨_, hm, Int.ofNat_le.mpr hle⟩

end Front

theorem Frontier.transfer {s s' : Text} {ts : List Terminal} {place place' : Cursor} (h : Frontier s ts place)
    {as : List Token} (h' : Follows (.start s') ts as place') (hsame : place.SameAhead place') :
    Frontier s' ts place' := by
  cases h with
  | mk hfs hf hfront =>
    obtain ⟨_, _, last', rfl, hf', hpart⟩ := h'.split
    exact .mk hfs hf' (hfront.transfer hpart hsame)

end JsonPath
