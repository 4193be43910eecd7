/-
  JsonPath.Proofs.Spacing — blanks between words carry no meaning.

  A source is cut into the words of its tokens and the blanks before each and behind the
  last. With other blanks in their places it is read in the same way. For a path that is
  because the same words are spelled, only elsewhere. For a source that is no path, the
  words are those up to its frontier, and what is behind stays as it is: the frontier
  moves with the text (`Frontier.transfer`). What is reported there is the backend's own
  matter, so that part is of backends that report as the grammar says.

  Blanks may come or go at any place between two words. Behind the last word before the
  frontier they may come, but where there are any, some must stay: without them the text
  behind could make another word of it.

  Proved: `blanks_immaterial`.
-/

import JsonPath.Proofs.Frontier
import JsonPath.Proofs.Relocation

namespace JsonPath

open scoped Computability
open Lexicon Grammar

/-! ## Words and blanks -/

/-- The words in order, with blanks before each. -/
def spaced (us : List Text) (ws : List (Terminal × Text)) : Text := (List.zipWith (fun u w => u ++ w.2) us ws).flatten

/-- Blanks for each of the words, which are words of their terminals, and `u` for behind the last. -/
structure Spacing (us : List Text) (ws : List (Terminal × Text)) (u : Text) : Prop where
  length : us.length = ws.length
  blanks : ∀ v ∈ us, v ∈ blank∗
  last : u ∈ blank∗
  words : ∀ w ∈ ws, w.2 ∈ w.1.language

/-- A spacing, as scanning its parts tells. -/
theorem Spacing.of_scan {us : List Text} {ws : List (Terminal × Text)} {u : Text} (hlength : us.length = ws.length)
    (hblanks : ∀ v ∈ us, Lexeme.blanks v = v) (hlast : Lexeme.blanks u = u)
    (hwords : ∀ w ∈ ws, w.1 ≠ .endOfInput ∧ w.1.lexeme? w.2 = some w.2) : Spacing us ws u := by
  have hmem : ∀ {v : Text}, Lexeme.blanks v = v → v ∈ blank∗ := fun h => h ▸ blanks_mem _
  refine ⟨hlength, fun v hv => hmem (hblanks v hv), hmem hlast, fun w hw => ?_⟩
  obtain ⟨hne, hscan⟩ := hwords w hw
  have hlongest := Terminal.longest hne w.2
  rw [hscan] at hlongest
  exact hlongest.1

theorem Token.map_fst_content (as : List Token) : (as.map content).map Prod.fst = as.map terminal := by
  rw [List.map_map]
  rfl

theorem Spacing.exists_stretch {us : List Text} {ws : List (Terminal × Text)} {u : Text} (h : Spacing us ws u) (b : Text) :
    ∃ as, as.map Token.content = ws ∧ Stretch b as (spaced us ws) := by
  obtain ⟨hlength, hblanks, -, hwords⟩ := h
  induction ws generalizing us b with
  | nil => exact ⟨[], rfl, by simpa [spaced] using Stretch.nil b⟩
  | cons w ws ih =>
    obtain ⟨v, us, rfl⟩ := List.exists_cons_of_length_eq_add_one hlength
    rw [List.forall_mem_cons] at hblanks hwords
    obtain ⟨as, has, hstretch⟩ := ih (b ++ v ++ w.2) (Nat.succ.inj hlength) hblanks.2 hwords.2
    exact ⟨.behind (b ++ v) w.1 w.2 :: as, congrArg (w :: ·) has, .cons hblanks.1 hwords.1 hstretch⟩

theorem Stretch.exists_spacing {b p u : Text} {as : List Token} (h : Stretch b as p) (hu : u ∈ blank∗) :
    ∃ us, Spacing us (as.map Token.content) u ∧ p = spaced us (as.map Token.content) := by
  induction h with
  | nil => exact ⟨[], ⟨rfl, nofun, hu, nofun⟩, rfl⟩
  | @cons b v w rest t ts hv hw _ ih =>
    obtain ⟨us, hs, rfl⟩ := ih
    refine ⟨v :: us, ⟨congrArg (· + 1) hs.length, ?_, hu, ?_⟩, rfl⟩
    · exact List.forall_mem_cons.mpr ⟨hv, hs.blanks⟩
    · exact List.forall_mem_cons.mpr ⟨hw, hs.words⟩

section Sources

variable {env : Environment} {asked : Option Text} {engine : Engine} {us us' : List Text} {ws : List (Terminal × Text)} {u u' r : Text}

/-! ## Paths -/

theorem readTree_of_spelled {b : Backend} (hb : env.resolveBackend asked = .ok b) (hengine : engine.Serves env asked)
    {s : Text} (c : Chain) (h : Spelled c.word s) : readTree env asked s engine = .ok (.node .path c.trees) :=
  (readTree_eq_ok_iff hengine).mpr ⟨⟨b, hb⟩, read_path_eq_ok_iff.mpr ⟨c, h, rfl⟩⟩

theorem exists_spacing_of_path (hengine : engine.Serves env asked) {s : Text} {p : Path}
    (h : readPath env asked s engine = .ok p) :
    ∃ t, ∃ d : Derivation (.rule .path), readTree env asked s engine = .ok t ∧ d.trees = [t] ∧
      ∃ us u, Spacing us (d.word.map Token.content) u ∧ s = spaced us (d.word.map Token.content) ++ u := by
  obtain ⟨⟨b, hb⟩, c, ⟨v, u, hv, hu, rfl⟩, -⟩ := (readPath_eq_ok_iff hengine).mp h
  obtain ⟨us, hs, rfl⟩ := hv.exists_spacing hu
  exact ⟨_, .rule c, readTree_of_spelled hb hengine c ⟨_, u, hv, hu, rfl⟩, rfl, us, u, hs, rfl⟩

theorem readPath_spaced (hengine : engine.Serves env asked) {p : Path}
    (h : readPath env asked (spaced us ws ++ u) engine = .ok p) (hs : Spacing us ws u)
    (hd : Derivable (ws.map Prod.fst)) (hs' : Spacing us' ws u') :
    readPath env asked (spaced us' ws ++ u') engine = .ok p ∧
      ∃ t t', readTree env asked (spaced us ws ++ u) engine = .ok t ∧
        readTree env asked (spaced us' ws ++ u') engine = .ok t' ∧ t'.unplaced = t.unplaced := by
  obtain ⟨as, has, hstretch⟩ := hs.exists_stretch []
  obtain ⟨bs, hbs, hstretch'⟩ := hs'.exists_stretch []
  rw [← has, Token.map_fst_content] at hd
  obtain ⟨c, rfl⟩ := hd.exists_chain
  obtain ⟨d, rfl, htrees⟩ := c.exists_of_content (hbs.trans has.symm)
  have hspelled : Spelled c.word (spaced us ws ++ u) := ⟨_, u, hstretch, hs.last, rfl⟩
  have hspelled' : Spelled d.word (spaced us' ws ++ u') := ⟨_, u', hstretch', hs'.last, rfl⟩
  obtain ⟨⟨b, hb⟩, -⟩ := (readPath_eq_ok_iff hengine).mp h
  obtain ⟨q, -, hm⟩ := c.means_chain hstretch.text_mem
  have hread := (readPath_eq_ok_iff hengine).mpr ⟨⟨b, hb⟩, c, hspelled, hm⟩
  obtain rfl := Except.ok.inj (h.symm.trans hread)
  have hm' : Means d.trees (p.map .selector) := by rwa [Means, htrees]
  refine ⟨(readPath_eq_ok_iff hengine).mpr ⟨⟨b, hb⟩, d, hspelled', hm'⟩, _, _,
    readTree_of_spelled hb hengine c hspelled, readTree_of_spelled hb hengine d hspelled', ?_⟩
  simp only [Tree.unplaced, Tree.map, htrees]

/-! ## Rejected sources -/

theorem readPath_eq_malformed (hengine : engine.Serves env asked) (hexplains : engine.Explains env asked) {s : Text}
    {e : SyntaxError} (h : readPath env asked s engine = .error (.malformed e)) :
    ∃ b, env.resolveBackend asked = .ok b ∧ ∃ e₀, Rule.path.read s = .error e₀ ∧ e = b.restate e₀ := by
  cases hb : env.resolveBackend asked with
  | error x =>
    simp only [readPath, readTree, hb, Bind.bind, Except.bind, Except.mapError] at h
    cases h
  | ok b =>
    cases hread : Rule.path.read s with
    | ok t =>
      obtain ⟨p, -, ht⟩ := lower_path hread
      rw [readPath_of_ok hb (hengine b hb) hread ht] at h
      cases h
    | error e₀ =>
      rw [readPath_of_error hb (Backend.read_path_eq_error (hengine b hb) (hexplains b hb) hread)] at h
      cases h
      exact ⟨b, rfl, e₀, rfl, rfl⟩

theorem Backend.restate_eq (b : Backend) (e : SyntaxError) :
    b.restate e = ⟨e.source, e.offset, (b.restate e).expected⟩ := by
  cases b <;> rfl

theorem Backend.expected_restate_congr (b : Backend) {e e' : SyntaxError} (h : e.expected = e'.expected) :
    (b.restate e).expected = (b.restate e').expected := by
  cases b with
  | rd => exact h
  | driven kind => exact congrArg (TerminalSet.erase .endOfInput) h

theorem exists_spacing_of_malformed (hengine : engine.Serves env asked) (hexplains : engine.Explains env asked)
    {s : Text} {e : SyntaxError} (h : readPath env asked s engine = .error (.malformed e)) :
    ∃ us ws u r, Spacing us ws u ∧ Viable (ws.map Prod.fst) ∧ s = spaced us ws ++ u ++ r ∧
      e.offset = (spaced us ws ++ u).length := by
  obtain ⟨b, -, e₀, he₀, rfl⟩ := readPath_eq_malformed hengine hexplains h
  obtain ⟨ts, place, hfrontier⟩ := exists_frontier s
  obtain ⟨-, hoffset, -⟩ := hfrontier.read_error he₀
  obtain ⟨as, hfollow⟩ := hfrontier.follows
  obtain ⟨p, rest, rfl, hp, rfl⟩ := Follows.stretch (b := []) hfollow
  obtain ⟨u, r, rfl, hu, hr⟩ := Cursor.exists_blanks rest
  obtain ⟨us, hs, rfl⟩ := hp.exists_spacing hu
  refine ⟨us, _, u, r, hs, ?_, (List.append_assoc ..).symm, ?_⟩
  · rw [Token.map_fst_content, hfollow.terminals]
    exact hfrontier.viable
  · rw [Backend.restate_eq, hoffset, List.nil_append, Cursor.front_behind hu hr]
    rfl

/-- What is spelled up to the frontier is what was followed, and it ends there. -/
theorem Frontier.spelled {ts : List Terminal} {place : Cursor} {as : List Token} {p : Text}
    (h : Frontier (p ++ u ++ r) ts place) (hp : Stretch [] as p) (hu : u ∈ blank∗) (hv : Viable (as.map Token.terminal))
    (hoffset : place.front.offset = (p ++ u).length) :
    as.map Token.terminal = ts ∧ Stretch.Ends as (u ++ r) ∧ Lexeme.blanks r = [] ∧ place = .behind p (u ++ r) := by
  obtain ⟨cs, hplace⟩ := h.follows
  obtain ⟨next, hchain⟩ := hv.isChain
  obtain ⟨bs, d, hfollow, hle⟩ := hp.overtaken hchain hu r
  obtain ⟨hmax, hsame⟩ := h.front_le hv hfollow
  rw [List.length_append] at hoffset
  rw [List.length_nil] at hle
  obtain rfl := hsame (by omega)
  obtain ⟨v, y, bs', hr, hfollow', hends⟩ := hp.exists_follows hchain.left_of_append (u ++ r)
  rw [← List.append_assoc] at hfollow'
  obtain ⟨-, rfl⟩ := hplace.unique hfollow'
  have hnil : v = [] := by
    by_cases hne : u = []
    · subst hne
      have hback := (Cursor.behind ([] ++ p ++ v) y).le_front
      rw [hoffset] at hback
      simp only [Cursor.behind, List.length_append, List.length_nil] at hback
      exact List.length_eq_zero_iff.mp (by omega)
    · exact hends.mpr (hp.ends_of_blank hchain hu hne r)
  subst hnil
  obtain rfl : u ++ r = y := hr
  refine ⟨rfl, hends.mp rfl, ?_, by simp⟩
  obtain ⟨x, r, rfl, hx, hblanks⟩ := Cursor.exists_blanks r
  have hfront := Cursor.length_le_front (b := [] ++ p ++ []) (star_append_mem_star hu hx) r
  rw [List.append_assoc u, hoffset] at hfront
  simp only [List.length_append, List.length_nil] at hfront
  obtain rfl : x = [] := List.length_eq_zero_iff.mp (by omega)
  exact hblanks

theorem Cursor.sameAhead_behind {p p' : Text} (hu : u ∈ blank∗) (hu' : u' ∈ blank∗) (hr : Lexeme.blanks r = [])
    (hgap : u ≠ [] → u' ≠ []) : (behind p (u ++ r)).SameAhead (behind p' (u' ++ r)) := by
  refine ⟨by rw [front_behind hu hr, front_behind hu' hr]; rfl, fun h => ?_⟩
  rw [front_behind hu' hr] at h
  have hnil : u' = [] := List.self_eq_append_left.mp (congrArg Cursor.rest h)
  obtain rfl : u = [] := not_imp_not.mp hgap hnil
  exact front_eq hr

/-- With other blanks the last word still ends, if there are any where there were. -/
theorem Stretch.Ends.respace {b p : Text} {as bs : List Token} (h : Ends as (u ++ r)) (hbs : Stretch b bs p)
    (hcontent : bs.map Token.content = as.map Token.content) (hv : Viable (bs.map Token.terminal)) (hu' : u' ∈ blank∗)
    (hgap : u ≠ [] → u' ≠ []) : Ends bs (u' ++ r) := by
  by_cases hnil : u' = []
  · obtain rfl : u = [] := not_imp_not.mp hgap hnil
    rw [hnil]
    exact h.of_content hcontent
  · obtain ⟨next, hchain⟩ := hv.isChain
    exact hbs.ends_of_blank hchain hu' hnil r

/-- The frontier moves with the words before it and the text behind it. -/
theorem Frontier.respace {ts : List Terminal} {place : Cursor} {as bs : List Token} {p p' : Text}
    (h : Frontier (p ++ u ++ r) ts place) (hp : Stretch [] as p) (hu : u ∈ blank∗) (hv : Viable (as.map Token.terminal))
    (hoffset : place.front.offset = (p ++ u).length) (hp' : Stretch [] bs p')
    (hcontent : bs.map Token.content = as.map Token.content) (hu' : u' ∈ blank∗) (hgap : u ≠ [] → u' ≠ []) :
    ∃ place', Frontier (p' ++ u' ++ r) ts place' ∧ place'.front.offset = (p' ++ u').length ∧
      place'.front.rest = place.front.rest := by
  obtain ⟨rfl, hends, hr, rfl⟩ := h.spelled hp hu hv hoffset
  have hterminal : bs.map Token.terminal = as.map Token.terminal := by
    rw [← Token.map_fst_content, hcontent, Token.map_fst_content]
  rw [← hterminal] at h hv
  obtain ⟨next, hchain⟩ := hv.isChain
  obtain ⟨cs, hfollow⟩ := hp'.follows_of_ends hchain.left_of_append (hends.respace hp' hcontent hv hu' hgap)
  rw [← List.append_assoc] at hfollow
  have hsame : (Cursor.behind p (u ++ r)).SameAhead (.behind ([] ++ p') (u' ++ r)) :=
    Cursor.sameAhead_behind hu hu' hr hgap
  refine ⟨_, hterminal ▸ h.transfer hfollow hsame, ?_, hsame.rest⟩
  rw [Cursor.front_behind hu' hr]
  rfl

theorem readPath_respaced (hengine : engine.Serves env asked) (hexplains : engine.Explains env asked) {e : SyntaxError}
    (h : readPath env asked (spaced us ws ++ u ++ r) engine = .error (.malformed e)) (hs : Spacing us ws u)
    (hv : Viable (ws.map Prod.fst)) (he : e.offset = (spaced us ws ++ u).length) (hs' : Spacing us' ws u')
    (hgap : u ≠ [] → u' ≠ []) :
    readPath env asked (spaced us' ws ++ u' ++ r) engine =
      .error (.malformed ⟨spaced us' ws ++ u' ++ r, (spaced us' ws ++ u').length, e.expected⟩) := by
  obtain ⟨b, hb, e₀, he₀, rfl⟩ := readPath_eq_malformed hengine hexplains h
  obtain ⟨ts, place, hfrontier⟩ := exists_frontier (spaced us ws ++ u ++ r)
  obtain ⟨-, hoffset, hexpected⟩ := hfrontier.read_error he₀
  rw [Backend.restate_eq, hoffset] at he
  obtain ⟨as, rfl, hp⟩ := hs.exists_stretch []
  obtain ⟨bs, hcontent, hp'⟩ := hs'.exists_stretch []
  rw [Token.map_fst_content] at hv
  obtain ⟨place', hfrontier', hoffset', hrest⟩ :=
    hfrontier.respace hp hs.last hv (Int.ofNat_inj.mp he) hp' hcontent hs'.last hgap
  cases hread : Rule.path.read (spaced us' (as.map Token.content) ++ u' ++ r) with
  | ok t =>
    have hok := hfrontier'.read_ok_iff.mp ⟨t, hread⟩
    rw [hrest] at hok
    obtain ⟨t, ht⟩ := hfrontier.read_ok_iff.mpr hok
    rw [ht] at he₀
    cases he₀
  | error e₁ =>
    obtain ⟨hsource, hat, hexpected'⟩ := hfrontier'.read_error hread
    have hsame : e₁.expected = e₀.expected := TerminalSet.ext fun t => (hexpected' t).trans (hexpected t).symm
    rw [readPath_of_error hb (Backend.read_path_eq_error (hengine b hb) (hexplains b hb) hread), Backend.restate_eq,
      hsource, hat, hoffset', b.expected_restate_congr hsame]

end Sources

/-- A path is cut into the words of its derivation, and an error's source into words that begin
    a path up to its offset. Other blanks between the words leave the path and its tree what
    they are, and the error what it expected in front of the same text. -/
theorem blanks_immaterial (env : Environment) (asked : Option Text) (engine : Engine)
    (hengine : engine.Serves env asked) (s : Text) :
    (∀ p, readPath env asked s engine = .ok p →
      (∃ t, ∃ d : Derivation (.rule .path), readTree env asked s engine = .ok t ∧ d.trees = [t] ∧
        ∃ us u, Spacing us (d.word.map Token.content) u ∧ s = spaced us (d.word.map Token.content) ++ u) ∧
      ∀ us ws u, Spacing us ws u → Derivable (ws.map Prod.fst) → s = spaced us ws ++ u →
        ∀ us' u', Spacing us' ws u' → readPath env asked (spaced us' ws ++ u') engine = .ok p ∧
          ∃ t t', readTree env asked s engine = .ok t ∧ readTree env asked (spaced us' ws ++ u') engine = .ok t' ∧
            t'.unplaced = t.unplaced) ∧
    (engine.Explains env asked → ∀ e, readPath env asked s engine = .error (.malformed e) →
      (∃ us ws u r, Spacing us ws u ∧ Viable (ws.map Prod.fst) ∧ s = spaced us ws ++ u ++ r ∧
        e.offset = (spaced us ws ++ u).length) ∧
      ∀ us ws u r, Spacing us ws u → Viable (ws.map Prod.fst) → s = spaced us ws ++ u ++ r →
        e.offset = (spaced us ws ++ u).length → ∀ us' u', Spacing us' ws u' → (u ≠ [] → u' ≠ []) →
          readPath env asked (spaced us' ws ++ u' ++ r) engine =
            .error (.malformed ⟨spaced us' ws ++ u' ++ r, (spaced us' ws ++ u').length, e.expected⟩)) := by
  refine ⟨fun p h => ⟨exists_spacing_of_path hengine h, ?_⟩, fun hexplains e h =>
    ⟨exists_spacing_of_malformed hengine hexplains h, ?_⟩⟩
  · rintro us ws u hs hd rfl us' u' hs'
    exact readPath_spaced hengine h hs hd hs'
  · rintro us ws u r hs hv rfl hoffset us' u' hs' hgap
    exact readPath_respaced hengine hexplains h hs hv hoffset hs' hgap

theorem blanks_immaterial_of_newlines :
    readPath ⟨none, none⟩ none "$ .a" = .ok [.root, .field (.bare "a")] ∧
    readPath ⟨none, none⟩ none ("\n$.\ta" ++ " ") = .ok [.root, .field (.bare "a")] ∧
    readPath ⟨none, none⟩ none "$[ x" =
      .error (.malformed ⟨"$[ x", 3, .ofList [Mark.star, Atom.quoted, Atom.unsigned]⟩) ∧
    readPath ⟨none, none⟩ none ("\t$ [" ++ "\r\n" ++ "x") =
      .error (.malformed ⟨"\t$ [\r\nx", 6, .ofList [Mark.star, Atom.quoted, Atom.unsigned]⟩) := by
  have hpath : readPath ⟨none, none⟩ none "$ .a" = .ok [.root, .field (.bare "a")] := by decide +kernel
  have herror : readPath ⟨none, none⟩ none "$[ x" =
      .error (.malformed ⟨"$[ x", 3, .ofList [Mark.star, Atom.quoted, Atom.unsigned]⟩) := by
    decide +kernel
  have hderivable : Derivable [.mark .dollar, .mark .dot, .atom .key] :=
    derivable_iff.mpr ⟨[[.mark .dollar]], by decide, [.mark .dot, .atom .key], by decide, rfl⟩
  have hbegins : Begins [.mark .leftBracket] (.mark .star) :=
    ⟨[.mark .leftBracket, .mark .star, .mark .rightBracket], by decide, by decide⟩
  have hviable : Viable [.mark .dollar, .mark .leftBracket] :=
    viable_iff.mpr ⟨[[.mark .dollar]], by decide, [.mark .leftBracket], .mark .star, hbegins, rfl⟩
  have hserves := Engine.ofRules_serves ⟨none, none⟩ none
  have hexplains := Engine.ofRules_explains ⟨none, none⟩ none
  obtain ⟨-, respace⟩ := (blanks_immaterial ⟨none, none⟩ none .ofRules hserves "$ .a").1 _ hpath
  obtain ⟨-, reject⟩ := (blanks_immaterial ⟨none, none⟩ none .ofRules hserves "$[ x").2 hexplains _ herror
  have hread := respace ["", " ", ""] [(.mark .dollar, "$"), (.mark .dot, "."), (.atom .key, "a")] ""
    (.of_scan rfl (by decide) rfl (by decide)) hderivable rfl ["\n", "", "\t"] " "
    (.of_scan rfl (by decide) rfl (by decide))
  have hreject := reject ["", ""] [(.mark .dollar, "$"), (.mark .leftBracket, "[")] " " "x"
    (.of_scan rfl (by decide) rfl (by decide)) hviable rfl rfl ["\t", " "] "\r\n"
    (.of_scan rfl (by decide) rfl (by decide)) nofun
  exact ⟨hpath, hread.1, herror, hreject⟩

end JsonPath
