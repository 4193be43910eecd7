/-
  JsonPath.Proofs.Spelling — what it is for a text to spell tokens, and to follow terminals in it.

  A text spells tokens if it is their words in order, with blanks before and after each.
  Nothing is said of how long the words are: between two blanks there may be several
  ways to cut a text into words. `Follows` is what reading does instead, one terminal
  after another, each with the longest word that it has where the last one ended.

  Proved:
  - `Follows.stretch`: what was followed is spelled.
  - `Stretch.follows`: what is spelled is followed, if no word could have been longer.
    `Splits` tells between which terminals that is so without a look at the text.
  - `Stretch.exists_follows`: at the end of what is spelled one word may have been cut
    short (`Stretch.Ends` says that it is not). Reading then gets further (`Stretch.overtaken`).
-/

import JsonPath.Place
import JsonPath.Proofs.Lexicon.Longest
import Mathlib.Data.List.Chain

namespace JsonPath

open scoped Computability
open Lexicon

/-! ## Spelled tokens -/

/-- The token that a word makes behind a text. -/
def Token.behind (before : Text) (t : Terminal) (w : Text) : Token :=
  ⟨t, w, before.length, before.length + w.length, .ofOffset before before.length⟩

@[simp] theorem Token.terminal_behind (before : Text) (t : Terminal) (w : Text) :
    (Token.behind before t w).terminal = t := rfl

/-- The text, behind `before`, is the words of the tokens with blanks before each. -/
inductive Stretch : Text → List Token → Text → Prop where
  | nil (before : Text) : Stretch before [] []
  | cons {before u w rest : Text} {t : Terminal} {ts : List Token} : u ∈ blank∗ → w ∈ t.language →
    Stretch (before ++ u ++ w) ts rest → Stretch before (.behind (before ++ u) t w :: ts) (u ++ w ++ rest)

/-- The whole text is the words of the tokens with blanks before and after each. -/
def Spelled (ts : List Token) (s : Text) : Prop := ∃ p u, Stretch [] ts p ∧ u ∈ blank∗ ∧ s = p ++ u

namespace Stretch

theorem append {before p q : Text} {ts us : List Token} (h : Stretch before ts p) (hq : Stretch (before ++ p) us q) :
    Stretch before (ts ++ us) (p ++ q) := by
  induction h with
  | nil => simpa using hq
  | cons hu hw _ ih =>
    rw [List.append_assoc _ _ q]
    exact .cons hu hw (ih (by simpa using hq))

theorem eq_nil {before p : Text} (h : Stretch before [] p) : p = [] := by
  cases h
  rfl

theorem split {before p : Text} {ts us : List Token} (h : Stretch before (ts ++ us) p) :
    ∃ q r, p = q ++ r ∧ Stretch before ts q ∧ Stretch (before ++ q) us r := by
  induction ts generalizing before p with
  | nil => exact ⟨[], p, rfl, .nil _, by simpa using h⟩
  | cons t ts ih =>
    rw [List.cons_append] at h
    cases h with
    | cons hu hw h =>
      obtain ⟨q, r, rfl, hq, hr⟩ := ih h
      exact ⟨_ ++ q, r, by simp, .cons hu hw hq, by simpa using hr⟩

end Stretch

/-! ## Places in a source -/

namespace Location

theorem ofOffset_length (b : Text) :
    ofOffset b b.length = ⟨b.count (.ofChar '\n') + 1, b.length - lineStart b + 1⟩ := by
  simp [ofOffset]

theorem ofOffset_concat (b : Text) (x : CodePoint) :
    ofOffset (b ++ [x]) (b ++ [x]).length = (ofOffset b b.length).after x := by
  rw [ofOffset_length, ofOffset_length, after, List.count_append, lineStart, List.reverse_append,
    List.reverse_singleton, List.singleton_append]
  by_cases hx : x = .ofChar '\n'
  · subst hx
    simp
  · rw [List.takeWhile_cons_of_pos (by simpa using hx), if_neg hx]
    simp [hx, lineStart]
    omega

end Location

namespace Cursor

/-- The place between two texts. -/
def behind (before rest : Text) : Cursor := ⟨before.length, .ofOffset before before.length, rest⟩

theorem advance_behind (b w r : Text) : (behind b (w ++ r)).advance w.length = behind (b ++ w) r := by
  induction w generalizing b with
  | nil => simp [advance]
  | cons x w ih =>
    have hstep : (behind b (x :: (w ++ r))).advance (w.length + 1) = (behind (b ++ [x]) (w ++ r)).advance w.length := by
      simp only [behind, advance, Location.ofOffset_concat]
      simp
    rw [List.cons_append, List.length_cons, hstep, ih, List.append_assoc]
    rfl

theorem seek_append (b r : Text) : seek (b ++ r) b.length = behind b r := by
  have hstart : start (b ++ r) = behind [] (b ++ r) := rfl
  have hadvance := advance_behind [] b r
  unfold seek
  rw [hstart, hadvance]
  rfl

theorem seek_of_le {source : Text} {pos : Nat} (h : pos ≤ source.length) :
    seek source pos = behind (source.take pos) (source.drop pos) := by
  have hseek := seek_append (source.take pos) (source.drop pos)
  rwa [List.take_append_drop, List.length_take_of_le h] at hseek

/-- The place behind any blanks. -/
def front (c : Cursor) : Cursor := c.blanks.stop

theorem le_front (c : Cursor) : c.offset ≤ c.front.offset := by
  simp [front, blanks, offset_advance]

theorem front_eq {c : Cursor} (h : Lexeme.blanks c.rest = []) : c.front = c := by
  show c.advance (Lexeme.blanks c.rest).length = c
  rw [h]
  cases c
  rfl

theorem front_behind {b u r : Text} (hu : u ∈ blank∗) (hr : Lexeme.blanks r = []) :
    (behind b (u ++ r)).front = behind (b ++ u) r := by
  have hrun : Lexeme.blanks (u ++ r) = u := by rw [blanks_append hu, hr, List.append_nil]
  show (behind b (u ++ r)).advance (Lexeme.blanks (u ++ r)).length = _
  rw [hrun, advance_behind]

theorem length_le_front {b u : Text} (hu : u ∈ blank∗) (r : Text) :
    b.length + u.length ≤ (behind b (u ++ r)).front.offset := by
  show _ ≤ ((behind b (u ++ r)).advance (Lexeme.blanks (u ++ r)).length).offset
  rw [offset_advance, blanks_append hu, List.length_append]
  simp only [behind, List.length_append]
  omega

/-- The terminal behind any blanks: its token and the place behind it, or what was missed. -/
def take (t : Terminal) (c : Cursor) : Except Miss (Token × Cursor) :=
  match t.lexeme? c.front.rest with
  | some w =>
    let stop := c.front.advance w.length
    .ok (⟨t, w, c.front.offset, stop.offset, c.front.location⟩, stop)
  | none => .error ⟨c.front.offset, t⟩

theorem exists_blanks (s : Text) : ∃ u r, s = u ++ r ∧ u ∈ blank∗ ∧ Lexeme.blanks r = [] := by
  obtain ⟨r, hs⟩ := Lexeme.blanks_isPrefix s
  refine ⟨_, r, hs.symm, blanks_mem s, ?_⟩
  have h := blanks_append (blanks_mem s) r
  rw [hs] at h
  exact List.self_eq_append_right.mp h

theorem blanks_word {t : Terminal} {w : Text} (hw : w ∈ t.language) (s : Text) : Lexeme.blanks (w ++ s) = [] := by
  obtain ⟨c, rest, rfl, hc⟩ := Terminal.starts_of_mem hw
  exact blanks_eq_nil (Terminal.not_startsBlank hc) _

theorem take_error {t : Terminal} {c : Cursor} {m : Miss} (h : c.take t = .error m) :
    m = ⟨c.front.offset, t⟩ ∧ t.lexeme? c.front.rest = none := by
  unfold take at h
  split at h
  · cases h
  · rename_i hn
    exact ⟨(Except.error.inj h).symm, hn⟩

theorem take_ok {t : Terminal} {c stop : Cursor} {a : Token} (h : c.take t = .ok (a, stop)) :
    ∃ w, t.lexeme? c.front.rest = some w ∧ stop = c.front.advance w.length ∧ a.terminal = t := by
  unfold take at h
  split at h
  · rename_i w hw
    cases h
    exact ⟨w, hw, rfl, rfl⟩
  · cases h

theorem take_of_nil {c stop : Cursor} {t : Terminal} {a : Token} (ht : t ≠ .endOfInput) (h : c.rest = []) :
    c.take t ≠ .ok (a, stop) := by
  intro htake
  obtain ⟨w, hw, -, -⟩ := take_ok htake
  have hrest : c.front.rest = [] := by
    show (c.advance _).rest = []
    rw [rest_advance, h, List.drop_nil]
  have hprefix := Terminal.lexeme?_isPrefix hw
  rw [hrest, List.prefix_nil] at hprefix
  exact Terminal.lexeme?_ne_nil ht hw hprefix

theorem take_mark {m : Mark} {c stop : Cursor} {a : Token} (h : c.take (.mark m) = .ok (a, stop)) :
    m.lexeme <+: c.front.rest ∧ stop = c.front.advance m.lexeme.length := by
  obtain ⟨w, hw, rfl, -⟩ := take_ok h
  have hl := Terminal.longest (t := .mark m) nofun c.front.rest
  rw [hw] at hl
  obtain rfl : w = m.lexeme := hl.1
  exact ⟨hl.2.1, rfl⟩

theorem front_lt_of_take {t : Terminal} (ht : t ≠ .endOfInput) {c stop : Cursor} {a : Token}
    (h : c.take t = .ok (a, stop)) : c.front.offset < stop.offset := by
  obtain ⟨w, hw, rfl, -⟩ := take_ok h
  have hle := (Terminal.lexeme?_isPrefix hw).length_le
  have hpos := List.length_pos_iff.mpr (Terminal.lexeme?_ne_nil ht hw)
  rw [offset_advance]
  omega

theorem take_behind {t : Terminal} {b u r w rest : Text} (hu : u ∈ blank∗) (hr : Lexeme.blanks r = [])
    (hw : t.lexeme? r = some w) (hrest : r = w ++ rest) :
    (behind b (u ++ r)).take t = .ok (.behind (b ++ u) t w, behind (b ++ u ++ w) rest) := by
  have hstop : (behind (b ++ u) r).advance w.length = behind (b ++ u ++ w) rest := by rw [hrest, advance_behind]
  have hlex : t.lexeme? (behind (b ++ u) r).rest = some w := hw
  simp only [take, front_behind hu hr, hlex, hstop]
  simp [behind, Token.behind, Int.add_assoc]

theorem take_behind_none {t : Terminal} {b u r : Text} (hu : u ∈ blank∗) (hr : Lexeme.blanks r = [])
    (hn : t.lexeme? r = none) : (behind b (u ++ r)).take t = .error ⟨(b ++ u).length, t⟩ := by
  have hlex : t.lexeme? (behind (b ++ u) r).rest = none := hn
  simp only [take, front_behind hu hr, hlex]
  rfl

/-- What was taken stands at the place, behind blanks. -/
theorem take_behind_ok {t : Terminal} (ht : t ≠ .endOfInput) {b s : Text} {a : Token} {stop : Cursor}
    (h : (behind b s).take t = .ok (a, stop)) :
    ∃ u w rest, u ∈ blank∗ ∧ w ∈ t.language ∧ s = u ++ w ++ rest ∧ a = .behind (b ++ u) t w ∧
      stop = behind (b ++ u ++ w) rest := by
  obtain ⟨u, r, rfl, hu, hr⟩ := exists_blanks s
  obtain ⟨w, hw, -, -⟩ := take_ok h
  rw [front_behind hu hr] at hw
  have hl := Terminal.longest ht r
  rw [show t.lexeme? r = some w from hw] at hl
  obtain ⟨rest, hrest⟩ := hl.2.1
  rw [take_behind hu hr hw hrest.symm] at h
  cases h
  exact ⟨u, w, rest, hu, hl.1, by rw [List.append_assoc, hrest], rfl, rfl⟩

/-- A word that stands at the place is taken, and no more behind it than could belong to it. -/
theorem take_append {t : Terminal} {u w : Text} (b : Text) (hu : u ∈ blank∗) (hw : w ∈ t.language) (s : Text) :
    ∃ v rest, s = v ++ rest ∧ (∀ c ∈ v.head?, t.runsOn c = true) ∧
      (behind b (u ++ w ++ s)).take t = .ok (.behind (b ++ u) t (w ++ v), behind (b ++ u ++ (w ++ v)) rest) := by
  obtain ⟨v, hv, ⟨rest, rfl⟩, hrun⟩ := Terminal.lexeme?_append hw s
  refine ⟨v, rest, rfl, hrun, ?_⟩
  rw [List.append_assoc]
  exact take_behind hu (blanks_word hw _) hv (by simp)

end Cursor

/-! ## Terminals one after another -/

/-- Taking the terminals in turn makes these tokens and ends at that place. -/
inductive Follows : Cursor → List Terminal → List Token → Cursor → Prop where
  | nil (c : Cursor) : Follows c [] [] c
  | cons {c d e : Cursor} {t : Terminal} {ts : List Terminal} {a : Token} {as : List Token} : t ≠ .endOfInput →
    c.take t = .ok (a, d) → Follows d ts as e → Follows c (t :: ts) (a :: as) e

/-- Taking the terminals in turn ends with that miss. -/
inductive Misses : Cursor → List Terminal → Miss → Prop where
  | here {c : Cursor} {t : Terminal} {ts : List Terminal} {m : Miss} : c.take t = .error m → Misses c (t :: ts) m
  | later {c d : Cursor} {t : Terminal} {ts : List Terminal} {a : Token} {m : Miss} : t ≠ .endOfInput →
    c.take t = .ok (a, d) → Misses d ts m → Misses c (t :: ts) m

namespace Follows

variable {c d e : Cursor} {ts us : List Terminal} {as bs : List Token}

theorem terminals (h : Follows c ts as d) : as.map Token.terminal = ts := by
  induction h with
  | nil => rfl
  | cons _ h _ ih =>
    obtain ⟨_, -, -, ha⟩ := Cursor.take_ok h
    rw [List.map_cons, ha, ih]

theorem append (h : Follows c ts as d) (h' : Follows d us bs e) : Follows c (ts ++ us) (as ++ bs) e := by
  induction h with
  | nil => exact h'
  | cons ht h _ ih => exact .cons ht h (ih h')

theorem split (h : Follows c (ts ++ us) as e) :
    ∃ as₁ as₂ d, as = as₁ ++ as₂ ∧ Follows c ts as₁ d ∧ Follows d us as₂ e := by
  induction ts generalizing c as with
  | nil => exact ⟨[], as, c, rfl, .nil c, h⟩
  | cons t ts ih =>
    rw [List.cons_append] at h
    cases h with
    | cons ht h h' =>
      obtain ⟨as₁, as₂, d, rfl, h₁, h₂⟩ := ih h'
      exact ⟨_ :: as₁, as₂, d, rfl, .cons ht h h₁, h₂⟩

theorem unique (h : Follows c ts as d) (h' : Follows c ts bs e) : as = bs ∧ d = e := by
  induction h generalizing bs with
  | nil =>
    cases h'
    exact ⟨rfl, rfl⟩
  | cons _ h _ ih =>
    cases h' with
    | cons _ hb h' =>
      rw [h] at hb
      cases hb
      obtain ⟨rfl, rfl⟩ := ih h'
      exact ⟨rfl, rfl⟩

theorem offset_le (h : Follows c ts as d) : c.offset ≤ d.offset := by
  induction h with
  | nil => exact Nat.le_refl _
  | @cons c _ _ _ _ _ _ ht h _ ih =>
    have hlt := Cursor.front_lt_of_take ht h
    have hle := c.le_front
    omega

theorem front_lt (h : Follows c ts as d) (hts : ts ≠ []) : c.front.offset < d.offset := by
  cases h with
  | nil => exact absurd rfl hts
  | cons ht h h' => exact Nat.lt_of_lt_of_le (Cursor.front_lt_of_take ht h) h'.offset_le

theorem stretch {b s : Text} (h : Follows (.behind b s) ts as d) :
    ∃ p rest, s = p ++ rest ∧ Stretch b as p ∧ d = .behind (b ++ p) rest := by
  generalize hc : Cursor.behind b s = c at h
  induction h generalizing b s with
  | nil => exact ⟨[], s, rfl, .nil b, by rw [← hc, List.append_nil]⟩
  | cons ht h _ ih =>
    subst hc
    obtain ⟨u, w, rest, hu, hw, rfl, rfl, rfl⟩ := Cursor.take_behind_ok ht h
    obtain ⟨p, rest, rfl, hp, rfl⟩ := ih rfl
    exact ⟨u ++ w ++ p, rest, by simp, .cons hu hw hp, by simp⟩

end Follows

namespace Misses

variable {c d : Cursor} {ts us : List Terminal} {as : List Token} {m n : Miss}

theorem append (h : Follows c ts as d) (h' : Misses d us m) : Misses c (ts ++ us) m := by
  induction h with
  | nil => exact h'
  | cons ht h _ ih => exact .later ht h (ih h')

theorem unique (h : Misses c ts m) (h' : Misses c ts n) : m = n := by
  induction h with
  | here h =>
    cases h' with
    | here hb => exact Except.error.inj (h.symm.trans hb)
    | later _ hb _ => cases h.symm.trans hb
  | later _ h _ ih =>
    cases h' with
    | here hb => cases h.symm.trans hb
    | later _ hb h' =>
      cases h.symm.trans hb
      exact ih h'

theorem not_follows (h : Misses c ts m) : ¬ Follows c ts as d := by
  intro h'
  induction h generalizing as with
  | here h =>
    cases h' with
    | cons _ hb _ => cases h.symm.trans hb
  | later _ h _ ih =>
    cases h' with
    | cons _ hb h' =>
      cases h.symm.trans hb
      exact ih h'

theorem front_le (h : Misses c ts m) : (c.front.offset : Int) ≤ m.offset := by
  induction h with
  | here h =>
    obtain ⟨rfl, -⟩ := Cursor.take_error h
    exact Int.le_refl _
  | @later c d _ _ _ _ ht h _ ih =>
    have hlt := Cursor.front_lt_of_take ht h
    have hle := d.le_front
    omega

theorem drop (h : Misses c (ts ++ us) m) (hf : Follows c ts as d) : Misses d us m := by
  induction hf with
  | nil => exact h
  | cons _ htake _ ih =>
    cases h with
    | here herr => cases htake.symm.trans herr
    | later _ hok h =>
      cases htake.symm.trans hok
      exact ih h

/-- A miss right behind the blanks is a miss of the first terminal. -/
theorem take_eq {t : Terminal} (h : Misses c (t :: ts) m) (hm : m.offset = c.front.offset) : c.take t = .error m := by
  cases h with
  | here h => exact h
  | @later _ d _ _ _ _ ht hok h =>
    have hlt := Cursor.front_lt_of_take ht hok
    have hle := d.le_front
    have hge := h.front_le
    omega

/-- What was followed up to the miss. -/
theorem exists_follows (h : Misses c ts m) :
    ∃ us t bs d, us ++ [t] <+: ts ∧ Follows c us bs d ∧ d.take t = .error m := by
  induction h with
  | @here c t ts m h => exact ⟨[], t, [], c, by simp, .nil c, h⟩
  | later ht h _ ih =>
    obtain ⟨us, t, bs, d, hp, hf, hm⟩ := ih
    exact ⟨_ :: us, t, _ :: bs, d, List.cons_prefix_cons.mpr ⟨rfl, hp⟩, .cons ht h hf, hm⟩

end Misses

/-! ## Where words end -/

/-- Whether a word of `t` must end where blanks or a word of `u` begin. -/
def splits (t u : Terminal) : Bool :=
  match t with
  | .atom .key => u ∈ [Terminal.mark .dollar, .mark .dotDot, .mark .dot, .mark .leftBracket, .mark .at]
  | .atom .unsigned => u = .mark .rightBracket
  | .atom .sign => false
  | .atom .number => false
  | _ => true

theorem runsOn_eq_false {t u : Terminal} (h : splits t u = true) {c : CodePoint}
    (hc : startsBlank c = true ∨ u.starts c = true) : t.runsOn c = false := by
  have hblank (h : startsBlank c = true) : isBare c = false ∧ isDecimal c = false :=
    ⟨eq_false_of_each (by decide) h, eq_false_of_each (by decide) h⟩
  have hmark {m : Mark} (h : (Terminal.mark m).starts c = true) : c = m.lexeme.head?.getD '?' := by
    rw [of_decide_eq_true h]
    rfl
  cases t with
  | mark m => rfl
  | endOfInput => rfl
  | atom a =>
    cases a with
    | key =>
      simp only [splits, List.mem_cons, List.not_mem_nil, or_false, decide_eq_true_eq] at h
      rcases hc with hc | hc
      · exact (hblank hc).1
      · rcases h with rfl | rfl | rfl | rfl | rfl
        all_goals rw [hmark hc]; decide
    | unsigned =>
      obtain rfl := of_decide_eq_true h
      rcases hc with hc | hc
      · exact (hblank hc).2
      · rw [hmark hc]
        decide
    | quoted => rfl
    | sign => cases h
    | number => cases h

theorem startsBlank_of_mem {c : CodePoint} {u : Text} (h : c :: u ∈ blank∗) : startsBlank c = true := by
  by_contra hc
  have hb := blanks_append h []
  rw [List.append_nil, blanks_eq_nil (by simpa using hc)] at hb
  simp at hb

/-- Where a word follows, the text goes on with a blank or with what the word begins with. -/
theorem starts_of_append {u w s r : Text} {t : Terminal} {c : CodePoint} (hu : u ∈ blank∗) (hw : w ∈ t.language)
    (h : u ++ w ++ s = c :: r) : startsBlank c = true ∨ t.starts c = true := by
  cases u with
  | nil =>
    obtain ⟨d, rest, rfl, hd⟩ := Terminal.starts_of_mem hw
    obtain rfl := (List.cons.inj h).1
    exact .inr hd
  | cons d u =>
    obtain rfl := (List.cons.inj h).1
    exact .inl (startsBlank_of_mem hu)

namespace Stretch

variable {b p : Text} {as : List Token}

theorem ne_endOfInput {t : Terminal} {w : Text} (hw : w ∈ t.language) : t ≠ .endOfInput := by
  rintro rfl
  exact hw

theorem text_mem (h : Stretch b as p) : ∀ a ∈ as, a.text ∈ a.terminal.language := by
  induction h with
  | nil => nofun
  | cons _ hw _ ih => exact List.forall_mem_cons.mpr ⟨hw, ih⟩

theorem starts_of_head (h : Stretch b as p) {next : Terminal} {r : Text}
    (hr : ∀ c ∈ r.head?, startsBlank c = true ∨ next.starts c = true) :
    ∃ u ∈ (as.map Token.terminal ++ [next]).head?, ∀ c ∈ (p ++ r).head?, startsBlank c = true ∨ u.starts c = true := by
  cases h with
  | nil => exact ⟨next, rfl, hr⟩
  | @cons b u w rest t ts hu hw _ =>
    refine ⟨t, rfl, fun c hc => ?_⟩
    obtain ⟨x, hx⟩ := List.head?_eq_some_iff.mp hc
    rw [List.append_assoc] at hx
    exact starts_of_append hu hw hx

/-- Where words split, taking them is taking their terminals. `next` is what may follow after blanks. -/
theorem follows (h : Stretch b as p) {next : Terminal}
    (hs : (as.map Token.terminal ++ [next]).IsChain (splits · · = true)) {r : Text}
    (hr : ∀ c ∈ r.head?, startsBlank c = true ∨ next.starts c = true) :
    Follows (.behind b (p ++ r)) (as.map Token.terminal) as (.behind (b ++ p) r) := by
  induction h with
  | nil => simpa using Follows.nil _
  | @cons b u w rest t ts hu hw h ih =>
    rw [List.map_cons, List.cons_append, List.isChain_cons, Token.terminal_behind] at hs
    obtain ⟨v, x, hx, hrun, htake⟩ := Cursor.take_append b hu hw (rest ++ r)
    have hv : v = [] := by
      obtain ⟨y, hy, hstarts⟩ := h.starts_of_head hr
      cases v with
      | nil => rfl
      | cons c v =>
        have hfalse := runsOn_eq_false (hs.1 y hy) (hstarts c (by rw [hx]; rfl))
        rw [hrun c rfl] at hfalse
        cases hfalse
    subst hv
    rw [← List.append_assoc, List.append_nil] at htake
    obtain rfl : rest ++ r = x := hx
    have htail := Follows.cons (ne_endOfInput hw) htake (ih hs.2)
    simpa using htail

/-- The last word is as long as it gets in front of `r`. -/
def Ends (as : List Token) (r : Text) : Prop := ∀ a ∈ as.getLast?, a.terminal.lexeme? (a.text ++ r) = some a.text

/-- Where words split, taking the terminals takes the words, and `v` more if the last one goes on with it. -/
theorem exists_follows (h : Stretch b as p) (hs : (as.map Token.terminal).IsChain (splits · · = true)) (r : Text) :
    ∃ v y bs, r = v ++ y ∧ Follows (.behind b (p ++ r)) (as.map Token.terminal) bs (.behind (b ++ p ++ v) y) ∧
      (v = [] ↔ Ends as r) := by
  rcases List.eq_nil_or_concat as with rfl | ⟨as, a, rfl⟩
  · obtain rfl := h.eq_nil
    exact ⟨[], r, [], rfl, by simpa using Follows.nil _, by simp [Ends]⟩
  · rw [List.concat_eq_append] at h hs ⊢
    obtain ⟨q, x, rfl, hq, hx⟩ := h.split
    cases hx with
    | @cons _ u w rest t ts hu hw hnil =>
      obtain rfl := hnil.eq_nil
      obtain ⟨v, hv, ⟨y, rfl⟩, -⟩ := Terminal.lexeme?_append hw r
      have htake : (Cursor.behind (b ++ q) (u ++ w ++ (v ++ y))).take t =
          .ok (.behind (b ++ q ++ u) t (w ++ v), .behind (b ++ q ++ u ++ (w ++ v)) y) := by
        rw [List.append_assoc u]
        exact Cursor.take_behind hu (Cursor.blanks_word hw _) hv (List.append_assoc w v y).symm
      have hq' := @Stretch.follows b q as hq t ?_ (u ++ w ++ (v ++ y)) ?_
      · have hall := hq'.append (.cons (ne_endOfInput hw) htake (.nil _))
        refine ⟨v, y, _, rfl, by simpa using hall, ?_⟩
        simp [Ends, Token.behind, hv]
      · rw [List.map_append] at hs
        exact hs
      · intro c hc
        obtain ⟨z, hz⟩ := List.head?_eq_some_iff.mp hc
        exact starts_of_append hu hw hz

/-- What is spelled is followed, if the last word is as long as it gets. -/
theorem follows_of_ends (h : Stretch b as p) (hs : (as.map Token.terminal).IsChain (splits · · = true)) {r : Text}
    (hr : Ends as r) : ∃ bs, Follows (.behind b (p ++ r)) (as.map Token.terminal) bs (.behind (b ++ p) r) := by
  obtain ⟨v, y, bs, rfl, hfollow, hv⟩ := h.exists_follows hs r
  obtain rfl := hv.mpr hr
  exact ⟨bs, by simpa using hfollow⟩

/-- Blanks end every word. -/
theorem ends_of_blank (h : Stretch b as p) {next : Terminal}
    (hs : (as.map Token.terminal ++ [next]).IsChain (splits · · = true)) {u : Text} (hu : u ∈ blank∗) (hne : u ≠ [])
    (r : Text) : Ends as (u ++ r) := by
  intro a ha
  obtain ⟨c, u, rfl⟩ := List.exists_cons_of_ne_nil hne
  obtain ⟨v, hv, ⟨y, hy⟩, hrun⟩ := Terminal.lexeme?_append (h.text_mem a (List.mem_of_getLast? ha)) (c :: u ++ r)
  cases v with
  | nil => simpa using hv
  | cons d v =>
    obtain rfl := (List.cons.inj hy).1
    have hlast : a.terminal ∈ (as.map Token.terminal).getLast? := by
      rw [List.getLast?_map, Option.mem_def.mp ha]
      rfl
    have hsplits : splits a.terminal next = true := (List.isChain_append.mp hs).2.2 _ hlast next rfl
    have hfalse := runsOn_eq_false hsplits (.inl (startsBlank_of_mem hu))
    rw [hrun d rfl] at hfalse
    cases hfalse

/-- Where the last word may go on, what takes the terminals gets at least as far. -/
theorem overtaken (h : Stretch b as p) {next : Terminal}
    (hs : (as.map Token.terminal ++ [next]).IsChain (splits · · = true)) {u : Text} (hu : u ∈ blank∗) (r : Text) :
    ∃ bs d, Follows (.behind b (p ++ u ++ r)) (as.map Token.terminal) bs d ∧
      b.length + p.length + u.length ≤ d.front.offset := by
  obtain ⟨v, y, bs, hr, hfollow, hv⟩ := h.exists_follows hs.left_of_append (u ++ r)
  rw [List.append_assoc]
  refine ⟨bs, _, hfollow, ?_⟩
  by_cases hne : u = []
  · subst hne
    refine Nat.le_trans ?_ (Cursor.le_front _)
    simp only [Cursor.behind, List.length_append, List.length_nil]
    omega
  · obtain rfl := hv.mpr (h.ends_of_blank hs hu hne r)
    obtain rfl : u ++ r = y := hr
    have hle := Cursor.length_le_front (b := b ++ p) hu r
    rw [List.length_append] at hle
    rwa [List.append_nil]

end Stretch

end JsonPath
