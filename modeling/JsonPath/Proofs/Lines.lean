/-
  JsonPath.Proofs.Lines — a location says where in the lines of a source an offset lies.

  Lines are what a source splits into at its line feeds. `Location.Locates` says that a
  line and a column stand for an offset: the column is one of that line's, or the one
  behind its end, and the lines before, each with its line feed, take up what remains of
  the offset. No two locations do so for one offset, and they are ordered as the offsets.

  A reader moves its location along and an error looks back from its offset. Both come to
  the same location, since a token stands behind the text that was read.

  Proved: `located_uniquely`.
-/

import JsonPath.Proofs.Found
import Mathlib.Data.List.TakeWhile

namespace JsonPath

/-! ## Lines -/

/-- The lines of a source, without the line feeds that end them. -/
def Text.lines (source : Text) : List Text := source.splitOn (.ofChar '\n')

/-- The length of the first `n` lines, each with its line feed. -/
def Text.lengthOfLines : List Text → Nat → Nat
  | _, 0 => 0
  | [], _ + 1 => 0
  | line :: lines, n + 1 => line.length + 1 + lengthOfLines lines n

namespace Text

theorem lines_cons (x : CodePoint) (s : Text) :
    lines (x :: s) = if x = .ofChar '\n' then [] :: lines s else (lines s).modifyHead (x :: ·) := by
  simp only [lines, List.splitOn_cons_eq_if_modifyHead, beq_iff_eq]

@[simp] theorem lengthOfLines_zero (lines : List Text) : lengthOfLines lines 0 = 0 := by
  cases lines <;> rfl

theorem lengthOfLines_succ {lines : List Text} {n : Nat} {line : Text} (h : lines[n]? = some line) :
    lengthOfLines lines (n + 1) = lengthOfLines lines n + (line.length + 1) := by
  induction lines generalizing n with
  | nil => cases h
  | cons first lines ih =>
    cases n with
    | zero =>
      obtain rfl : first = line := Option.some.inj h
      simp [lengthOfLines]
    | succ n =>
      have hlength := ih (n := n) h
      rw [lengthOfLines, lengthOfLines]
      omega

theorem lengthOfLines_mono (lines : List Text) {m n : Nat} (h : m ≤ n) :
    lengthOfLines lines m ≤ lengthOfLines lines n := by
  induction lines generalizing m n with
  | nil => cases m <;> exact Nat.zero_le _
  | cons first lines ih =>
    cases m with
    | zero => simp
    | succ m =>
      obtain ⟨n, rfl⟩ := Nat.exists_eq_add_of_le' (Nat.lt_of_lt_of_le (Nat.succ_pos m) h)
      exact Nat.add_le_add_left (ih (Nat.le_of_succ_le_succ h)) _

end Text

namespace Location

/-- The location is one in the lines, and stands for the offset. -/
structure Locates (lines : List Text) (offset : Nat) (l : Location) : Prop where
  line_pos : 1 ≤ l.line
  column : ∃ line, lines[l.line - 1]? = some line ∧ 1 ≤ l.column ∧ l.column ≤ line.length + 1
  offset_eq : (offset : Int) = Text.lengthOfLines lines (l.line - 1) + l.column - 1

def precedes (l l' : Location) : Prop := l.line < l'.line ∨ l.line = l'.line ∧ l.column < l'.column

namespace Locates

variable {lines : List Text} {m n : Nat} {l l' : Location}

theorem line_le (h : Locates lines n l) : l.line ≤ lines.length := by
  obtain ⟨line, hline, -, -⟩ := h.column
  obtain ⟨hlt, -⟩ := List.getElem?_eq_some_iff.mp hline
  have hpos := h.line_pos
  omega

/-- What lies on an earlier line lies before. -/
theorem lt_of_line_lt (h : Locates lines m l) (h' : Locates lines n l') (hlt : l.line < l'.line) : m < n := by
  obtain ⟨line, hline, -, hle⟩ := h.column
  obtain ⟨-, -, hpos, -⟩ := h'.column
  have hlength := Text.lengthOfLines_succ hline
  have hline_pos := h.line_pos
  have hmono := Text.lengthOfLines_mono lines (show l.line - 1 + 1 ≤ l'.line - 1 by omega)
  have hm := h.offset_eq
  have hn := h'.offset_eq
  omega

theorem lt_iff (h : Locates lines m l) (h' : Locates lines n l') : m < n ↔ l.precedes l' := by
  have hm := h.offset_eq
  have hn := h'.offset_eq
  unfold precedes
  rcases Nat.lt_trichotomy l.line l'.line with hlt | heq | hlt
  · have := h.lt_of_line_lt h' hlt
    omega
  · rw [heq] at hm
    omega
  · have := h'.lt_of_line_lt h hlt
    omega

theorem unique (h : Locates lines m l) (h' : Locates lines n l) : m = n := by
  have hm := h.offset_eq
  have hn := h'.offset_eq
  omega

theorem first (hlines : lines ≠ []) : Locates lines 0 .first := by
  obtain ⟨line, lines, rfl⟩ := List.exists_cons_of_ne_nil hlines
  have hcolumn : (1 : Int) ≤ line.length + 1 := by omega
  exact ⟨Nat.le_refl 1, ⟨line, rfl, Int.le_refl 1, hcolumn⟩, by simp [Location.first]⟩

/-- A line feed in front is a line more. -/
theorem cons_lineFeed (h : Locates lines n l) : Locates ([] :: lines) (n + 1) ⟨l.line + 1, l.column⟩ := by
  obtain ⟨line, hline, hcolumn⟩ := h.column
  have hpos := h.line_pos
  have hoffset := h.offset_eq
  obtain ⟨k, hk⟩ := Nat.exists_eq_add_of_le' hpos
  refine ⟨by simp, ⟨line, ?_, hcolumn⟩, ?_⟩
  · rw [hk] at hline ⊢
    exact hline
  · rw [hk] at hoffset ⊢
    simp only [Nat.add_sub_cancel, Text.lengthOfLines, List.length_nil] at hoffset ⊢
    omega

/-- Any other code point in front moves what is on the first line by a column. -/
theorem cons_other (x : CodePoint) (h : Locates lines n l) : Locates (lines.modifyHead (x :: ·)) (n + 1)
    ⟨l.line, if l.line = 1 then l.column + 1 else l.column⟩ := by
  obtain ⟨line, hline, hpos, hle⟩ := h.column
  have hoffset := h.offset_eq
  obtain ⟨k, hk⟩ := Nat.exists_eq_add_of_le' h.line_pos
  rw [hk, Nat.add_sub_cancel] at hline hoffset
  cases lines with
  | nil => cases hline
  | cons first lines =>
    cases k with
    | zero =>
      obtain rfl : first = line := Option.some.inj hline
      refine ⟨h.line_pos, ⟨x :: first, ?_, ?_⟩, ?_⟩
      · simp [hk]
      · simp [hk]
        omega
      · simp [hk, Text.lengthOfLines] at hoffset ⊢
        omega
    | succ k =>
      refine ⟨h.line_pos, ⟨line, ?_, ?_⟩, ?_⟩
      · simp [hk] at hline ⊢
        exact hline
      · simp [hk]
        omega
      · simp [hk, Text.lengthOfLines] at hoffset ⊢
        omega

end Locates

/-! ## Looking back -/

theorem takeWhile_of_not_mem {b : Text} (h : .ofChar '\n' ∉ b) :
    b.reverse.takeWhile (fun c => c ≠ .ofChar '\n') = b.reverse := by
  rw [List.takeWhile_eq_self_iff]
  intro c hc
  rw [decide_eq_true_eq]
  rintro rfl
  exact h (List.mem_reverse.mp hc)

theorem lineStart_of_not_mem {b : Text} (h : .ofChar '\n' ∉ b) : lineStart b = 0 := by
  rw [lineStart, takeWhile_of_not_mem h, List.length_reverse, Nat.sub_self]

/-- The last line starts one further on, unless it is the first. -/
theorem lineStart_cons (x : CodePoint) (b : Text) :
    lineStart (x :: b) = if .ofChar '\n' ∈ x :: b then lineStart b + 1 else 0 := by
  by_cases hb : .ofChar '\n' ∈ b
  -- the run of the last line ends inside `b`, so what is put in front does not reach it
  · have hcut : (b.reverse.takeWhile fun c => c ≠ .ofChar '\n').length ≠ b.reverse.length := by
      intro heq
      have hself := (List.takeWhile_prefix _).eq_of_length heq
      have hfeed := List.takeWhile_eq_self_iff.mp hself _ (List.mem_reverse.mpr hb)
      simp at hfeed
    have hle := (List.takeWhile_prefix (fun c => c ≠ .ofChar '\n') (l := b.reverse)).length_le
    rw [List.length_reverse] at hle
    rw [if_pos (List.mem_cons_of_mem x hb), lineStart, List.reverse_cons, List.takeWhile_append, if_neg hcut, lineStart,
      List.length_cons]
    omega
  · by_cases hx : x = .ofChar '\n'
    · rw [if_pos (hx ▸ List.mem_cons_self ..), lineStart_of_not_mem hb, lineStart, List.reverse_cons,
        List.takeWhile_append, takeWhile_of_not_mem hb, if_pos rfl]
      simp [hx]
    · have hnot : .ofChar '\n' ∉ x :: b := by
        rw [List.mem_cons, not_or]
        exact ⟨Ne.symm hx, hb⟩
      rw [if_neg hnot, lineStart_of_not_mem hnot]

theorem ofOffset_cons (x : CodePoint) (s : Text) (n : Nat) :
    ofOffset (x :: s) (n + 1 : Nat) =
      let l := ofOffset s n
      if x = .ofChar '\n' then ⟨l.line + 1, l.column⟩
      else ⟨l.line, if l.line = 1 then l.column + 1 else l.column⟩ := by
  have hcolumn : ∀ k : Nat, ((n + 1 : Nat) : Int) - (k + 1 : Nat) = n - k := fun k => by omega
  simp only [ofOffset, countBefore_ofNat, List.take_succ_cons, List.count_cons, lineStart_cons, List.mem_cons,
    beq_iff_eq]
  by_cases hx : x = .ofChar '\n'
  · simp only [hx, true_or, if_true, hcolumn]
  · by_cases hmem : .ofChar '\n' ∈ s.take n
    · have hline : (s.take n).count (.ofChar '\n') + 1 ≠ 1 := by
        rw [Ne, Nat.add_eq_right, List.count_eq_zero]
        exact not_not_intro hmem
      simp only [hx, hmem, or_true, if_true, if_false, Nat.add_zero, hcolumn, hline]
    · simp [hx, hmem, Ne.symm hx, lineStart_of_not_mem hmem, List.count_eq_zero]

theorem ofOffset_zero (source : Text) : ofOffset source 0 = .first := by
  simp [ofOffset, countBefore, lineStart, first]

theorem locates (source : Text) {offset : Nat} (h : offset ≤ source.length) :
    Locates source.lines offset (ofOffset source offset) := by
  induction source generalizing offset with
  | nil =>
    obtain rfl : offset = 0 := Nat.le_zero.mp h
    exact .first (List.splitOn_ne_nil _ _)
  | cons x s ih =>
    cases offset with
    | zero =>
      show Locates _ 0 (ofOffset (x :: s) 0)
      rw [ofOffset_zero]
      exact .first (List.splitOn_ne_nil _ _)
    | succ n =>
      have hn : n ≤ s.length := Nat.le_of_succ_le_succ h
      rw [ofOffset_cons, Text.lines_cons]
      by_cases hx : x = .ofChar '\n'
      · rw [if_pos hx, if_pos hx]
        exact (ih hn).cons_lineFeed
      · rw [if_neg hx, if_neg hx]
        exact (ih hn).cons_other x

end Location

/-! ## Tokens and errors -/

namespace Location

/-- What is behind an offset does not change its location. -/
theorem ofOffset_append (b r : Text) : ofOffset (b ++ r) b.length = ofOffset b b.length := by
  simp only [ofOffset, countBefore_ofNat, List.take_left, List.take_length]

end Location

theorem Cursor.location_seek {source : Text} {offset : Nat} (h : offset ≤ source.length) :
    (seek source offset).location = .ofOffset source offset := by
  have hplace := Location.ofOffset_append (source.take offset) (source.drop offset)
  rw [List.take_append_drop, List.length_take_of_le h] at hplace
  rw [seek_of_le h, hplace, behind, List.length_take_of_le h]

theorem Found.location {source : Text} {pos : Nat} {o : Outcome} {last : Cursor}
    (h : Found (Cursor.seek source pos) o last) {a : Token} (ha : a ∈ o.leaves) :
    a.location = .ofOffset source a.start := by
  have hpos : pos ≤ source.length := by
    obtain ⟨ts, as, hts, hfollow, -⟩ := h
    exact hfollow.le_length hts
  obtain ⟨as, p, rest, -, hsource, hp, -, hleaves⟩ := h.exists_stretch hpos
  obtain ⟨before, after, htext, -, -, hplace⟩ := hp.exists_place (hleaves a ha)
  have hlocation := Location.ofOffset_append before (a.text ++ after ++ rest)
  rw [← List.append_assoc, ← List.append_assoc, ← htext, ← hsource] at hlocation
  rw [hplace]
  exact hlocation.symm

theorem Session.location_of_perform {source : Text} {pos : Nat} {furthest : Furthest} {call : Call} {a : Token}
    (ha : a ∈ ((⟨source, pos, furthest⟩ : Session).perform (.call call)).1.leaves) :
    a.location = .ofOffset source a.start := by
  have hfound : ((⟨source, pos, furthest⟩ : Session).perform (.call call)).1.isFound = true := by
    cases ho : ((⟨source, pos, furthest⟩ : Session).perform (.call call)).1 with
    | token | tree | trees => rfl
    | _ =>
      rw [ho] at ha
      cases ha
  obtain ⟨last, stop, hlast, -, -⟩ := found_of_perform hfound
  exact hlast.location ha

/-- The location of an offset is the same for an error as for a token, whichever call made it. It lies in the lines of
    the source, and the offset can be told from it: no other offset has it, and a later offset has a later one. -/
theorem located_uniquely {source : Text} {offset : Nat} (h : offset ≤ source.length) :
    let l := Location.ofOffset source offset
    (∀ expected, (SyntaxError.mk source offset expected).location = l) ∧
    (Cursor.seek source offset).location = l ∧
    (∀ (pos : Nat) (furthest : Furthest) (call : Call),
      ∀ a ∈ ((⟨source, pos, furthest⟩ : Session).perform (.call call)).1.leaves,
        a.start = offset → a.location = l) ∧
    (1 ≤ l.line ∧ l.line ≤ source.lines.length) ∧
    (∃ line, source.lines[l.line - 1]? = some line ∧ 1 ≤ l.column ∧ l.column ≤ line.length + 1) ∧
    (offset : Int) = Text.lengthOfLines source.lines (l.line - 1) + l.column - 1 ∧
    ∀ other ≤ source.length, (Location.ofOffset source other = l → other = offset) ∧
      (offset < other ↔ l.precedes (.ofOffset source other)) := by
  intro l
  have hlocates : Location.Locates source.lines offset l := Location.locates source h
  refine ⟨fun expected => rfl, Cursor.location_seek h, fun pos furthest call a ha hstart => ?_,
    ⟨hlocates.line_pos, hlocates.line_le⟩, hlocates.column, hlocates.offset_eq,
    fun other hother => ⟨fun heq => ?_, ?_⟩⟩
  · rw [Session.location_of_perform ha, hstart]
  · have hlocates' := Location.locates source hother
    rw [heq] at hlocates'
    exact hlocates'.unique hlocates
  · exact hlocates.lt_iff (Location.locates source hother)

theorem located_uniquely_of_line_feeds :
    Location.ofOffset "\n\n$" (2 : Nat) = ⟨3, 1⟩ ∧ (Cursor.seek "\n\n$" 2).location = ⟨3, 1⟩ ∧
      ("\n\n$" : Text).lines = [[], [], "$"] ∧ ((2 : Nat) : Int) = Text.lengthOfLines [[], [], "$"] 2 + 1 - 1 ∧
      ∀ other : Nat, other ≤ 3 → Location.ofOffset "\n\n$" other = ⟨3, 1⟩ → other = 2 := by
  have h : 2 ≤ ("\n\n$" : Text).length := by decide
  have hplace : Location.ofOffset "\n\n$" (2 : Nat) = ⟨3, 1⟩ := by decide
  have hlines : ("\n\n$" : Text).lines = [[], [], "$"] := by decide
  obtain ⟨-, hseek, -, -, -, hoffset, hother⟩ := located_uniquely h
  rw [hplace] at hseek hoffset
  rw [hlines] at hoffset
  exact ⟨hplace, hseek, hlines, hoffset, fun other hle heq => (hother other hle).1 (heq.trans hplace.symm)⟩

end JsonPath
