/-
  JsonPath.Proofs.Progress — what is found moves on, so every loop of reading ends.

  Three loops have no bound of their own: passing blanks, passing what stands between
  quotes, and collecting the selectors of a chain. `Loop.within` runs a loop for so many
  rounds and no more. A round that goes on leaves less to read and changes nothing about
  what is to come of it, so there are at most as many rounds as code points, and one.

  A chain is collected on two stacks, of the runs that an `@` interrupted and of the places
  before those `@`s. Both grow together, and `Collected.collapse?` takes both down together
  to the chain that `Rule.chain` has.

  Proved: `Session.progress`.
-/

import JsonPath.Proofs.Found

namespace JsonPath

open scoped Computability
open Lexicon

/-! ## Loops -/

/-- At most `n` rounds of a loop, each of which goes on or comes to a result. -/
def Loop.within {σ ρ : Type} (round : σ → σ ⊕ ρ) : Nat → σ → Option ρ
  | 0, _ => none
  | n + 1, s =>
    match round s with
    | .inl s' => within round n s'
    | .inr r => some r

/-- A loop ends if each round that goes on lowers a measure, and with what no round changes. -/
theorem Loop.within_eq_some {σ ρ : Type} {round : σ → σ ⊕ ρ} (measure : σ → Nat) (result : σ → ρ)
    (hinl : ∀ s s', round s = .inl s' → measure s' < measure s ∧ result s' = result s)
    (hinr : ∀ s r, round s = .inr r → r = result s) {n : Nat} {s : σ} (hn : measure s < n) :
    within round n s = some (result s) := by
  induction n generalizing s with
  | zero => exact absurd hn (Nat.not_lt_zero _)
  | succ n ih =>
    cases hround : round s with
    | inl s' =>
      obtain ⟨hlt, hresult⟩ := hinl s s' hround
      simp only [within, hround]
      rw [ih (by omega), hresult]
    | inr r =>
      simp only [within, hround]
      rw [hinr s r hround]

namespace Cursor

theorem advance_add (c : Cursor) (m n : Nat) : c.advance (m + n) = (c.advance m).advance n := by
  fun_induction advance c m with
  | case1 c => rw [Nat.zero_add]
  | case2 offset location m =>
    rw [Nat.succ_add]
    cases n <;> rfl
  | case3 offset location x rest m ih =>
    rw [← ih, Nat.succ_add]
    rfl

theorem rest_advance_lt {c : Cursor} {n : Nat} (hn : 0 < n) (hc : c.rest ≠ []) :
    (c.advance n).rest.length < c.rest.length := by
  have hpos := List.length_pos_iff.mpr hc
  rw [rest_advance, List.length_drop]
  omega

/-! ### Blanks -/

/-- One round of passing blanks: the first of the blanks that stands at the place. -/
def blankRound (c : Cursor) : Cursor ⊕ Cursor :=
  match WrappedCursor.blankSpellings.find? (·.isPrefixOf c.rest) with
  | some w => .inl (c.advance w.length)
  | none => .inr c

end Cursor

theorem Lexicon.mem_blankSpellings {w : Text} : w ∈ WrappedCursor.blankSpellings ↔ w ∈ blank := by
  constructor
  · intro h
    simp only [WrappedCursor.blankSpellings, List.mem_cons, List.not_mem_nil, or_false] at h
    rcases h with rfl | rfl | rfl | rfl
    · exact .inl (.inr rfl)
    · exact .inr rfl
    · exact .inl (.inl (.inl rfl))
    · exact .inl (.inl (.inr rfl))
  · rintro (((rfl | rfl) | rfl) | rfl)
    all_goals decide

theorem Lexicon.blanks_of_not_blankAhead {s : Text} (h : ¬ BlankAhead s) : Lexeme.blanks s = [] := by
  cases hrun : Lexeme.blanks s with
  | nil => rfl
  | cons c run =>
    obtain ⟨r, hr⟩ := Lexeme.blanks_isPrefix s
    have hblank := blankAhead_of_mem (blanks_mem s) r (i := 0) (by rw [hrun]; exact Nat.zero_lt_succ _)
    rw [List.drop_zero, hr] at hblank
    exact absurd hblank h

namespace Cursor

theorem front_of_blank {c : Cursor} {w : Text} (hw : w ∈ blank) (h : w <+: c.rest) :
    (c.advance w.length).front = c.front := by
  obtain ⟨r, hr⟩ := h
  have hrun := blanks_append (append_mem_star hw (Language.nil_mem_kstar _)) r
  rw [List.append_nil] at hrun
  show (c.advance w.length).advance (Lexeme.blanks (c.advance w.length).rest).length =
    c.advance (Lexeme.blanks c.rest).length
  rw [rest_advance, ← hr, List.drop_left, hrun, List.length_append, advance_add]

theorem blankRound_inl {c d : Cursor} (h : c.blankRound = .inl d) :
    d.rest.length < c.rest.length ∧ d.front = c.front := by
  unfold blankRound at h
  split at h
  · rename_i w hw
    cases h
    have hblank := mem_blankSpellings.mp (List.mem_of_find?_eq_some hw)
    have hstarts := List.find?_some hw
    rw [List.isPrefixOf_iff_prefix] at hstarts
    have hne : w ≠ [] := by
      rintro rfl
      rcases hblank with ((h | h) | h) | h
      all_goals cases h
    refine ⟨rest_advance_lt (List.length_pos_iff.mpr hne) fun hc => ?_, front_of_blank hblank hstarts⟩
    rw [hc] at hstarts
    exact hne (List.prefix_nil.mp hstarts)
  · cases h

theorem blankRound_inr {c d : Cursor} (h : c.blankRound = .inr d) : d = c.front := by
  unfold blankRound at h
  split at h
  · cases h
  · rename_i hnone
    cases h
    refine (front_eq (blanks_of_not_blankAhead ?_)).symm
    rintro ⟨w, hw, hstarts⟩
    have hfalse := List.find?_eq_none.mp hnone w (mem_blankSpellings.mpr hw)
    exact hfalse (List.isPrefixOf_iff_prefix.mpr hstarts)

theorem blanks_end {c : Cursor} {n : Nat} (hn : c.rest.length < n) : Loop.within blankRound n c = some c.front :=
  Loop.within_eq_some (fun c => c.rest.length) front (fun _ _ => blankRound_inl) (fun _ _ => blankRound_inr) hn

end Cursor

/-! ### Quoted literals -/

/-- The escape or the other code point that stands for itself, where the text begins with one. -/
def Lexeme.quotedUnit? : Text → Option Text
  | [] => none
  | c :: rest =>
    if c = '\'' ∨ c = '"' then none
    else if c = '\\' then
      match rest with
      | [] => none
      | e :: more =>
        if e ∈ simpleEscapes then some [c, e]
        else if e = 'u' then
          match more with
          | h₁ :: h₂ :: h₃ :: h₄ :: _ =>
            if h₁.isHexDigit ∧ h₂.isHexDigit ∧ h₃.isHexDigit ∧ h₄.isHexDigit then
              some [c, e, h₁, h₂, h₃, h₄]
            else none
          | _ => none
        else none
    else some [c]

theorem Lexeme.quotedUnit?_isPrefix {s a : Text} (h : quotedUnit? s = some a) : a <+: s ∧ a ≠ [] := by
  revert h
  fun_cases quotedUnit? s
  all_goals
    intro h
    cases h
  all_goals simp

theorem Lexeme.quotedTail?_eq (s : Text) : quotedTail? s =
    if s.head? = some (.ofChar '\'') then some [.ofChar '\'']
    else (quotedUnit? s).bind fun a => (quotedTail? (s.drop a.length)).map (a ++ ·) := by
  fun_cases quotedTail? s
  case case7 h₁ h₂ h₃ h₄ more hdigits hquote hdouble hletter =>
    simp [quotedUnit?, hquote, hdouble, hletter, if_neg hdigits]
  all_goals simp_all [quotedUnit?]

namespace Cursor

/-- One round of passing what stands between quotes. -/
def quotedRound (c : Cursor) : Cursor ⊕ Option Cursor :=
  if c.rest.head? = some (.ofChar '\'') then .inr (some (c.advance 1))
  else
    match Lexeme.quotedUnit? c.rest with
    | some a => .inl (c.advance a.length)
    | none => .inr none

/-- The place behind the closing quote. -/
def behindQuote (c : Cursor) : Option Cursor := (Lexeme.quotedTail? c.rest).map fun w => c.advance w.length

theorem quotedRound_inl {c d : Cursor} (h : c.quotedRound = .inl d) :
    d.rest.length < c.rest.length ∧ d.behindQuote = c.behindQuote := by
  unfold quotedRound at h
  split at h
  · cases h
  · rename_i hquote
    split at h
    · rename_i a ha
      cases h
      obtain ⟨hstarts, hne⟩ := Lexeme.quotedUnit?_isPrefix ha
      refine ⟨rest_advance_lt (List.length_pos_iff.mpr hne) fun hc => ?_, ?_⟩
      · rw [hc] at hstarts
        exact hne (List.prefix_nil.mp hstarts)
      · unfold behindQuote
        rw [Lexeme.quotedTail?_eq c.rest, if_neg hquote, ha, Option.bind_some, Option.map_map, rest_advance]
        congr 1
        funext w
        rw [Function.comp_apply, List.length_append, advance_add]
    · cases h

theorem quotedRound_inr {c : Cursor} {r : Option Cursor} (h : c.quotedRound = .inr r) : r = c.behindQuote := by
  unfold quotedRound at h
  unfold behindQuote
  rw [Lexeme.quotedTail?_eq c.rest]
  split at h
  · rename_i hquote
    cases h
    rw [if_pos hquote]
    rfl
  · rename_i hquote
    split at h
    · cases h
    · rename_i hnone
      cases h
      rw [if_neg hquote, hnone]
      rfl

theorem quoted_end {c : Cursor} {n : Nat} (hn : c.rest.length < n) : Loop.within quotedRound n c = some c.behindQuote :=
  Loop.within_eq_some (fun c => c.rest.length) behindQuote (fun _ _ => quotedRound_inl) (fun _ _ => quotedRound_inr) hn

end Cursor

theorem Cursor.probe_quoted (c : Cursor) :
    (c.probe (.atom .quoted)).value.map (fun _ => (c.probe (.atom .quoted)).stop) =
      if c.rest.head? = some (.ofChar '\'') then (c.advance 1).behindQuote else none := by
  have hlexeme : (Terminal.atom .quoted).lexeme? c.rest =
      if c.rest.head? = some (.ofChar '\'') then (Lexeme.quotedTail? (c.rest.drop 1)).map (.ofChar '\'' :: ·)
      else none := by
    show Lexeme.quoted? c.rest = _
    cases c.rest with
    | nil => rfl
    | cons x rest =>
      simp only [Lexeme.quoted?, List.head?_cons, Option.some.injEq]
      by_cases hx : x = .ofChar '\''
      · rw [if_pos hx, if_pos hx, hx]
        rfl
      · rw [if_neg hx, if_neg hx]
  unfold probe behindQuote
  rw [hlexeme, rest_advance]
  by_cases hquote : c.rest.head? = some (.ofChar '\'')
  · rw [if_pos hquote, if_pos hquote]
    cases Lexeme.quotedTail? (c.rest.drop 1) with
    | none => rfl
    | some w =>
      simp only [Option.map_some, List.length_cons]
      rw [Nat.add_comm, advance_add]
  · rw [if_neg hquote, if_neg hquote]
    rfl

/-! ### Chains -/

/-- What has been collected of a chain: the innermost run, the runs that `@`s interrupted, the places before those
    `@`s, and the place that was reached. -/
structure Collected where
  run : List (Tree Token)
  outer : List (List (Tree Token))
  marks : List Cursor
  place : Cursor

namespace Collected

def start (c : Cursor) : Collected := ⟨[], [], [], c⟩

def push (k : Collected) : Link × Cursor → Collected
  | (.selector tree, stop) => { k with run := k.run ++ [tree], place := stop }
  | (.current, stop) => ⟨[], k.run :: k.outer, k.place :: k.marks, stop⟩

/-- One round of collecting: a selector, an `@`, or the end. -/
def round (k : Collected) : Collected ⊕ Collected :=
  match (Rule.selector k.place).value with
  | some tree => .inl (k.push (.selector tree, (Rule.selector k.place).stop))
  | none =>
    match (Rule.mark .at k.place).value with
    | some _ => .inl (k.push (.current, (Rule.mark .at k.place).stop))
    | none => .inr k

/-- All that is collected from the place on. -/
def all (k : Collected) : Collected := (Rule.linksOf Alternative.standard k.place).links.foldl push k

/-- Takes the runs off their stack and the places off theirs, until the outermost run is left: a run that is not empty
    is a selector of the one below, and before an empty one the chain goes back. Where one of the stacks is empty and
    the other is not, there is no result. -/
def unwind? (run : List (Tree Token)) :
    List (List (Tree Token)) → List Cursor → Cursor → Option (List (Tree Token) × Cursor)
  | [], [], place => some (run, place)
  | below :: outer, mark :: marks, place =>
    if run = [] then unwind? below outer marks mark
    else unwind? (below ++ [.node .current run]) outer marks place
  | _, _, _ => none

def collapse? (k : Collected) : Option (List (Tree Token) × Cursor) := unwind? k.run k.outer k.marks k.place

theorem round_inl {k k' : Collected} (h : k.round = .inl k') :
    k'.place.rest.length < k.place.rest.length ∧ k'.all = k.all := by
  unfold round at h
  cases hselector : Rule.selector k.place with
  | mk value stop ms =>
    rw [hselector] at h
    cases value with
    | some tree =>
      cases h
      refine ⟨?_, ?_⟩
      · have hvalue : (Rule.selector k.place).value ≠ none := by
          rw [hselector]
          exact nofun
        have hlt := Rule.advances_selectorOf Alternative.standard k.place hvalue
        rwa [← Rule.selector, hselector] at hlt
      · unfold all
        rw [Rule.linksOf_of_selector hselector, List.foldl_cons]
        rfl
    | none =>
      simp only at h
      cases hat : Rule.mark .at k.place with
      | mk value stop ns =>
        rw [hat] at h
        cases value with
        | some a =>
          cases h
          refine ⟨?_, ?_⟩
          · have hvalue : (Rule.mark .at k.place).value ≠ none := by
              rw [hat]
              exact nofun
            have hlt := Rule.advances_mark .at k.place hvalue
            rwa [hat] at hlt
          · unfold all
            rw [Rule.linksOf_of_current hselector hat, List.foldl_cons]
            rfl
        | none => cases h

theorem round_inr {k k' : Collected} (h : k.round = .inr k') : k' = k.all := by
  unfold round at h
  cases hselector : Rule.selector k.place with
  | mk value stop ms =>
    rw [hselector] at h
    cases value with
    | some tree => cases h
    | none =>
      cases hat : Rule.mark .at k.place with
      | mk value stop ns =>
        rw [hat] at h
        cases value with
        | some a => cases h
        | none =>
          cases h
          unfold all
          rw [Rule.linksOf_of_none hselector hat]
          rfl

theorem collect_end {k : Collected} {n : Nat} (hn : k.place.rest.length < n) : Loop.within round n k = some k.all :=
  Loop.within_eq_some (fun k => k.place.rest.length) all (fun _ _ => round_inl) (fun _ _ => round_inr) hn

theorem length_outer_push {k : Collected} (h : k.outer.length = k.marks.length) (l : Link × Cursor) :
    (k.push l).outer.length = (k.push l).marks.length := by
  obtain ⟨link, stop⟩ := l
  cases link with
  | selector tree => exact h
  | current => simp only [push, List.length_cons, h]

theorem length_outer_all {k : Collected} (h : k.outer.length = k.marks.length) :
    k.all.outer.length = k.all.marks.length := by
  unfold all
  generalize (Rule.linksOf Alternative.standard k.place).links = links
  induction links generalizing k with
  | nil => exact h
  | cons l links ih => exact ih (length_outer_push h l)

/-- Collapsing what was collected along links is folding the links. -/
theorem collapse?_foldl (links : List (Link × Cursor)) (k : Collected) :
    (links.foldl push k).collapse? =
      unwind? (k.run ++ (Rule.fold k.place links).1) k.outer k.marks (Rule.fold k.place links).2 := by
  induction links generalizing k with
  | nil => simp [collapse?, Rule.fold]
  | cons l links ih =>
    obtain ⟨link, stop⟩ := l
    rw [List.foldl_cons, ih]
    cases link with
    | selector tree => simp [push, Rule.fold]
    | current =>
      simp only [push, List.nil_append, unwind?, Rule.fold]
      cases hfold : Rule.fold stop links with
      | mk trees last =>
        -- nothing behind the mark was folded, or one nested selector was
        cases trees with
        | nil => simp
        | cons t trees => simp

theorem collapse?_all (c : Cursor) :
    ∃ trees stop, (start c).all.collapse? = some (trees, stop) ∧
      (Rule.chain c).value = (if trees = [] then none else some trees) ∧ (Rule.chain c).stop = stop := by
  have hchain := Rule.chainOf_eq Alternative.standard c
  simp only at hchain
  refine ⟨_, _, collapse?_foldl _ (start c), ?_, ?_⟩
  · exact congrArg Reply.value hchain
  · exact congrArg Reply.stop hchain

end Collected

namespace Session

theorem reply_blanks (source : Text) (pos : Nat) (furthest : Furthest) :
    (⟨source, pos, furthest⟩ : Session).perform (.call .blanks) =
      (.truth (Lexeme.blanks (source.drop pos) ≠ []),
        ⟨source, (Cursor.seek source pos).front.offset, furthest⟩) := by
  unfold perform
  rw [reply_call, ← Cursor.rest_seek]
  rfl

theorem perform_blanks {source : Text} {pos : Nat} (hpos : pos ≤ source.length) (furthest : Furthest) :
    ∃ stop : Nat, (⟨source, pos, furthest⟩ : Session).perform (.call .blanks) =
        (.truth (pos < stop), ⟨source, stop, furthest⟩) ∧
      pos ≤ stop ∧ stop ≤ source.length ∧ ¬ BlankAhead (source.drop stop) ∧
      ∀ i, pos ≤ i → i < stop → BlankAhead (source.drop i) := by
  obtain ⟨u, r, hur, hu, hr⟩ := Cursor.exists_blanks (source.drop pos)
  have hlength := congrArg List.length hur
  rw [List.length_drop, List.length_append] at hlength
  refine ⟨pos + u.length, ?_, by omega, by omega, ?_, fun i hle hlt => ?_⟩
  · have hrun : Lexeme.blanks (source.drop pos) = u := by rw [hur, blanks_append hu, hr, List.append_nil]
    have hstop : (Cursor.seek source pos).front.offset = pos + u.length := by
      rw [Cursor.seek_of_le hpos, hur, Cursor.front_behind hu hr]
      simp only [Cursor.behind, List.length_append, List.length_take_of_le hpos]
    have hmoved : decide (u ≠ []) = decide (pos < pos + u.length) := by
      rw [decide_eq_decide, ← List.length_pos_iff]
      omega
    rw [reply_blanks, hrun, hstop, hmoved]
  · rw [← List.drop_drop, hur, List.drop_left]
    exact not_blankAhead hr
  · obtain ⟨j, rfl⟩ := Nat.exists_eq_add_of_le hle
    rw [← List.drop_drop, hur]
    exact blankAhead_of_mem hu r (by omega)

/-- From an offset in the source, what finds something moves on and stays in the source; passing blanks stops at the
    first offset where no blank stands; and the three loops that have no bound of their own end after at most as many
    rounds as there are code points left, and one, with what reading has. A chain is left with as many places before
    `@`s as runs that they interrupted, and both are used up when it is put together. -/
theorem progress {source : Text} {pos : Nat} (hpos : pos ≤ source.length) (furthest : Furthest) :
    let s : Session := ⟨source, pos, furthest⟩
    let c := Cursor.seek source pos
    let rounds := source.length - pos + 1
    (∀ call, (s.perform (.call call)).1.isFound = true →
      pos < (s.perform (.call call)).2.offset ∧ (s.perform (.call call)).2.offset ≤ source.length) ∧
    (∃ stop : Nat, s.perform (.call .blanks) = (.truth (pos < stop), ⟨source, stop, furthest⟩) ∧
      pos ≤ stop ∧ stop ≤ source.length ∧ ¬ BlankAhead (source.drop stop) ∧
      ∀ i, pos ≤ i → i < stop → BlankAhead (source.drop i)) ∧
    Loop.within Cursor.blankRound rounds c = some c.front ∧
    (∃ behind, Loop.within Cursor.quotedRound rounds (c.advance 1) = some behind ∧
      (c.probe (.atom .quoted)).value.map (fun _ => (c.probe (.atom .quoted)).stop) =
        if c.rest.head? = some (.ofChar '\'') then behind else none) ∧
    ∃ k trees stop, Loop.within Collected.round rounds (.start c) = some k ∧ k.outer.length = k.marks.length ∧
      k.collapse? = some (trees, stop) ∧
      (Rule.chain c).value = (if trees = [] then none else some trees) ∧ (Rule.chain c).stop = stop := by
  intro s c rounds
  have hrest : c.rest.length < rounds := by
    simp only [c, rounds, Cursor.rest_seek, List.length_drop]
    omega
  refine ⟨fun call hfound => ?_, ?_, Cursor.blanks_end hrest, ⟨_, Cursor.quoted_end ?_, c.probe_quoted⟩, ?_⟩
  · obtain ⟨last, stop, hlast, hstop, hoffset⟩ := found_of_perform hfound
    obtain ⟨hlt, hle⟩ := hlast.offset_lt hpos hstop
    rw [hoffset]
    omega
  · exact perform_blanks hpos furthest
  · have hle := Cursor.length_rest_advance_le c 1
    omega
  · obtain ⟨trees, stop, hcollapse, hvalue, hstop⟩ := Collected.collapse?_all c
    exact ⟨_, trees, stop, Collected.collect_end hrest, Collected.length_outer_all rfl, hcollapse, hvalue, hstop⟩

theorem progress_of_dangling :
    let s : Session := ⟨"$@\r\n .a@ [", 1, .start⟩
    (s.perform (.call (.run .chain))).1.isFound = true ∧ 1 < (s.perform (.call (.run .chain))).2.offset ∧
      (s.perform (.call (.run .chain))).2.offset ≤ 10 ∧
      ∃ k trees stop, Loop.within Collected.round 10 (.start (Cursor.seek s.source 1)) = some k ∧
        k.outer.length = 2 ∧ k.marks.length = 2 ∧
        k.collapse? = some (trees, stop) ∧
        (Rule.chain (Cursor.seek s.source 1)).stop = stop := by
  intro s
  have hpos : 1 ≤ ("$@\r\n .a@ [" : Text).length := by decide
  obtain ⟨hfound, -, -, -, k, trees, stop, hround, hlength, hcollapse, -, hstop⟩ := progress hpos .start
  have hchain : (s.perform (.call (.run .chain))).1.isFound = true := by decide +kernel
  obtain ⟨hlt, hle⟩ := hfound _ hchain
  have hmarks : (Loop.within Collected.round 10 (.start (Cursor.seek s.source 1))).map (·.marks.length) = some 2 := by
    decide +kernel
  have hround' : Loop.within Collected.round 10 (.start (Cursor.seek s.source 1)) = some k := hround
  rw [hround'] at hmarks
  have htwo := Option.some.inj hmarks
  exact ⟨hchain, hlt, hle, k, trees, stop, hround', hlength.trans htwo, htwo, hcollapse, hstop⟩

end Session

end JsonPath
