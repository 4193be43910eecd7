/-
  JsonPath.Proofs.Spans — what a tree keeps of its source, and what it leaves out.

  A source that is read is spelled by the word of its derivation, and the leaves are the
  tokens of that word that are kept. So each leaf stands where the word has it, whatever
  was tried and given up before; between the leaves there are blanks and marks. Of the
  marks `$`, `@` and `*` each makes one node, and as no blank and no other mark is written
  with those code points, counting them outside of the leaves counts the nodes.

  Proved: `tokens_lossless`.
-/

import JsonPath.Proofs.Recognition

namespace JsonPath

open scoped Computability
open Lexicon Grammar

/-! ## Leaves and labels -/

namespace Tree

variable {α : Type}

mutual

/-- The labels of the nodes, each in front of those below it. -/
def labels : Tree α → List Label
  | node label children => label :: labelsList children
  | leaf _ => []

def labelsList : List (Tree α) → List Label
  | [] => []
  | t :: ts => labels t ++ labelsList ts

end

theorem labelsList_append (ts us : List (Tree α)) : labelsList (ts ++ us) = labelsList ts ++ labelsList us := by
  induction ts with
  | nil => rfl
  | cons t ts ih => simp only [List.cons_append, labelsList, ih, List.append_assoc]

theorem leavesList_append (ts us : List (Tree α)) : leavesList (ts ++ us) = leavesList ts ++ leavesList us := by
  simp only [leavesList_eq_flatMap, List.flatMap_append]

end Tree

/-- The label of the nodes that a mark stands for. -/
def Mark.label? : Mark → Option Label
  | .dollar => some .root
  | .star => some .wildcard
  | .at => some .current
  | _ => none

theorem Mark.label?_cases {m : Mark} {l : Label} (h : m.label? = some l) :
    m = .dollar ∧ l = .root ∨ m = .star ∧ l = .wildcard ∨ m = .at ∧ l = .current := by
  cases m with
  | dollar => exact .inl ⟨rfl, (Option.some.inj h).symm⟩
  | star => exact .inr (.inl ⟨rfl, (Option.some.inj h).symm⟩)
  | «at» => exact .inr (.inr ⟨rfl, (Option.some.inj h).symm⟩)
  | _ => cases h

namespace Grammar.Derivation

theorem leaves_trees {p : Phrase} (d : Derivation p) :
    Tree.leavesList d.trees = d.word.filter fun a => isKept a.terminal := by
  induction d with
  | token a h =>
    simp only [trees, word, List.filter_cons, List.filter_nil]
    split
    · rfl
    · rfl
  | @rule n d ih =>
    rw [trees_rule, word]
    split
    · rw [Tree.leavesList, Tree.leaves, Tree.leavesList, List.append_nil, ih]
    · exact ih
  | both d e ihd ihe => rw [trees, word, Tree.leavesList_append, List.filter_append, ihd, ihe]
  | left d ih => exact ih
  | right d ih => exact ih
  | absent => rfl
  | present d ih => exact ih
  | last d ih => exact ih
  | more d ds ihd ihds => rw [trees, word, Tree.leavesList_append, List.filter_append, ihd, ihds]

theorem count_step (s : Step) {m : Mark} {l : Label} (h : m.label? = some l) :
    (Tree.labelsList s.trees).count l = s.word.countP fun a => a.terminal = .mark m := by
  rcases Mark.label?_cases h with ⟨rfl, rfl⟩ | ⟨rfl, rfl⟩ | ⟨rfl, rfl⟩
  all_goals
    induction s using step_cases
    all_goals
      simp [root, descent, bareKey, bracketKey, bracketWildcard, dotWildcard, bracketField, bareField, index, dot, word,
        Tree.labels, Tree.labelsList, trees_rule, trees_both, trees_token, trees_present, Nonterminal.label?, isKept, *]

theorem count_chain (d : Chain) {m : Mark} {l : Label} (h : m.label? = some l) :
    (Tree.labelsList d.trees).count l = d.word.countP fun a => a.terminal = .mark m := by
  induction d using chain_induction with
  | single s => rw [trees_single, word_single, count_step s h]
  | cons s d ih =>
    rw [trees_cons, word_cons, Tree.labelsList_append, List.count_append, List.countP_append, count_step s h, ih]
  | nest a ha d ih =>
    rw [trees_nest, word_nest, Tree.labelsList, Tree.labels, Tree.labelsList, List.append_nil, List.count_cons,
      List.countP_cons, ih, ha]
    congr 1
    rcases Mark.label?_cases h with ⟨rfl, rfl⟩ | ⟨rfl, rfl⟩ | ⟨rfl, rfl⟩
    all_goals rfl

end Grammar.Derivation

/-! ## Spans -/

/-- Whether the offset lies in the span of the token. -/
def Token.spans (a : Token) (i : Nat) : Bool := a.start ≤ i && i < a.stop

/-- The code points of a text, the first of which is at offset `n`, that lie in no span. -/
def outside (as : List Token) (n : Nat) (s : Text) : Text :=
  ((s.zipIdx n).filter fun x => !as.any fun a => a.spans x.2).map Prod.fst

theorem outside_append (as : List Token) (n : Nat) (s r : Text) :
    outside as n (s ++ r) = outside as n s ++ outside as (n + s.length) r := by
  simp only [outside, List.zipIdx_append, List.filter_append, List.map_append]

theorem outside_eq_filter {as : List Token} {n : Nat} {s : Text} (inside : Bool)
    (h : ∀ i, n ≤ i → i < n + s.length → as.any (fun a => a.spans i) = inside) :
    outside as n s = if inside then [] else s := by
  have hall : ∀ x ∈ s.zipIdx n, (!as.any fun a => a.spans x.2) = !inside := by
    intro x hx
    rw [h x.2 (List.le_snd_of_mem_zipIdx hx) (List.snd_lt_add_of_mem_zipIdx hx)]
  rw [outside, List.filter_congr hall]
  cases inside with
  | true => simp
  | false => simp

theorem outside_congr {as bs : List Token} {n : Nat} {s : Text}
    (h : ∀ i, n ≤ i → i < n + s.length → as.any (fun a => a.spans i) = bs.any (fun a => a.spans i)) :
    outside as n s = outside bs n s := by
  rw [outside, outside, List.filter_congr]
  intro x hx
  rw [h x.2 (List.le_snd_of_mem_zipIdx hx) (List.snd_lt_add_of_mem_zipIdx hx)]

/-- The tokens that a tree keeps. -/
def keptOf (as : List Token) : List Token := as.filter fun a => isKept a.terminal

namespace Stretch

variable {b p : Text} {as : List Token}

/-- Where a token stands in the text that it is spelled in. -/
theorem exists_place (h : Stretch b as p) {a : Token} (ha : a ∈ as) :
    ∃ before after, b ++ p = before ++ a.text ++ after ∧ b.length ≤ before.length ∧ a.text ≠ [] ∧
      a = .behind before a.terminal a.text := by
  obtain ⟨as₁, as₂, rfl⟩ := List.append_of_mem ha
  obtain ⟨q, r, rfl, -, hr⟩ := h.split
  cases hr with
  | @cons _ u w rest t _ _ hw _ =>
    obtain ⟨c, v, rfl, -⟩ := Terminal.starts_of_mem hw
    exact ⟨b ++ q ++ u, rest, by simp [Token.behind], by simp, List.cons_ne_nil c v, rfl⟩

theorem start_stop (h : Stretch b as p) {a : Token} (ha : a ∈ as) :
    (b.length : Int) ≤ a.start ∧ a.start < a.stop ∧ a.stop ≤ (b.length + p.length : Nat) := by
  obtain ⟨before, after, htext, hle, hne, hplace⟩ := h.exists_place ha
  have hlength := congrArg List.length htext
  have hpos := List.length_pos_iff.mpr hne
  simp only [List.length_append] at hlength
  rw [hplace]
  simp only [Token.behind]
  omega

theorem pairwise (h : Stretch b as p) : as.Pairwise fun a a' => a.start < a'.start ∧ a.stop ≤ a'.start := by
  induction h with
  | nil => exact List.Pairwise.nil
  | @cons b u w rest t ts hu hw h ih =>
    refine List.Pairwise.cons (fun a ha => ?_) ih
    have hstart := (h.start_stop ha).1
    obtain ⟨c, v, rfl, -⟩ := Terminal.starts_of_mem hw
    simp only [Token.behind, List.length_append, List.length_cons] at hstart ⊢
    omega

theorem spans_of_lt (h : Stretch b as p) {i : Nat} (hi : i < b.length) : as.any (fun a => a.spans i) = false := by
  rw [List.any_eq_false]
  intro a ha
  have hstart := (h.start_stop ha).1
  simp only [Token.spans, Bool.and_eq_true, decide_eq_true_eq]
  omega

theorem kept_spans_of_lt (h : Stretch b as p) {i : Nat} (hi : i < b.length) :
    (keptOf as).any (fun a => a.spans i) = false := by
  rw [List.any_eq_false]
  intro a ha
  exact List.any_eq_false.mp (h.spans_of_lt hi) a (List.mem_filter.mp ha).1

end Stretch

theorem Token.spans_behind {before w : Text} {t : Terminal} {i : Nat} :
    (Token.behind before t w).spans i = (decide (before.length ≤ i) && decide (i < before.length + w.length)) := by
  simp only [Token.spans, Token.behind, Int.ofNat_le, ← Int.natCast_add, Int.ofNat_lt]

/-! ## Between the tokens -/

namespace Stretch

variable {b p : Text} {as : List Token}

/-- What is left of a word, its blanks and the rest, if the spans of what is kept are taken out. -/
theorem outside_cons {u w rest : Text} {t : Terminal} (h : Stretch (b ++ u ++ w) as rest) :
    outside (keptOf (.behind (b ++ u) t w :: as)) b.length (u ++ w ++ rest) =
      u ++ (if isKept t then [] else w) ++ outside (keptOf as) (b ++ u ++ w).length rest := by
  have hlater : ∀ i, i < (b ++ u ++ w).length → (keptOf as).any (fun a => a.spans i) = false :=
    fun i hi => h.kept_spans_of_lt hi
  have hcons : ∀ i, (keptOf (.behind (b ++ u) t w :: as)).any (fun a => a.spans i) =
      ((isKept t && (decide ((b ++ u).length ≤ i) && decide (i < (b ++ u).length + w.length))) ||
        (keptOf as).any fun a => a.spans i) := by
    intro i
    rw [← Token.spans_behind (t := t), keptOf, List.filter_cons, Token.terminal_behind]
    cases isKept t with
    | true => rfl
    | false => rfl
  have hu : outside (keptOf (.behind (b ++ u) t w :: as)) b.length u = u := by
    refine outside_eq_filter false fun i _ hi => ?_
    rw [hcons, hlater i (by simp only [List.length_append]; omega),
      decide_eq_false (by simp only [List.length_append]; omega)]
    simp
  have hw : outside (keptOf (.behind (b ++ u) t w :: as)) (b.length + u.length) w = if isKept t then [] else w := by
    refine outside_eq_filter (isKept t) fun i hi hi' => ?_
    rw [hcons, hlater i (by simp only [List.length_append]; omega), decide_eq_true (by simpa using hi),
      decide_eq_true (by simpa using hi')]
    simp
  have hrest : outside (keptOf (.behind (b ++ u) t w :: as)) (b.length + (u ++ w).length) rest =
      outside (keptOf as) (b ++ u ++ w).length rest := by
    have hplace : b.length + (u ++ w).length = (b ++ u ++ w).length := by
      simp only [List.length_append]
      omega
    rw [hplace]
    refine outside_congr fun i hi _ => ?_
    rw [hcons, decide_eq_false (p := i < _) (by simp only [List.length_append] at hi ⊢; omega)]
    simp
  rw [outside_append, outside_append, hu, hw, hrest]

end Stretch

theorem count_blanks {m : Mark} {l : Label} (hm : m.label? = some l) {c : CodePoint} (hc : m.lexeme = [c]) {u : Text}
    (hu : u ∈ blank∗) : u.count c = 0 := by
  refine star_induction (p := fun u => u.count c = 0) rfl ?_ hu
  rintro w hw v hv
  rw [List.count_append, hv]
  rcases Mark.label?_cases hm with ⟨rfl, -⟩ | ⟨rfl, -⟩ | ⟨rfl, -⟩
  all_goals
    cases hc
    rcases hw with ((rfl | rfl) | rfl) | rfl
    all_goals rfl

theorem count_word {m : Mark} {l : Label} (hm : m.label? = some l) {c : CodePoint} (hc : m.lexeme = [c]) {t : Terminal}
    {w : Text} (hw : w ∈ t.language) :
    (if isKept t then [] else w).count c = if t = .mark m then 1 else 0 := by
  cases t with
  | mark n =>
    obtain rfl : w = n.lexeme := hw
    rcases Mark.label?_cases hm with ⟨rfl, -⟩ | ⟨rfl, -⟩ | ⟨rfl, -⟩
    all_goals
      cases hc
      cases n
      all_goals rfl
  | atom a => rfl
  | endOfInput => rfl

/-- The code points that marks are written with. -/
def markPoints : Text := "$.[]*@"

theorem mem_markPoints (m : Mark) : ∀ c ∈ m.lexeme, c ∈ markPoints := by
  cases m
  all_goals decide

namespace Stretch

variable {b p : Text} {as : List Token}

/-- Marks that make nodes stand outside of the spans, and their code points nowhere else there. -/
theorem count_outside (h : Stretch b as p) {m : Mark} {l : Label} (hm : m.label? = some l) {c : CodePoint}
    (hc : m.lexeme = [c]) : (outside (keptOf as) b.length p).count c = as.countP fun a => a.terminal = .mark m := by
  induction h with
  | nil => rfl
  | @cons b u w rest t ts hu hw h ih =>
    rw [h.outside_cons, List.count_append, List.count_append, ih, count_blanks hm hc hu, count_word hm hc hw,
      List.countP_cons, Token.terminal_behind, Nat.zero_add, Nat.add_comm]
    simp only [decide_eq_true_eq]

/-- Where no span is, there is a blank or a mark. -/
theorem gap (h : Stretch b as p) (r : Text) {i : Nat} (hi : i < p.length)
    (hout : ∀ a ∈ keptOf as, a.spans (b.length + i) = false) :
    BlankAhead ((p ++ r).drop i) ∨ ∃ c ∈ markPoints, (p ++ r)[i]? = some c := by
  induction h generalizing i with
  | nil => exact absurd hi (Nat.not_lt_zero i)
  | @cons b u w rest t ts hu hw h ih =>
    -- the offset is one of the blanks, or of the word behind them, or of what follows
    rw [List.length_append, List.length_append] at hi
    rcases Nat.lt_or_ge i u.length with hlt | hge
    · refine .inl ?_
      rw [List.append_assoc, List.append_assoc]
      exact blankAhead_of_mem hu _ hlt
    · obtain ⟨j, rfl⟩ := Nat.exists_eq_add_of_le hge
      rcases Nat.lt_or_ge j w.length with hlt | hge'
      · right
        cases t with
        | mark m =>
          obtain rfl : w = m.lexeme := hw
          refine ⟨_, mem_markPoints m _ (List.getElem_mem hlt), ?_⟩
          rw [List.append_assoc, List.append_assoc, List.getElem?_append_right (Nat.le_add_right ..),
            Nat.add_sub_cancel_left, List.getElem?_append_left hlt, List.getElem?_eq_getElem hlt]
        | atom x =>
          have hspans := hout (.behind (b ++ u) (.atom x) w) (List.mem_filter.mpr ⟨List.mem_cons_self .., rfl⟩)
          rw [Token.spans_behind, decide_eq_true (by simp only [List.length_append]; omega),
            decide_eq_true (by simp only [List.length_append]; omega)] at hspans
          cases hspans
        | endOfInput => exact hw.elim
      · obtain ⟨k, rfl⟩ := Nat.exists_eq_add_of_le hge'
        have hrest := ih (i := k) (by omega) fun a ha => by
          have hmem : a ∈ keptOf (.behind (b ++ u) t w :: ts) :=
            List.mem_filter.mpr ⟨List.mem_cons_of_mem _ (List.mem_filter.mp ha).1, (List.mem_filter.mp ha).2⟩
          have hspans := hout a hmem
          rwa [List.length_append, List.length_append, Nat.add_assoc, Nat.add_assoc]
        have hsplit : u ++ w ++ rest ++ r = (u ++ w) ++ (rest ++ r) := by simp
        have hindex : u.length + (w.length + k) = (u ++ w).length + k := by rw [List.length_append, Nat.add_assoc]
        rwa [hsplit, hindex, List.drop_length_add_append, List.getElem?_append_right (Nat.le_add_right ..),
          Nat.add_sub_cancel_left]

end Stretch

/-! ## Sources -/

/-- A tree has the tokens of its source and nothing else of it is lost but blanks and marks: the tokens stand in it in
    order and apart, each with its text, and what else there is are blanks and marks, of which those that make nodes are
    as many as the nodes that they make. -/
theorem tokens_lossless {s : Text} {t : Tree Token} (h : Rule.path.read s = .ok t) :
    (∀ a ∈ t.leaves,
        0 ≤ a.start ∧ a.start < a.stop ∧ a.stop ≤ s.length ∧ a.text = slice s a.start a.stop) ∧
      t.leaves.Pairwise (fun a b => a.start < b.start ∧ a.stop ≤ b.start) ∧
      (∀ i < s.length, (∀ a ∈ t.leaves, a.spans i = false) →
        BlankAhead (s.drop i) ∨ ∃ c ∈ markPoints, s[i]? = some c) ∧
      (outside t.leaves 0 s).count (.ofChar '$') = t.labels.count .root ∧
      (outside t.leaves 0 s).count (.ofChar '@') = t.labels.count .current ∧
      (outside t.leaves 0 s).count (.ofChar '*') = t.labels.count .wildcard := by
  obtain ⟨d, ⟨p, u, hp, hu, rfl⟩, rfl⟩ := read_path_eq_ok_iff.mp h
  have hleaves : (Tree.node .path d.trees).leaves = keptOf d.word := d.leaves_trees
  have hkept : ∀ a ∈ keptOf d.word, a ∈ d.word := fun a ha => (List.mem_filter.mp ha).1
  have hcount : ∀ (m : Mark) (l : Label) (c : CodePoint), m.label? = some l → m.lexeme = [c] →
      (outside (keptOf d.word) 0 (p ++ u)).count c = (Tree.node .path d.trees).labels.count l := by
    intro m l c hm hc
    have hbehind : outside (keptOf d.word) (0 + p.length) u = u := by
      refine outside_eq_filter false fun i hi _ => List.any_eq_false.mpr fun a ha => ?_
      have hstop := (hp.start_stop (hkept a ha)).2.2
      simp only [List.length_nil, Token.spans, Bool.and_eq_true, decide_eq_true_eq] at hstop ⊢
      omega
    have hpath : l ≠ .path := by
      rcases Mark.label?_cases hm with ⟨-, rfl⟩ | ⟨-, rfl⟩ | ⟨-, rfl⟩
      all_goals decide
    have hword : (outside (keptOf d.word) 0 p).count c = (Tree.labelsList d.trees).count l :=
      (hp.count_outside hm hc).trans (d.count_chain hm).symm
    rw [outside_append, hbehind, List.count_append, count_blanks hm hc hu, Nat.add_zero, hword, Tree.labels,
      List.count_cons_of_ne hpath.symm]
  rw [hleaves]
  refine ⟨fun a ha => ?_, ?_, fun i hi hout => ?_, hcount .dollar _ _ rfl rfl, hcount .at _ _ rfl rfl,
    hcount .star _ _ rfl rfl⟩
  · obtain ⟨hstart, hlt, hstop⟩ := hp.start_stop (hkept a ha)
    refine ⟨hstart, hlt, ?_, ?_⟩
    · simp only [List.length_nil, List.length_append] at hstop ⊢
      omega
    · obtain ⟨before, after, htext, -, -, hplace⟩ := hp.exists_place (hkept a ha)
      rw [List.nil_append] at htext
      have hslice : slice (p ++ u) a.start a.stop =
          slice (p ++ u) before.length (before.length + a.text.length : Nat) := by
        rw [hplace]
        rfl
      rw [hslice, slice_ofNat, htext, Nat.add_sub_cancel_left, List.append_assoc, List.append_assoc, List.drop_left,
        List.take_left]
  · exact hp.pairwise.filter _
  · rw [List.length_append] at hi
    rcases Nat.lt_or_ge i p.length with hlt | hge
    · refine hp.gap u hlt fun a ha => ?_
      rw [List.length_nil, Nat.zero_add]
      exact hout a ha
    · obtain ⟨j, rfl⟩ := Nat.exists_eq_add_of_le hge
      refine .inl ?_
      have hblank := blankAhead_of_mem hu [] (i := j) (by omega)
      rwa [List.append_nil, ← List.drop_length_add_append j] at hblank

theorem tokens_lossless_of_nested : ∃ t, Rule.path.read "$ @\r\n. a[ * ]['b']" = .ok t ∧
    outside t.leaves 0 "$ @\r\n. a[ * ]['b']" = "$ @\r\n. [ * ][]" ∧
    t.leaves.map (fun a => (a.start, a.stop)) = [(7, 8), (14, 17)] ∧
    t.labels.count .root = 1 ∧ t.labels.count .current = 1 ∧ t.labels.count .wildcard = 1 := by
  have hread : Rule.path.read "$ @\r\n. a[ * ]['b']" = .ok (.node .path [.node .root [],
      .node .current [.node .field [.node .bareKey [.leaf ⟨.atom .key, "a", 7, 8, ⟨2, 3⟩⟩]], .node .wildcard [],
        .node .field [.node .quotedKey [.leaf ⟨.atom .quoted, "'b'", 14, 17, ⟨2, 10⟩⟩]]]]) := by
    decide +kernel
  obtain ⟨-, -, -, hroot, hcurrent, hwildcard⟩ := tokens_lossless hread
  exact ⟨_, hread, by decide +kernel, by decide +kernel, hroot.symm, hcurrent.symm, hwildcard.symm⟩

end JsonPath
