/-
  JsonPath.Proofs.Lexicon.Longest — reading takes the longest word of a terminal.

  `Longest l s` is what a scanner owes to a language `l` in front of a text `s`: the
  longest prefix of `s` that belongs to `l`, or nothing where no prefix does. Marks and
  quoted literals leave no choice, since none of their words begins another. Keys,
  unsigneds, numbers and signs do: `ab` has two prefixes that are keys.

  A number is read part by part, each as long as it gets. That the whole is then as long
  as it gets is `Longest.append`: where a part could have ended earlier, what stands
  there begins none of the parts behind it.

  Proved: `Atom.longest`, `Terminal.longest` for what is no end of input, and
  `Terminal.lexeme?_append`, which tells how much more than a given word is taken.
-/

import JsonPath.Proofs.Lexicon

namespace JsonPath

open scoped Computability
open Lexicon

/-- `found` is the longest prefix of `s` in the language, or `none` where there is no such prefix. -/
def Longest (l : Language CodePoint) (s : Text) : Option Text → Prop
  | some w => w ∈ l ∧ w <+: s ∧ ∀ v ∈ l, v <+: s → v.length ≤ w.length
  | none => ∀ v ∈ l, ¬ v <+: s

namespace Longest

variable {l m : Language CodePoint} {s w x : Text}

/-- A word that ends before the longest does, ends where a code point of the longest stands. -/
theorem eq_or_cons (h : Longest l s (some w)) {v : Text} (hv : v ∈ l) (hp : v <+: s) :
    v = w ∨ ∃ c r, w = v ++ c :: r := by
  obtain ⟨r, rfl⟩ := List.prefix_of_prefix_length_le hp h.2.1 (h.2.2 v hv hp)
  cases r with
  | nil => exact .inl (List.append_nil v).symm
  | cons c r => exact .inr ⟨c, r, rfl⟩

/-- Of two longest prefixes, and of the longest and none, there is only one. -/
theorem unique {found found' : Option Text} (h : Longest l s found) (h' : Longest l s found') : found = found' := by
  cases found with
  | none =>
    cases found' with
    | none => rfl
    | some w => exact absurd h'.2.1 (h w h'.1)
  | some w =>
    cases found' with
    | none => exact absurd h.2.1 (h' w h.1)
    | some w' =>
      have hlength := Nat.le_antisymm (h'.2.2 w h.1 h.2.1) (h.2.2 w' h'.1 h'.2.1)
      exact congrArg some ((List.prefix_of_prefix_length_le h.2.1 h'.2.1 hlength.le).eq_of_length hlength)

/-- No word of `m` begins where a word of `l` that is not the longest ends. -/
def Cuts (l m : Language CodePoint) (w : Text) : Prop :=
  ∀ v ∈ l, ∀ c r, w = v ++ c :: r → ∀ b ∈ m, b.head? ≠ some c

theorem length_le_of_cuts (h : Longest l s (some w)) (hc : Cuts l m w) {a b : Text} (ha : a ∈ l) (hb : b ∈ m)
    (hp : a ++ b <+: s) : a = w ∨ b = [] := by
  rcases h.eq_or_cons ha ((List.prefix_append a b).trans hp) with rfl | ⟨c, r, rfl⟩
  · exact .inl rfl
  · right
    obtain ⟨rest, rfl⟩ := h.2.1
    rw [List.append_assoc, List.prefix_append_right_inj] at hp
    cases b with
    | nil => rfl
    | cons d b =>
      obtain rfl := (List.cons_prefix_cons.mp hp).1
      exact absurd rfl (hc a ha d r rfl _ hb)

theorem append (h : Longest l s (some w)) (hc : Cuts l m w) (hx : Longest m (s.drop w.length) (some x)) :
    Longest (l * m) s (some (w ++ x)) := by
  refine ⟨Language.append_mem_mul h.1 hx.1, Lexeme.append_drop_isPrefix h.2.1 hx.2.1, fun v hv hp => ?_⟩
  obtain ⟨a, ha, b, hb, rfl⟩ := Language.mem_mul.mp hv
  rw [List.length_append, List.length_append]
  rcases h.length_le_of_cuts hc ha hb hp with rfl | rfl
  · obtain ⟨rest, rfl⟩ := hp
    have := hx.2.2 b hb (by simp)
    omega
  · have := h.2.2 a ha (by simpa using hp)
    simp only [List.length_nil]
    omega

theorem append_none (h : Longest l s (some w)) (hc : Cuts l m w) (hm : [] ∉ m)
    (hx : Longest m (s.drop w.length) none) : Longest (l * m) s none := by
  intro v hv hp
  obtain ⟨a, ha, b, hb, rfl⟩ := Language.mem_mul.mp hv
  rcases h.length_le_of_cuts hc ha hb hp with rfl | rfl
  · obtain ⟨rest, rfl⟩ := hp
    exact hx b hb (by simp)
  · exact hm hb

theorem none_append (h : Longest l s none) : Longest (l * m) s none := by
  intro v hv hp
  obtain ⟨a, ha, b, -, rfl⟩ := Language.mem_mul.mp hv
  exact h a ha ((List.prefix_append a b).trans hp)

theorem word_some {t : Text} (h : t <+: s) : Longest (word t) s (some t) :=
  ⟨rfl, h, fun _ hv _ => (congrArg List.length hv).le⟩

theorem word_none {t : Text} (h : ¬ t <+: s) : Longest (word t) s none := by
  rintro v rfl hp
  exact h hp

theorem optional_some (h : Longest l s (some w)) : Longest (optional l) s (some w) := by
  refine ⟨.inr h.1, h.2.1, ?_⟩
  rintro v (rfl | hv) hp
  · exact Nat.zero_le _
  · exact h.2.2 v hv hp

theorem optional_none (h : Longest l s none) : Longest (optional l) s (some []) := by
  refine ⟨.inl rfl, List.nil_prefix, ?_⟩
  rintro v (rfl | hv) hp
  · exact Nat.le_refl _
  · exact absurd hp (h v hv)

end Longest

/-! ## Runs of one class -/

namespace Lexicon

theorem longest_blanks (s : Text) : Longest blank∗ s (some (Lexeme.blanks s)) := by
  refine ⟨blanks_mem s, Lexeme.blanks_isPrefix s, fun v hv hp => ?_⟩
  obtain ⟨r, rfl⟩ := hp
  rw [blanks_append hv, List.length_append]
  omega

theorem prefix_takeWhile {p : CodePoint → Bool} {v s : Text} (hv : ∀ c ∈ v, p c = true) (hp : v <+: s) :
    v <+: s.takeWhile p := by
  obtain ⟨r, rfl⟩ := hp
  rw [List.takeWhile_append_of_pos hv]
  exact List.prefix_append ..

theorem of_mem_takeWhile {p : CodePoint → Bool} {s : Text} : ∀ c ∈ s.takeWhile p, p c = true :=
  List.all_eq_true.mp List.all_takeWhile

theorem longest_star (p : CodePoint → Bool) (s : Text) : Longest (one p)∗ s (some (s.takeWhile p)) :=
  ⟨mem_star_one.mpr of_mem_takeWhile, List.takeWhile_prefix p,
    fun _ hv hp => (prefix_takeWhile (mem_star_one.mp hv) hp).length_le⟩

theorem longest_run_some {p : CodePoint → Bool} {s : Text} (h : s.takeWhile p ≠ []) :
    Longest (oneOrMore (one p)) s (some (s.takeWhile p)) :=
  ⟨mem_oneOrMore_one.mpr ⟨h, of_mem_takeWhile⟩, List.takeWhile_prefix p,
    fun _ hv hp => (prefix_takeWhile (mem_oneOrMore_one.mp hv).2 hp).length_le⟩

theorem longest_run_none {p : CodePoint → Bool} {s : Text} (h : s.takeWhile p = []) :
    Longest (oneOrMore (one p)) s none := by
  intro v hv hp
  obtain ⟨hne, hall⟩ := mem_oneOrMore_one.mp hv
  have := prefix_takeWhile hall hp
  rw [h, List.prefix_nil] at this
  exact hne this

theorem longest_one_some {p : CodePoint → Bool} {c : CodePoint} (h : p c = true) (rest : Text) :
    Longest (one p) (c :: rest) (some [c]) := by
  refine ⟨⟨c, h, rfl⟩, by simp, ?_⟩
  intro v ⟨d, _, hv⟩ _
  rw [hv]
  exact Nat.le_refl _

theorem longest_one_none {p : CodePoint → Bool} {s : Text} (h : ∀ c rest, s = c :: rest → p c = false) :
    Longest (one p) s none := by
  intro v ⟨c, hc, hv⟩ ⟨rest, hr⟩
  rw [hv] at hr
  rw [h c rest hr.symm] at hc
  cases hc

theorem digits_eq (s : Text) : Lexeme.digits s = s.takeWhile isDecimal := by
  rw [Lexeme.digits, funext isDigit_eq]

/-- A run cut short is followed by one more of its class. -/
theorem cuts_run {p : CodePoint → Bool} {l m : Language CodePoint} {w : Text} (hw : ∀ c ∈ w, p c = true)
    (hm : ∀ c b, c :: b ∈ m → p c = false) : Longest.Cuts l m w := by
  intro v _ c r he b hb hh
  have hc : p c = true := hw c (by simp [he])
  obtain ⟨b, rfl⟩ := List.head?_eq_some_iff.mp hh
  rw [hm c b hb] at hc
  cases hc

/-! ## Keys and unsigneds -/

theorem longest_key (s : Text) : Longest (Atom.language .key) s (Lexeme.key? s) := by
  unfold Lexeme.key?
  rw [funext isKeyChar_eq]
  split
  · rename_i h
    exact longest_run_none h
  · rename_i c run h
    rw [← h]
    exact longest_run_some (by simp [h])

theorem longest_unsigned (s : Text) : Longest Lexicon.unsigned s (Lexeme.unsigned? s) := by
  cases s with
  | nil =>
    intro v hv hp
    obtain ⟨c, rest, rfl, -⟩ := starts_of_mem_unsigned hv
    simp at hp
  | cons c rest =>
    simp only [Lexeme.unsigned?]
    split
    · rename_i hc
      refine ⟨.inl (hc ▸ rfl), by simp, fun v hv hp => ?_⟩
      rcases hv with rfl | hv
      · exact Nat.le_refl _
      · obtain ⟨_, ⟨d, hd, rfl⟩, b, _, rfl⟩ := Language.mem_mul.mp hv
        obtain rfl := (List.cons_prefix_cons.mp hp).1
        exact absurd (hc ▸ hd) (by decide)
    · rename_i hc
      split
      · rename_i hd
        have hnz : inRanges [('1', '9')] c = true := by
          have hne : c.val ≠ '0'.toNat := fun h => hc (CodePoint.ext h)
          simp only [CodePoint.isDigit, inRanges, CodePoint.between, List.any_cons, List.any_nil, Bool.or_false,
            Bool.and_eq_true, decide_eq_true_eq] at hd ⊢
          exact ⟨Nat.lt_of_le_of_ne hd.1 hne.symm, hd.2⟩
        rw [digits_eq]
        refine ⟨.inr (Language.append_mem_mul (a := [c]) ⟨c, hnz, rfl⟩ (longest_star _ rest).1),
          List.cons_prefix_cons.mpr ⟨rfl, List.takeWhile_prefix _⟩, fun v hv hp => ?_⟩
        rcases hv with rfl | hv
        · exact absurd (List.cons_prefix_cons.mp hp).1.symm hc
        · obtain ⟨_, ⟨d, _, rfl⟩, b, hb, rfl⟩ := Language.mem_mul.mp hv
          have := (longest_star isDecimal rest).2.2 b hb (List.cons_prefix_cons.mp hp).2
          simp only [List.singleton_append, List.length_cons]
          omega
      · rename_i hd
        intro v hv hp
        obtain ⟨d, b, rfl, hb⟩ := starts_of_mem_unsigned hv
        obtain rfl := (List.cons_prefix_cons.mp hp).1
        rw [← isDigit_eq] at hb
        exact hd hb

/-- An unsigned cut short is followed by a digit. -/
theorem cuts_unsigned {m : Language CodePoint} {w : Text} (hw : w ∈ Lexicon.unsigned)
    (hm : ∀ c b, c :: b ∈ m → isDecimal c = false) : Longest.Cuts Lexicon.unsigned m w :=
  cuts_run (isDecimal_of_mem_unsigned hw) hm

/-! ## Quoted literals -/

theorem ne_of_isPlain {c : CodePoint} (h : isPlain c = true) {a : Char} (ha : a ∈ ['"', '\'', '\\']) : c ≠ .ofChar a := by
  intro hc
  rw [isPlain, inRanges_each.mpr ⟨a, ha, hc⟩] at h
  cases h

theorem isPlain_of_ne {c : CodePoint} (h : ∀ a ∈ ['"', '\'', '\\'], c ≠ .ofChar a) : isPlain c = true := by
  rw [isPlain, Bool.not_eq_true', Bool.eq_false_iff]
  intro hr
  obtain ⟨a, ha, hc⟩ := inRanges_each.mp hr
  exact h a ha hc

/-- The words of `quotedUnit`, told apart. -/
theorem mem_quotedUnit {w : Text} (h : w ∈ quotedUnit) :
    (∃ c, isPlain c = true ∧ w = [c]) ∨ (∃ e, isEscaped e = true ∧ w = "\\" ++ [e]) ∨
      ∃ h₁ h₂ h₃ h₄, (isHexadecimal h₁ = true ∧ isHexadecimal h₂ = true ∧ isHexadecimal h₃ = true ∧
        isHexadecimal h₄ = true) ∧ w = "\\u" ++ [h₁, h₂, h₃, h₄] := by
  rcases h with (h | h) | h
  · exact .inl h
  · obtain ⟨_, rfl, _, ⟨e, he, rfl⟩, rfl⟩ := Language.mem_mul.mp h
    exact .inr (.inl ⟨e, he, rfl⟩)
  · obtain ⟨_, rfl, _, hx₁, rfl⟩ := Language.mem_mul.mp h
    obtain ⟨_, ⟨h₁, p₁, rfl⟩, _, hx₂, rfl⟩ := Language.mem_mul.mp hx₁
    obtain ⟨_, ⟨h₂, p₂, rfl⟩, _, hx₃, rfl⟩ := Language.mem_mul.mp hx₂
    obtain ⟨_, ⟨h₃, p₃, rfl⟩, _, ⟨h₄, p₄, rfl⟩, rfl⟩ := Language.mem_mul.mp hx₃
    exact .inr (.inr ⟨h₁, h₂, h₃, h₄, ⟨p₁, p₂, p₃, p₄⟩, rfl⟩)

theorem plain_mem_quotedUnit {c : CodePoint} (h : isPlain c = true) : [c] ∈ quotedUnit := .inl (.inl ⟨c, h, rfl⟩)

theorem escape_mem_quotedUnit {e : CodePoint} (h : isEscaped e = true) : "\\" ++ [e] ∈ quotedUnit :=
  .inl (.inr (Language.append_mem_mul rfl ⟨e, h, rfl⟩))

theorem unicode_mem_quotedUnit {h₁ h₂ h₃ h₄ : CodePoint} (h : isHexadecimal h₁ = true ∧ isHexadecimal h₂ = true ∧
    isHexadecimal h₃ = true ∧ isHexadecimal h₄ = true) : "\\u" ++ [h₁, h₂, h₃, h₄] ∈ quotedUnit :=
  .inr <| Language.append_mem_mul rfl <| Language.append_mem_mul (a := [h₁]) ⟨h₁, h.1, rfl⟩ <|
    Language.append_mem_mul (a := [h₂]) ⟨h₂, h.2.1, rfl⟩ <|
      Language.append_mem_mul (a := [h₃]) ⟨h₃, h.2.2.1, rfl⟩ ⟨h₄, h.2.2.2, rfl⟩

theorem quotedTail?_mem {s w : Text} (h : Lexeme.quotedTail? s = some w) : w ∈ quotedUnit∗ * word "'" := by
  have step : ∀ {a v : Text}, a ∈ quotedUnit → v ∈ quotedUnit∗ * word "'" → a ++ v ∈ quotedUnit∗ * word "'" := by
    intro a v ha hv
    obtain ⟨b, hb, q, hq, rfl⟩ := Language.mem_mul.mp hv
    rw [← List.append_assoc]
    exact Language.append_mem_mul (append_mem_star ha hb) hq
  fun_induction Lexeme.quotedTail? s generalizing w with
  | case2 rest =>
    obtain rfl := Option.some.inj h
    exact Language.append_mem_mul (a := []) (Language.nil_mem_kstar _) rfl
  | case5 e more he _ _ ih =>
    obtain ⟨v, hv, rfl⟩ := Option.map_eq_some_iff.mp h
    exact step (escape_mem_quotedUnit (mem_simpleEscapes.mp he)) (ih hv)
  | case6 h₁ h₂ h₃ h₄ more hd _ _ _ ih =>
    obtain ⟨v, hv, rfl⟩ := Option.map_eq_some_iff.mp h
    simp only [isHexDigit_eq] at hd
    exact step (unicode_mem_quotedUnit hd) (ih hv)
  | case10 c rest h₁ h₂ h₃ ih =>
    obtain ⟨v, hv, rfl⟩ := Option.map_eq_some_iff.mp h
    have hp : isPlain c = true := isPlain_of_ne (by simp [h₁, h₂, h₃])
    exact step (a := [c]) (plain_mem_quotedUnit hp) (ih hv)
  | _ => cases h

theorem quotedTail?_unit {a : Text} (h : a ∈ quotedUnit) (s : Text) :
    Lexeme.quotedTail? (a ++ s) = (Lexeme.quotedTail? s).map (a ++ ·) := by
  rcases mem_quotedUnit h with ⟨c, hc, rfl⟩ | ⟨e, he, rfl⟩ | ⟨h₁, h₂, h₃, h₄, hd, rfl⟩
  · have hne := fun a ha => ne_of_isPlain hc (a := a) ha
    simp only [List.mem_cons, List.not_mem_nil, or_false, forall_eq_or_imp, forall_eq] at hne
    rw [List.singleton_append, Lexeme.quotedTail?.eq_def]
    simp [hne]
  · rw [← mem_simpleEscapes] at he
    show Lexeme.quotedTail? (.ofChar '\\' :: e :: s) = _
    rw [Lexeme.quotedTail?.eq_def]
    simp [he]
    rfl
  · simp only [← isHexDigit_eq] at hd
    show Lexeme.quotedTail? (.ofChar '\\' :: .ofChar 'u' :: h₁ :: h₂ :: h₃ :: h₄ :: s) = _
    rw [Lexeme.quotedTail?.eq_def]
    simp [hd]
    rfl

theorem quotedTail?_append {body : Text} (h : body ∈ quotedUnit∗) (rest : Text) :
    Lexeme.quotedTail? (body ++ ("'" ++ rest)) = some (body ++ "'") := by
  refine star_induction (p := fun b => Lexeme.quotedTail? (b ++ ("'" ++ rest)) = some (b ++ "'")) ?_ ?_ h
  · show Lexeme.quotedTail? (.ofChar '\'' :: rest) = _
    rw [Lexeme.quotedTail?.eq_def]
    exact if_pos rfl
  · intro a ha b hb
    rw [List.append_assoc, quotedTail?_unit ha, hb, Option.map_some, List.append_assoc]

theorem quoted?_of_isPrefix {v s : Text} (hv : v ∈ Atom.language .quoted) (hp : v <+: s) :
    Lexeme.quoted? s = some v := by
  obtain ⟨rest, hr⟩ := hp
  obtain ⟨_, rfl, _, hv', rfl⟩ := Language.mem_mul.mp hv
  obtain ⟨b, hb, _, rfl, rfl⟩ := Language.mem_mul.mp hv'
  rw [← hr, List.append_assoc, List.append_assoc]
  show (Lexeme.quotedTail? (b ++ ("'" ++ rest))).map _ = _
  rw [quotedTail?_append hb]
  rfl

theorem longest_quoted (s : Text) : Longest (Atom.language .quoted) s (Lexeme.quoted? s) := by
  cases h : Lexeme.quoted? s with
  | none =>
    intro v hv hp
    rw [quoted?_of_isPrefix hv hp] at h
    cases h
  | some w =>
    refine ⟨?_, (Lexeme.quoted?_isPrefix h).1, fun v hv hp => ?_⟩
    · cases s with
      | nil => cases h
      | cons c rest =>
        simp only [Lexeme.quoted?] at h
        split at h
        · rename_i hc
          obtain ⟨v, hv, rfl⟩ := Option.map_eq_some_iff.mp h
          exact Language.append_mem_mul (a := [c]) (hc ▸ rfl) (quotedTail?_mem hv)
        · cases h
    · rw [quoted?_of_isPrefix hv hp] at h
      exact (congrArg List.length (Option.some.inj h)).le

/-! ## Signs and numbers -/

theorem mem_sign {w : Text} (h : w ∈ Atom.language .sign) : ∃ g : ComparisonSign, w = g.spelling := by
  rcases h with (((((((((((h | h) | h) | h) | h) | h) | h) | h) | h) | h) | h) | h) | h
  exacts [⟨.equal, h⟩, ⟨.notEqual, h⟩, ⟨.regex, h⟩, ⟨.atLeast, h⟩, ⟨.greater, h⟩, ⟨.atMost, h⟩, ⟨.less, h⟩, ⟨.isIn, h⟩,
    ⟨.notIn, h⟩, ⟨.size, h⟩, ⟨.noneOf, h⟩, ⟨.anyOf, h⟩, ⟨.subsetOf, h⟩]

theorem spelling_mem_sign (g : ComparisonSign) : g.spelling ∈ Atom.language .sign := by
  cases g <;> simp only [Atom.language, Language.mem_add, mem_word_iff, ComparisonSign.spelling, true_or, or_true]

/-- No sign is listed before another whose spelling begins with its own. -/
theorem pairwise_signs :
    ComparisonSign.all.Pairwise fun g h => g.spelling.isPrefixOf h.spelling = false := by
  decide

theorem longest_sign (s : Text) : Longest (Atom.language .sign) s (Lexeme.sign? s) := by
  unfold Lexeme.sign?
  cases h : ComparisonSign.all.find? (·.spelling.isPrefixOf s) with
  | none =>
    intro v hv hp
    obtain ⟨g, rfl⟩ := mem_sign hv
    exact List.find?_eq_none.mp h g (ComparisonSign.mem_all g) (List.isPrefixOf_iff_prefix.mpr hp)
  | some g =>
    obtain ⟨hg, before, after, hall, hb⟩ := List.find?_eq_some_iff_append.mp h
    have hgp := List.isPrefixOf_iff_prefix.mp hg
    refine ⟨spelling_mem_sign g, hgp, fun v hv hp => ?_⟩
    obtain ⟨k, rfl⟩ := mem_sign hv
    have hk : k ∈ before ++ g :: after := hall ▸ ComparisonSign.mem_all k
    rcases List.mem_append.mp hk with hk | hk
    · have := hb k hk
      rw [List.isPrefixOf_iff_prefix.mpr hp] at this
      cases this
    · rcases List.mem_cons.mp hk with rfl | hk
      · exact Nat.le_refl _
      · have hpw := pairwise_signs
        rw [hall, List.pairwise_append, List.pairwise_cons] at hpw
        have hn := hpw.2.1.1 k hk
        by_contra hlt
        have hle : g.spelling.length ≤ k.spelling.length := Nat.le_of_not_le hlt
        have := List.prefix_of_prefix_length_le hgp hp hle
        rw [List.isPrefixOf_iff_prefix.mpr this] at hn
        cases hn

theorem cuts_word (t : Text) (m : Language CodePoint) : Longest.Cuts (word t) m t := by
  intro v hv c r he
  obtain rfl : v = t := hv
  simp at he

theorem cuts_one (p : CodePoint → Bool) (m : Language CodePoint) (c : CodePoint) : Longest.Cuts (one p) m [c] := by
  intro v ⟨d, _, hv⟩ e r he
  simp [hv] at he

/-- Nothing optional is followed by what could be it. -/
theorem cuts_optional_one {p : CodePoint → Bool} {m : Language CodePoint} {w : Text} (hw : w ∈ optional (one p))
    (hm : ∀ c b, c :: b ∈ m → p c = false) : Longest.Cuts (optional (one p)) m w := by
  refine cuts_run (p := p) ?_ hm
  rcases hw with rfl | ⟨c, hc, rfl⟩
  · simp
  · simpa using hc

theorem mem_map_ofChar {cs : List Char} {c : CodePoint} : c ∈ cs.map .ofChar ↔ inRanges (each cs) c = true := by
  rw [inRanges_each, List.mem_map]
  exact exists_congr fun a => and_congr_right fun _ => eq_comm

theorem oneOf_cons {cs : List Char} {c : CodePoint} (h : inRanges (each cs) c = true) (rest : Text) :
    Lexeme.oneOf (cs.map .ofChar) (c :: rest) = [c] := if_pos (mem_map_ofChar.mpr h)

theorem oneOf_cons_ne {cs : List Char} {c : CodePoint} (h : inRanges (each cs) c = false) (rest : Text) :
    Lexeme.oneOf (cs.map .ofChar) (c :: rest) = [] :=
  if_neg fun hm => Bool.eq_false_iff.mp h (mem_map_ofChar.mp hm)

theorem longest_oneOf (cs : List Char) (s : Text) :
    Longest (optional (one (inRanges (each cs)))) s (some (Lexeme.oneOf (cs.map .ofChar) s)) := by
  cases s with
  | nil => exact Longest.optional_none (longest_one_none nofun)
  | cons c rest =>
    cases hc : inRanges (each cs) c with
    | true =>
      rw [oneOf_cons hc]
      exact Longest.optional_some (longest_one_some hc rest)
    | false =>
      rw [oneOf_cons_ne hc]
      refine Longest.optional_none (longest_one_none fun d r he => ?_)
      rw [← (List.cons.inj he).1]
      exact hc

theorem isDecimal_of_mem_run {c : CodePoint} {b : Text} (h : c :: b ∈ oneOrMore (one isDecimal)) : isDecimal c = true :=
  (mem_oneOrMore_one.mp h).2 c (List.mem_cons_self ..)

theorem inRanges_each_of_isDecimal {cs : List Char} (hcs : cs.all (fun a => !isDecimal (.ofChar a)) = true)
    {c : CodePoint} (hc : isDecimal c = true) : inRanges (each cs) c = false := by
  rw [Bool.eq_false_iff]
  intro h
  rw [eq_false_of_each hcs h] at hc
  cases hc

theorem longest_fraction (s : Text) : Longest (optional Lexicon.fraction) s (some (Lexeme.fraction s)) := by
  have hnone (h : ¬ ("." : Text) <+: s) : Longest (optional Lexicon.fraction) s (some []) :=
    Longest.optional_none (Longest.none_append (Longest.word_none h))
  cases s with
  | nil => exact hnone (by decide)
  | cons c rest =>
    simp only [Lexeme.fraction, digits_eq]
    cases hc : inRanges (each ['.']) c with
    | true =>
      obtain ⟨_, ha, rfl⟩ := inRanges_each.mp hc
      obtain rfl := List.mem_singleton.mp ha
      have hone : Lexeme.oneOf "." (.ofChar '.' :: rest) = "." := oneOf_cons hc rest
      have hpoint := Longest.word_some (s := .ofChar '.' :: rest) (t := ".") ⟨rest, rfl⟩
      have hdrop : (.ofChar '.' :: rest : Text).drop (Text.ofString ".").length = rest := rfl
      simp only [hone, hdrop]
      split
      · rename_i hd
        exact Longest.optional_none (Longest.append_none hpoint (cuts_word _ _)
          (fun h => (mem_oneOrMore_one.mp h).1 rfl) (longest_run_none hd))
      · rename_i hd
        exact Longest.optional_some (Longest.append hpoint (cuts_word _ _) (longest_run_some hd))
    | false =>
      have hone : Lexeme.oneOf "." (c :: rest) = [] := oneOf_cons_ne hc rest
      have hp : ¬ ("." : Text) <+: c :: rest := by
        intro h
        rw [← (List.cons_prefix_cons.mp h).1] at hc
        revert hc
        decide
      simp only [hone, if_true]
      split
      · exact hnone hp
      · exact hnone hp

theorem longest_exponent (s : Text) : Longest (optional Lexicon.exponent) s (some (Lexeme.exponent s)) := by
  cases s with
  | nil => exact Longest.optional_none (Longest.none_append (longest_one_none nofun))
  | cons c rest =>
    simp only [Lexeme.exponent, digits_eq]
    cases hc : inRanges (each ['e', 'E']) c with
    | true =>
      have hmark : Lexeme.oneOf "eE" (c :: rest) = [c] := oneOf_cons hc rest
      have hsign := longest_oneOf ['+', '-'] rest
      have hcut : Longest.Cuts (optional (one (inRanges (each ['+', '-'])))) (oneOrMore (one isDecimal))
          (Lexeme.oneOf "+-" rest) :=
        cuts_optional_one hsign.1 fun d b h => inRanges_each_of_isDecimal (by decide) (isDecimal_of_mem_run h)
      have hne : [] ∉ optional (one (inRanges (each ['+', '-']))) * oneOrMore (one isDecimal) := by
        intro h
        obtain ⟨a, -, b, hb, he⟩ := Language.mem_mul.mp h
        exact (mem_oneOrMore_one.mp hb).1 (List.append_eq_nil_iff.mp he).2
      have hdrop : ∀ t : Text, (c :: rest).drop ([c] ++ t).length = rest.drop t.length := fun t => by simp
      simp only [hmark, List.length_singleton, List.drop_succ_cons, List.drop_zero, hdrop, List.append_assoc]
      split
      · rename_i hd
        exact Longest.optional_none (Longest.append_none (longest_one_some hc rest) (cuts_one _ _ _) hne
          (Longest.append_none hsign hcut (fun h => (mem_oneOrMore_one.mp h).1 rfl) (longest_run_none hd)))
      · rename_i hd
        exact Longest.optional_some (Longest.append (longest_one_some hc rest) (cuts_one _ _ _)
          (Longest.append hsign hcut (longest_run_some hd)))
    | false =>
      have hmark : Lexeme.oneOf "eE" (c :: rest) = [] := oneOf_cons_ne hc rest
      have hnone : Longest (optional Lexicon.exponent) (c :: rest) (some []) := by
        refine Longest.optional_none (Longest.none_append (longest_one_none fun d r he => ?_))
        rw [← (List.cons.inj he).1]
        exact hc
      simp only [hmark, if_true]
      split
      · exact hnone
      · exact hnone

theorem one_each_singleton (a : Char) : one (inRanges (each [a])) = word [.ofChar a] := by
  ext w
  simp [inRanges_each]

/-- What a fraction is made of. -/
def inFraction (c : CodePoint) : Bool := inRanges (each ['.']) c || isDecimal c

theorem inFraction_of_mem {w : Text} (h : w ∈ optional Lexicon.fraction) : ∀ c ∈ w, inFraction c = true := by
  rcases h with rfl | h
  · simp
  · obtain ⟨_, rfl, b, hb, rfl⟩ := Language.mem_mul.mp h
    intro c hc
    rcases List.mem_cons.mp hc with rfl | hc
    · decide
    · rw [inFraction, (mem_oneOrMore_one.mp hb).2 c hc, Bool.or_true]

theorem starts_of_mem_exponent {c : CodePoint} {b : Text} (h : c :: b ∈ optional Lexicon.exponent) :
    inRanges (each ['e', 'E']) c = true := by
  rcases h with h | h
  · cases h
  · obtain ⟨_, ⟨d, hd, rfl⟩, e, _, he⟩ := Language.mem_mul.mp h
    rw [← (List.cons.inj he).1]
    exact hd

theorem starts_of_mem_tail {c : CodePoint} {b : Text}
    (h : c :: b ∈ optional Lexicon.fraction * optional Lexicon.exponent) : inRanges (each ['.', 'e', 'E']) c = true := by
  obtain ⟨f, hf, e, he, heq⟩ := Language.mem_mul.mp h
  rcases hf with rfl | hf
  · obtain rfl : e = c :: b := heq
    obtain ⟨a, ha, hc⟩ := inRanges_each.mp (starts_of_mem_exponent he)
    exact inRanges_each.mpr ⟨a, List.mem_cons_of_mem _ ha, hc⟩
  · obtain ⟨_, rfl, d, _, rfl⟩ := Language.mem_mul.mp hf
    rw [← (List.cons.inj heq).1]
    decide

theorem longest_number (s : Text) : Longest (Atom.language .number) s (Lexeme.number? s) := by
  have hminus : Longest (optional (word "-")) s (some (Lexeme.oneOf "-" s)) := one_each_singleton '-' ▸ longest_oneOf ['-'] s
  have hstart : ∀ c b, c :: b ∈ Lexicon.unsigned * (optional Lexicon.fraction * optional Lexicon.exponent) →
      isDecimal c = true := by
    intro c b h
    obtain ⟨i, hi, r, _, he⟩ := Language.mem_mul.mp h
    obtain ⟨d, rest, rfl, hd⟩ := starts_of_mem_unsigned hi
    rw [← (List.cons.inj he).1]
    exact hd
  have hcut : Longest.Cuts (optional (word "-"))
      (Lexicon.unsigned * (optional Lexicon.fraction * optional Lexicon.exponent)) (Lexeme.oneOf "-" s) := by
    have hword : word "-" = one (inRanges (each ['-'])) := (one_each_singleton '-').symm
    rw [hword]
    exact cuts_optional_one (hword ▸ hminus.1) fun c b h => inRanges_each_of_isDecimal (by decide) (hstart c b h)
  simp only [Lexeme.number?]
  have hwhole := longest_unsigned (s.drop (Lexeme.oneOf "-" s).length)
  cases hu : Lexeme.unsigned? (s.drop (Lexeme.oneOf "-" s).length) with
  | none =>
    rw [hu] at hwhole
    refine Longest.append_none hminus hcut (fun h => ?_) (Longest.none_append hwhole)
    obtain ⟨i, hi, r, _, he⟩ := Language.mem_mul.mp h
    obtain ⟨d, rest, rfl, -⟩ := starts_of_mem_unsigned hi
    cases he
  | some whole =>
    rw [hu] at hwhole
    have hf := longest_fraction ((s.drop (Lexeme.oneOf "-" s).length).drop whole.length)
    have hcutf := cuts_run (l := optional Lexicon.fraction) (m := optional Lexicon.exponent) (inFraction_of_mem hf.1)
      fun c b h => eq_false_of_each (by decide) (starts_of_mem_exponent h)
    have hcutu := cuts_unsigned (m := optional Lexicon.fraction * optional Lexicon.exponent) hwhole.1
      fun c b h => eq_false_of_each (by decide) (starts_of_mem_tail h)
    have hnumber := Longest.append hminus hcut (Longest.append hwhole hcutu (Longest.append hf hcutf (longest_exponent _)))
    simp only [Option.map_some, List.drop_drop, List.length_append, List.append_assoc, Nat.add_assoc] at hnumber ⊢
    exact hnumber

/-- What a number is made of. -/
def inNumber : CodePoint → Bool := inRanges ([('0', '9')] ++ each ['-', '+', '.', 'e', 'E'])

theorem inNumber_of_isDecimal {c : CodePoint} (h : isDecimal c = true) : inNumber c = true := by
  rw [inNumber, inRanges, List.any_append]
  exact Bool.or_eq_true_iff.mpr (.inl h)

theorem inNumber_of_each {cs : List Char} (hcs : cs.all (fun a => inNumber (.ofChar a)) = true) {c : CodePoint}
    (h : inRanges (each cs) c = true) : inNumber c = true := by
  obtain ⟨a, ha, rfl⟩ := inRanges_each.mp h
  exact List.all_eq_true.mp hcs a ha

theorem inNumber_of_mem_exponent {w : Text} (h : w ∈ Lexicon.exponent) : ∀ c ∈ w, inNumber c = true := by
  obtain ⟨_, ⟨mark, hmark, rfl⟩, _, htail, rfl⟩ := Language.mem_mul.mp h
  obtain ⟨sign, hsign, digits, hdigits, rfl⟩ := Language.mem_mul.mp htail
  rw [List.singleton_append, List.forall_mem_cons, List.forall_mem_append]
  refine ⟨inNumber_of_each (by decide) hmark, ?_, fun c hc => ?_⟩
  · rcases hsign with rfl | ⟨c, hc, rfl⟩
    · nofun
    · exact List.forall_mem_singleton.mpr (inNumber_of_each (by decide) hc)
  · exact inNumber_of_isDecimal ((mem_oneOrMore_one.mp hdigits).2 c hc)

theorem inNumber_of_mem {w : Text} (h : w ∈ Atom.language .number) : ∀ c ∈ w, inNumber c = true := by
  obtain ⟨minus, hminus, _, hunsigned, rfl⟩ := Language.mem_mul.mp h
  obtain ⟨whole, hwhole, _, htail, rfl⟩ := Language.mem_mul.mp hunsigned
  obtain ⟨fraction, hfraction, exponent, hexponent, rfl⟩ := Language.mem_mul.mp htail
  simp only [List.forall_mem_append]
  refine ⟨?_, fun c hc => inNumber_of_isDecimal (isDecimal_of_mem_unsigned hwhole c hc), fun c hc => ?_, ?_⟩
  · rcases hminus with rfl | rfl
    · nofun
    · decide
  · rcases Bool.or_eq_true_iff.mp (inFraction_of_mem hfraction c hc) with hpoint | hdigit
    · exact inNumber_of_each (by decide) hpoint
    · exact inNumber_of_isDecimal hdigit
  · rcases hexponent with rfl | hexponent
    · nofun
    · exact inNumber_of_mem_exponent hexponent

end Lexicon

/-! ## Terminals -/

theorem Atom.longest (a : Atom) (s : Text) : Longest a.language s (a.lexeme? s) := by
  cases a with
  | key => exact longest_key s
  | unsigned => exact longest_unsigned s
  | quoted => exact longest_quoted s
  | sign => exact longest_sign s
  | number => exact longest_number s

theorem Terminal.longest {t : Terminal} (ht : t ≠ .endOfInput) (s : Text) : Longest t.language s (t.lexeme? s) := by
  cases t with
  | mark m =>
    simp only [lexeme?]
    split
    · rename_i h
      exact Longest.word_some (List.isPrefixOf_iff_prefix.mp h)
    · rename_i h
      exact Longest.word_none fun hp => h (List.isPrefixOf_iff_prefix.mpr hp)
  | atom a => exact a.longest s
  | endOfInput => exact absurd rfl ht

/-- The code points that may come behind a word in a longer word. It is not told of signs and numbers. -/
def Terminal.runsOn (t : Terminal) (c : CodePoint) : Bool :=
  match t with
  | .atom .key => isBare c
  | .atom .unsigned => isDecimal c
  | .atom .sign => true
  | .atom .number => true
  | _ => false

theorem Terminal.runsOn_of_mem {t : Terminal} {w v : Text} {c : CodePoint} (hw : w ∈ t.language)
    (hv : w ++ c :: v ∈ t.language) : t.runsOn c = true := by
  cases t with
  | mark m =>
    obtain rfl : w = m.lexeme := hw
    exact absurd (show m.lexeme ++ c :: v = m.lexeme from hv) (by simp)
  | atom a =>
    cases a with
    | key => exact (mem_oneOrMore_one.mp hv).2 c (by simp)
    | unsigned =>
      by_contra hc
      rw [Bool.not_eq_true] at hc
      refine cuts_unsigned (m := word [c]) hv ?_ w hw c v rfl [c] rfl rfl
      intro d b hd
      rwa [(List.cons.inj hd).1]
    | quoted =>
      have hshort := quoted?_of_isPrefix hw (List.prefix_append w (c :: v))
      rw [quoted?_of_isPrefix hv (List.prefix_refl _), Option.some.injEq] at hshort
      simp at hshort
    | sign => rfl
    | number => rfl
  | endOfInput => exact hw.elim

/-- Where a word stands, reading takes it with no more behind it than could belong to it. -/
theorem Terminal.lexeme?_append {t : Terminal} {w : Text} (hw : w ∈ t.language) (s : Text) :
    ∃ v, t.lexeme? (w ++ s) = some (w ++ v) ∧ v <+: s ∧ ∀ c ∈ v.head?, t.runsOn c = true := by
  have ht : t ≠ .endOfInput := by
    rintro rfl
    exact hw
  have hl := Terminal.longest ht (w ++ s)
  have hp := List.prefix_append w s
  cases h : t.lexeme? (w ++ s) with
  | none =>
    rw [h] at hl
    exact absurd hp (hl w hw)
  | some x =>
    rw [h] at hl
    obtain ⟨v, rfl⟩ := List.prefix_of_prefix_length_le hp hl.2.1 (hl.2.2 w hw hp)
    refine ⟨v, rfl, (List.prefix_append_right_inj w).mp hl.2.1, fun c hc => ?_⟩
    obtain ⟨r, rfl⟩ := List.head?_eq_some_iff.mp hc
    exact Terminal.runsOn_of_mem hw hl.1

end JsonPath
