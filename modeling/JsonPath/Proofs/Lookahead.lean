/-
  JsonPath.Proofs.Lookahead — one terminal ahead tells the forms of selectors apart.

  Two forms that a text can be followed along for a while have the same terminals so
  far, with one exception: a text that goes on with two dots can be followed along `..`
  and along `.`, though along `.` no further. Both start at the same place and one is a
  longer word, so what is followed along `..` is always ahead.

  Proved:
  - `follows_compare`: of two beginnings of forms that are followed from one place, one
    continues the other or is that dot.
  - `form_unique_of_follows`: at most one form is followed to its end.
  - `front_lt_of_form`: what else is followed stays behind the end of that form.
  - `begins_unique_of_front`: two beginnings of forms that get equally far are the same.
  - `flatten_compare`: the same of sequences of forms.
  - `isChain_of_begins`: between the terminals of a path, words split.
-/

import JsonPath.Proofs.Grammar.Form
import JsonPath.Proofs.Spelling

namespace JsonPath

namespace Grammar

/-! ## Words split -/

theorem isChain_flatten {fs : List (List Terminal)} (hfs : ∀ f ∈ fs, f ∈ forms) :
    fs.flatten.IsChain (splits · · = true) := by
  induction fs with
  | nil => exact .nil
  | cons f fs ih =>
    rw [List.forall_mem_cons] at hfs
    rw [List.flatten_cons, List.isChain_append]
    refine ⟨(by decide : ∀ f ∈ forms, f.IsChain (splits · · = true)) f hfs.1, ih hfs.2, ?_⟩
    cases fs with
    | nil => simp
    | cons g gs =>
      have hg : g ∈ forms := hfs.2 g (List.mem_cons_self ..)
      obtain ⟨t, g', rfl⟩ := List.exists_cons_of_ne_nil (form_ne_nil hg)
      have hpair : ∀ f ∈ forms, ∀ g ∈ forms, ∀ x ∈ f.getLast?, ∀ y ∈ g.head?, splits x y = true := by decide
      intro x hx y hy
      exact hpair f hfs.1 _ hg x hx y hy

theorem isChain_of_begins {fs : List (List Terminal)} (hfs : ∀ f ∈ fs, f ∈ forms) {part : List Terminal} {t : Terminal}
    (h : Begins part t) : (fs.flatten ++ part ++ [t]).IsChain (splits · · = true) := by
  obtain ⟨f, hf, rest, rfl⟩ := h
  have h := isChain_flatten (forms_concat hfs hf)
  rw [List.flatten_append, List.flatten_singleton, ← List.append_assoc, ← List.append_assoc] at h
  exact h.left_of_append

/-! ## Terminals told apart -/

/-- What every word of a terminal begins with, where that is always the same. -/
def first? : Terminal → Option CodePoint
  | .mark m => m.lexeme.head?
  | .atom .quoted => some '\''
  | _ => none

/-- Whether no text begins with a word of each. -/
def apart (t u : Terminal) : Bool := (first? t).any (fun c => !u.starts c) || (first? u).any (fun c => !t.starts c)

theorem eq_of_starts {t : Terminal} {c d : CodePoint} (h : c ∈ first? t) (hd : t.starts d = true) : d = c := by
  cases t with
  | mark m => exact Option.some.inj ((of_decide_eq_true hd).symm.trans h)
  | atom a =>
    cases a with
    | quoted => exact (of_decide_eq_true hd).trans (Option.some.inj h)
    | _ => cases h
  | endOfInput => cases h

theorem apart_eq_false {t u : Terminal} {c : CodePoint} (ht : t.starts c = true) (hu : u.starts c = true) :
    apart t u = false := by
  rw [apart, Bool.or_eq_false_iff, Option.any_eq_false, Option.any_eq_false]
  constructor
  · intro d hd
    simp [← eq_of_starts hd ht, hu]
  · intro d hd
    simp [← eq_of_starts hd hu, ht]

theorem starts_of_take {t : Terminal} (ht : t ≠ .endOfInput) {c d : Cursor} {a : Token} (h : c.take t = .ok (a, d)) :
    ∃ x ∈ c.front.rest.head?, t.starts x = true := by
  obtain ⟨w, hw, -, -⟩ := Cursor.take_ok h
  have hl := Terminal.longest ht c.front.rest
  rw [hw] at hl
  obtain ⟨x, w, rfl, hx⟩ := Terminal.starts_of_mem hl.1
  obtain ⟨r, hr⟩ := hl.2.1
  exact ⟨x, by simp [← hr], hx⟩

theorem apart_of_take {t u : Terminal} (ht : t ≠ .endOfInput) (hu : u ≠ .endOfInput) {c d e : Cursor} {a b : Token}
    (h : c.take t = .ok (a, d)) (h' : c.take u = .ok (b, e)) : apart t u = false := by
  obtain ⟨x, hx, htx⟩ := starts_of_take ht h
  obtain ⟨y, hy, huy⟩ := starts_of_take hu h'
  obtain rfl := Option.mem_unique hx hy
  exact apart_eq_false htx huy

/-- Whether the first terminals in which the two differ, if there are such, are apart. -/
def toldApart : List Terminal → List Terminal → Bool
  | t :: ts, u :: us => if t = u then toldApart ts us else apart t u
  | _, _ => true

theorem toldApart_of_isPrefix {f g us vs : List Terminal} (h : toldApart f g = true) (hu : us <+: f) (hv : vs <+: g) :
    toldApart us vs = true := by
  induction us generalizing f g vs with
  | nil => rfl
  | cons u us ih =>
    cases vs with
    | nil => rfl
    | cons v vs =>
      obtain ⟨f, rfl⟩ := hu
      obtain ⟨g, rfl⟩ := hv
      simp only [List.cons_append, toldApart] at h ⊢
      split
      · rename_i heq
        rw [if_pos heq] at h
        exact ih h (List.prefix_append ..) (List.prefix_append ..)
      · rename_i hne
        rwa [if_neg hne] at h

theorem isPrefix_of_toldApart {us vs : List Terminal} (h : toldApart us vs = true) {c d e : Cursor} {as bs : List Token}
    (hu : Follows c us as d) (hv : Follows c vs bs e) : us <+: vs ∨ vs <+: us := by
  induction us generalizing c vs as bs with
  | nil => exact .inl List.nil_prefix
  | cons u us ih =>
    cases hu with
    | cons hne h₁ hu =>
      cases hv with
      | nil => exact .inr List.nil_prefix
      | @cons _ _ _ v _ _ _ hne' h₂ hv =>
        simp only [toldApart] at h
        split at h
        · rename_i heq
          subst heq
          cases h₁.symm.trans h₂
          simpa using ih h hu hv
        · rw [apart_of_take hne hne' h₁ h₂] at h
          cases h

/-! ## One dot and two -/

theorem forms_toldApart : ∀ f ∈ forms, ∀ g ∈ forms, toldApart f g = true ∨
    (f.head? = some (.mark .dot) ∧ g.head? = some (.mark .dotDot)) ∨
    (f.head? = some (.mark .dotDot) ∧ g.head? = some (.mark .dot)) := by
  decide

/-- Where two dots stand, nothing that a form has behind one dot stands behind the first. -/
theorem eq_dot_of_dotDot {us vs f : List Terminal} (hf : f ∈ forms) (hu : .mark .dot :: us <+: f) {c d e : Cursor}
    {as bs : List Token} (h : Follows c (.mark .dot :: us) as d) (h' : Follows c (.mark .dotDot :: vs) bs e) :
    us = [] ∧ d.front.offset < e.offset := by
  cases h with
  | @cons _ c₁ _ _ _ _ _ _ h₁ h =>
    cases h' with
    | @cons _ c₂ _ _ _ _ _ _ h₂ h' =>
      obtain ⟨-, h₁⟩ := Cursor.take_mark h₁
      obtain ⟨⟨r, hr⟩, h₂⟩ := Cursor.take_mark h₂
      have hrest : c₁.rest = .ofChar '.' :: r := by rw [h₁, Cursor.rest_advance, ← hr]; rfl
      have hfront : c₁.front = c₁ := Cursor.front_eq (by rw [hrest]; exact Lexicon.blanks_eq_nil (by decide) r)
      cases h with
      | nil =>
        refine ⟨rfl, Nat.lt_of_lt_of_le ?_ h'.offset_le⟩
        rw [hfront, h₁, h₂, Cursor.offset_advance, Cursor.offset_advance, ← hr]
        simp [Mark.lexeme, Text.ofString]
      | @cons _ _ _ t us _ _ ht h₃ _ =>
        obtain ⟨x, hx, hstarts⟩ := starts_of_take ht h₃
        rw [hfront, hrest] at hx
        obtain rfl := Option.some.inj hx
        obtain ⟨g, rfl⟩ := hu
        have hsecond : ∀ f ∈ forms, f.head? = some (.mark .dot) → ∀ t ∈ f[1]?, t.starts (.ofChar '.') = false := by
          decide
        rw [hsecond _ hf rfl t rfl] at hstarts
        cases hstarts

/-! ## Beginnings of forms -/

variable {us vs f g : List Terminal} {c d e : Cursor} {as bs : List Token}

theorem front_lt_of_isPrefix (h : Follows c us as d) (h' : Follows c vs bs e) (hp : us <+: vs) (hne : us ≠ vs) :
    d.front.offset < e.offset := by
  obtain ⟨ws, rfl⟩ := hp
  obtain ⟨_, _, d', rfl, h₁, h₂⟩ := h'.split
  obtain ⟨rfl, rfl⟩ := h.unique h₁
  refine h₂.front_lt ?_
  rintro rfl
  exact hne (List.append_nil us).symm

theorem follows_compare (hf : f ∈ forms) (hg : g ∈ forms) (hu : us <+: f) (hv : vs <+: g) (h : Follows c us as d)
    (h' : Follows c vs bs e) :
    us <+: vs ∨ vs <+: us ∨ (us = [.mark .dot] ∧ d.front.offset < e.offset) ∨
      (vs = [.mark .dot] ∧ e.front.offset < d.offset) := by
  cases us with
  | nil => exact .inl List.nil_prefix
  | cons u us =>
    cases vs with
    | nil => exact .inr (.inl List.nil_prefix)
    | cons v vs =>
      rcases forms_toldApart f hf g hg with hta | ⟨hhead, hhead'⟩ | ⟨hhead, hhead'⟩
      · rcases isPrefix_of_toldApart (toldApart_of_isPrefix hta hu hv) h h' with hp | hp
        · exact .inl hp
        · exact .inr (.inl hp)
      · obtain ⟨f, rfl⟩ := hu
        obtain ⟨g, rfl⟩ := hv
        obtain rfl := Option.some.inj hhead
        obtain rfl := Option.some.inj hhead'
        obtain ⟨rfl, hlt⟩ := eq_dot_of_dotDot hf (List.prefix_append ..) h h'
        exact .inr (.inr (.inl ⟨rfl, hlt⟩))
      · obtain ⟨f, rfl⟩ := hu
        obtain ⟨g, rfl⟩ := hv
        obtain rfl := Option.some.inj hhead
        obtain rfl := Option.some.inj hhead'
        obtain ⟨rfl, hlt⟩ := eq_dot_of_dotDot hg (List.prefix_append ..) h' h
        exact .inr (.inr (.inr ⟨rfl, hlt⟩))

theorem form_ne_dot (hf : f ∈ forms) : f ≠ [.mark .dot] := (by decide : ∀ f ∈ forms, f ≠ [.mark .dot]) f hf

/-- What else is followed stays behind the end of a form that is followed. -/
theorem front_lt_of_form (hf : f ∈ forms) (h : Follows c f as d) {t : Terminal} (hb : Begins us t)
    (h' : Follows c us bs e) : e.front.offset < d.offset := by
  obtain ⟨g, hg, hp⟩ := hb
  have hu : us <+: g := (List.prefix_append us [t]).trans hp
  have hnot : ¬ f <+: us := Begins.not_form ⟨g, hg, hp⟩ hf
  rcases follows_compare hf hg (List.prefix_refl f) hu h h' with hpre | hpre | ⟨heq, -⟩ | ⟨-, hlt⟩
  · exact absurd hpre hnot
  · exact front_lt_of_isPrefix h' h hpre fun heq => hnot (heq ▸ List.prefix_refl _)
  · exact absurd heq (form_ne_dot hf)
  · exact hlt

theorem form_unique_of_follows (hf : f ∈ forms) (hg : g ∈ forms) (h : Follows c f as d) (h' : Follows c g bs e) :
    f = g := by
  rcases follows_compare hf hg (List.prefix_refl f) (List.prefix_refl g) h h' with hp | hp | ⟨heq, -⟩ | ⟨heq, -⟩
  · exact form_eq_of_isPrefix hf hg hp
  · exact (form_eq_of_isPrefix hg hf hp).symm
  · exact absurd heq (form_ne_dot hf)
  · exact absurd heq (form_ne_dot hg)

theorem begins_unique_of_front {t u : Terminal} (hb : Begins us t) (hb' : Begins vs u) (h : Follows c us as d)
    (h' : Follows c vs bs e) (heq : d.front.offset = e.front.offset) : us = vs := by
  obtain ⟨f, hf, hp⟩ := hb
  obtain ⟨g, hg, hp'⟩ := hb'
  have hd := d.le_front
  have he := e.le_front
  by_contra hne
  rcases follows_compare hf hg ((List.prefix_append us [t]).trans hp) ((List.prefix_append vs [u]).trans hp') h h' with
    hpre | hpre | ⟨-, hlt⟩ | ⟨-, hlt⟩
  · have := front_lt_of_isPrefix h h' hpre hne
    omega
  · have := front_lt_of_isPrefix h' h hpre (Ne.symm hne)
    omega
  · omega
  · omega

/-! ## Sequences of forms -/

theorem eq_nil_of_end {ts : List Terminal} (h : Follows c ts as d)
    (hc : c.front.rest = []) : ts = [] ∧ d = c := by
  cases h with
  | nil => exact ⟨rfl, rfl⟩
  | cons ht h _ =>
    obtain ⟨x, hx, -⟩ := starts_of_take ht h
    rw [hc] at hx
    cases hx

/-- Of two sequences of forms that are followed from one place, one only goes further than the other. -/
theorem flatten_compare {fs gs : List (List Terminal)} (hfs : ∀ f ∈ fs, f ∈ forms) (hgs : ∀ g ∈ gs, g ∈ forms)
    (hf : Follows c fs.flatten as d) (hg : Follows c gs.flatten bs e) :
    (∃ k hs, gs = fs ++ k :: hs ∧ ∃ cs, Follows d (k :: hs).flatten cs e) ∨ ∃ hs, fs = gs ++ hs ∧
      ∃ cs, Follows e hs.flatten cs d := by
  induction fs generalizing gs c as bs with
  | nil =>
    cases hf with
    | nil =>
      cases gs with
      | nil => exact .inr ⟨[], rfl, bs, by cases hg; exact .nil _⟩
      | cons g gs => exact .inl ⟨g, gs, rfl, bs, hg⟩
  | cons f fs ih =>
    cases gs with
    | nil =>
      cases hg with
      | nil => exact .inr ⟨f :: fs, rfl, as, hf⟩
    | cons g gs =>
      rw [List.forall_mem_cons] at hfs hgs
      obtain ⟨as₁, as₂, d', rfl, hf₁, hf₂⟩ := hf.split
      obtain ⟨bs₁, bs₂, e', rfl, hg₁, hg₂⟩ := hg.split
      obtain rfl := form_unique_of_follows hfs.1 hgs.1 hf₁ hg₁
      obtain ⟨rfl, rfl⟩ := hf₁.unique hg₁
      rcases ih hfs.2 hgs.2 hf₂ hg₂ with ⟨k, hs, rfl, h⟩ | ⟨hs, rfl, h⟩
      · exact .inl ⟨k, hs, rfl, h⟩
      · exact .inr ⟨hs, rfl, h⟩

/-- Sequences of forms that lead to the same place are the same terminals. -/
theorem flatten_unique {fs gs : List (List Terminal)} (hfs : ∀ f ∈ fs, f ∈ forms) (hgs : ∀ g ∈ gs, g ∈ forms)
    (hf : Follows c fs.flatten as d) (hg : Follows c gs.flatten bs d) : fs.flatten = gs.flatten := by
  have hstay : ∀ {ts cs}, Follows d ts cs d → ts = [] := by
    intro ts cs h
    by_contra hne
    have := h.front_lt hne
    have := d.le_front
    omega
  rcases flatten_compare hfs hgs hf hg with ⟨k, hs, rfl, cs, hk⟩ | ⟨hs, rfl, cs, hk⟩
  · rw [List.flatten_append, hstay hk, List.append_nil]
  · rw [List.flatten_append, hstay hk, List.append_nil]

theorem flatten_unique_of_end {fs gs : List (List Terminal)} (hfs : ∀ f ∈ fs, f ∈ forms) (hgs : ∀ g ∈ gs, g ∈ forms)
    (hf : Follows c fs.flatten as d) (hg : Follows c gs.flatten bs e) (hd : d.front.rest = [])
    (he : e.front.rest = []) : as = bs := by
  have hde : d = e := by
    rcases flatten_compare hfs hgs hf hg with ⟨_, _, _, _, hk⟩ | ⟨_, _, _, hk⟩
    · exact (eq_nil_of_end hk hd).2.symm
    · exact (eq_nil_of_end hk he).2
  subst hde
  rw [flatten_unique hfs hgs hf hg] at hf
  exact (hf.unique hg).1

end Grammar

end JsonPath
