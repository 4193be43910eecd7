/-
  JsonPath.Proofs.Order — the alternatives may be tried in any order.

  Each alternative follows forms of its own, and from one place no two forms can be
  followed. So whichever is tried first, at most one of the alternatives and the mark `@`
  has a value, and a chain has one run.

  What is missed on the way does depend on the order. Two orders miss the same forms only
  where the run ends; what was missed before lies behind. `Reply.Agrees` says what is left
  of that: the same value, the same place, and the same record of the furthest misses
  behind any misses before.

  Proved:
  - `Run.unique`: a run that ends where no form can be followed is the only one.
  - `Stuck.noteAll_eq`: misses at the end of one run leave the same record.
  - `order_immaterial`.
-/

import JsonPath.Proofs.Furthest
import JsonPath.Proofs.Run
import JsonPath.Reading

namespace JsonPath

open Grammar

/-! ## Alternatives exclude each other -/

theorem Alternative.eq_of_mem_forms {x y : Alternative} {f : List Terminal} (hx : f ∈ x.forms) (hy : f ∈ y.forms) :
    x = y :=
  (by decide : ∀ x ∈ standard, ∀ y ∈ standard, ∀ f ∈ x.forms, f ∈ y.forms → x = y) x x.mem_standard y y.mem_standard
    f hx hy

theorem Grammar.selectorForm_ne_at {f : List Terminal} (h : f ∈ selectorForms) : f ≠ [.mark .at] :=
  (by decide : ∀ f ∈ selectorForms, f ≠ [.mark .at]) f h

theorem Alternative.form_mem {x : Alternative} {f : List Terminal} (h : f ∈ x.forms) : f ∈ selectorForms :=
  List.mem_flatMap.mpr ⟨x, x.mem_standard, h⟩

namespace Rule

theorem exists_form_of_alternative {x : Alternative} {c : Cursor} (h : (attempt x.rule c).value ≠ none) :
    ∃ f ∈ x.forms, ∃ as stop, Follows c f as stop := by
  obtain ⟨t, ht⟩ := Option.ne_none_iff_exists'.mp h
  obtain ⟨f, hf, as, hfollow, -⟩ := (covers_attempt (covers_alternative x c)).followed t ht
  exact ⟨f, hf, as, _, hfollow⟩

theorem alternative_unique {x y : Alternative} {c : Cursor} (hx : (attempt x.rule c).value ≠ none)
    (hy : (attempt y.rule c).value ≠ none) : x = y := by
  obtain ⟨f, hf, as, stop, hfollow⟩ := exists_form_of_alternative hx
  obtain ⟨g, hg, bs, stop', hfollow'⟩ := exists_form_of_alternative hy
  have hfg : f = g :=
    form_unique_of_follows (selectorForm_mem (Alternative.form_mem hf)) (selectorForm_mem (Alternative.form_mem hg))
      hfollow hfollow'
  exact Alternative.eq_of_mem_forms hf (hfg ▸ hg)

theorem at_eq_none_of_alternative {x : Alternative} {c : Cursor} (hx : (attempt x.rule c).value ≠ none) :
    (mark .at c).value = none := by
  obtain ⟨f, hf, as, stop, hfollow⟩ := exists_form_of_alternative hx
  have hform := Alternative.form_mem hf
  rw [mark_eq]
  split
  · rename_i a d htake
    have hat : Follows c [.mark .at] [a] d := .cons (by simp) htake (.nil d)
    have heq := form_unique_of_follows (selectorForm_mem hform) (List.mem_cons_self ..) hfollow hat
    exact absurd heq (selectorForm_ne_at hform)
  · rfl

end Rule

/-! ## Runs are unique -/

theorem Stuck.not_follows {last d : Cursor} {ms : List Miss} {f : List Terminal} {as : List Token} (h : Stuck last ms)
    (hf : f ∈ forms) : ¬ Follows last f as d := by
  obtain ⟨m, hm, -⟩ := h.missed f hf
  exact hm.not_follows

theorem Grammar.Derivation.step_ext {s r : Step} (h : s.word = r.word) : s = r := by
  refine (step_append_inj (x := []) (y := []) ?_).1
  rw [h]

theorem Run.unique {c last last' : Cursor} {links links' : List (Link × Cursor)} {ms ms' : List Miss}
    (h : Run c links last) (h' : Run c links' last') (hs : Stuck last ms) (hs' : Stuck last' ms') :
    links = links' ∧ last = last' := by
  induction h generalizing links' with
  | nil c =>
    cases h' with
    | nil => exact ⟨rfl, rfl⟩
    | selector hf _ _ => exact absurd hf (hs.not_follows (selectorForm_mem (Derivation.word_mem_selectorForms _)))
    | current htake _ => exact absurd (.cons (by simp) htake (.nil _)) (hs.not_follows (List.mem_cons_self ..))
  | @selector c stop last s tree links hf ht _ ih =>
    have hform := Derivation.word_mem_selectorForms s
    cases h' with
    | nil => exact absurd hf (hs'.not_follows (selectorForm_mem hform))
    | @selector _ _ _ s' _ _ hf' ht' hrun =>
      have hform' := Derivation.word_mem_selectorForms s'
      have heq := form_unique_of_follows (selectorForm_mem hform) (selectorForm_mem hform') hf hf'
      rw [heq] at hf
      obtain ⟨hw, rfl⟩ := hf.unique hf'
      obtain rfl := Derivation.step_ext hw
      obtain ⟨rfl, rfl⟩ := ih hrun hs
      rw [ht] at ht'
      obtain rfl := (List.cons.inj ht').1
      exact ⟨rfl, rfl⟩
    | current htake _ =>
      have hat : Follows c [.mark .at] _ _ := .cons (by simp) htake (.nil _)
      exact absurd (form_unique_of_follows (selectorForm_mem hform) (List.mem_cons_self ..) hf hat)
        (selectorForm_ne_at hform)
  | @current c stop last a links htake _ ih =>
    have hat : Follows c [.mark .at] [a] stop := .cons (by simp) htake (.nil stop)
    cases h' with
    | nil => exact absurd hat (hs'.not_follows (List.mem_cons_self ..))
    | @selector _ _ _ s' _ _ hf' _ _ =>
      have hform' := Derivation.word_mem_selectorForms s'
      exact absurd (form_unique_of_follows (selectorForm_mem hform') (List.mem_cons_self ..) hf' hat)
        (selectorForm_ne_at hform')
    | current htake' hrun =>
      cases htake.symm.trans htake'
      obtain ⟨rfl, rfl⟩ := ih hrun hs
      exact ⟨rfl, rfl⟩

/-! ## Records of the same misses -/

theorem Furthest.noteAll_le_of_reported {ms ns : List Miss} (h : ∀ m ∈ ms, Reported m ns) (f : Furthest) :
    (f.noteAll ms).offset ≤ (f.noteAll ns).offset := by
  rcases offset_noteAll f ms with heq | ⟨m, hm, heq⟩
  · rw [heq]
    exact offset_le_noteAll f ns
  · obtain ⟨n, hn, hle⟩ := (h m hm).exists_le
    rw [← heq]
    exact Int.le_trans hle (le_offset_noteAll f ns hn)

/-- Where neither list has a miss that the other does not report, both leave the same record. -/
theorem Furthest.noteAll_eq_of_reported {ms ns : List Miss} (h : ∀ m ∈ ms, Reported m ns)
    (h' : ∀ n ∈ ns, Reported n ms) (f : Furthest) : f.noteAll ms = f.noteAll ns := by
  have hoffset : (f.noteAll ms).offset = (f.noteAll ns).offset :=
    Int.le_antisymm (noteAll_le_of_reported h f) (noteAll_le_of_reported h' f)
  have hmem : ∀ {ms ns : List Miss}, (∀ m ∈ ms, Reported m ns) → ∀ t,
      ⟨(f.noteAll ns).offset, t⟩ ∈ ms → ⟨(f.noteAll ns).offset, t⟩ ∈ ns := by
    intro ms ns h t ht
    rcases h _ ht with hn | ⟨n, hn, hlt⟩
    · exact hn
    · have := le_offset_noteAll f ns hn
      have : (f.noteAll ns).offset < n.offset := hlt
      omega
  have hexpected : (f.noteAll ms).expected = (f.noteAll ns).expected := by
    ext t
    rw [mem_expected_noteAll, mem_expected_noteAll, hoffset]
    constructor
    · rintro (ht | ht)
      · exact .inl (hmem h t ht)
      · exact .inr ht
    · rintro (ht | ht)
      · rw [← hoffset] at ht ⊢
        exact .inl (hmem h' t ht)
      · exact .inr ht
  calc f.noteAll ms = ⟨(f.noteAll ms).offset, (f.noteAll ms).expected⟩ := rfl
    _ = ⟨(f.noteAll ns).offset, (f.noteAll ns).expected⟩ := by rw [hoffset, hexpected]

theorem Stuck.reported {last : Cursor} {ms ns : List Miss} (h : Stuck last ms) (h' : Stuck last ns) :
    ∀ m ∈ ms, Reported m ns := by
  intro m hm
  rcases h.misses m hm with ⟨f, hf, hmiss⟩ | hlt
  · obtain ⟨n, hn, hrep⟩ := h'.missed f hf
    obtain rfl := hmiss.unique hn
    exact hrep
  · obtain ⟨n, hn, hrep⟩ := h'.missed [.mark .at] (List.mem_cons_self ..)
    obtain ⟨k, hk, hle⟩ := hrep.exists_le
    have := hn.front_le
    have := last.le_front
    exact .inr ⟨k, hk, by omega⟩

theorem Stuck.noteAll_eq {last : Cursor} {ms ns : List Miss} (h : Stuck last ms) (h' : Stuck last ns) (f : Furthest) :
    f.noteAll ms = f.noteAll ns :=
  Furthest.noteAll_eq_of_reported (h.reported h') (h'.reported h) f

/-! ## Replies that agree -/

/-- The same value at the same place, and the same record behind whatever was missed before. -/
structure Reply.Agrees {α : Type} (r s : Reply Cursor α) : Prop where
  value : r.value = s.value
  stop : r.stop = s.stop
  record : ∀ f : Furthest, f.noteAll r.misses = f.noteAll s.misses

namespace Rule

variable {α β : Type}

theorem agrees_bind {r s : Rule Cursor α} {c : Cursor} (h : (r c).Agrees (s c)) (f : α → Rule Cursor β) :
    ((r >>= f) c).Agrees ((s >>= f) c) := by
  show (bind r f c).Agrees (bind s f c)
  unfold bind
  generalize r c = x at h ⊢
  generalize s c = y at h ⊢
  obtain ⟨v, stop, ms⟩ := x
  obtain ⟨v', stop', ns⟩ := y
  obtain ⟨hv, hstop, hrecord⟩ := h
  obtain rfl : v = v' := hv
  obtain rfl : stop = stop' := hstop
  cases v with
  | none => exact ⟨rfl, rfl, hrecord⟩
  | some a =>
    refine ⟨rfl, rfl, fun g => ?_⟩
    have hg : g.noteAll ms = g.noteAll ns := hrecord g
    simp only [Furthest.noteAll_append, hg]

theorem read_eq_of_agrees {r s : Rule Cursor α} {source : Text} (h : (r (.start source)).Agrees (s (.start source))) :
    r.read source = s.read source := by
  have hrecord : Furthest.ofMisses (r (.start source)).misses = Furthest.ofMisses (s (.start source)).misses :=
    h.record .start
  simp only [read, h.value, h.stop, hrecord]

/-- What a run comes to does not depend on the order in which its selectors were looked for. -/
theorem agrees_chainOf {order order' : List Alternative} (hall : ∀ x, x ∈ order) (hall' : ∀ x, x ∈ order') (c : Cursor) :
    (chainOf order c).Agrees (chainOf order' c) := by
  obtain ⟨last, hrun, hstuck⟩ := linksOf_run hall c
  obtain ⟨last', hrun', hstuck'⟩ := linksOf_run hall' c
  obtain ⟨hlinks, rfl⟩ := hrun.unique hrun' hstuck hstuck'
  have hrecord := hstuck.noteAll_eq hstuck'
  have h := chainOf_eq order c
  have h' := chainOf_eq order' c
  simp only at h h'
  rw [h, h', hlinks]
  exact ⟨rfl, rfl, hrecord⟩

theorem agrees_pathOf {order order' : List Alternative} (hall : ∀ x, x ∈ order) (hall' : ∀ x, x ∈ order') (c : Cursor) :
    (pathOf order c).Agrees (pathOf order' c) :=
  agrees_bind (agrees_bind (agrees_chainOf hall hall' c) _) _

end Rule

/-- From one place at most one of the alternatives and `@` can be read, and a source reads the
    same whatever the order in which the alternatives are tried. -/
theorem order_immaterial :
    (∀ (c : Cursor) (x y : Alternative), (Rule.attempt x.rule c).value ≠ none → (Rule.attempt y.rule c).value ≠ none →
      x = y) ∧
    (∀ (c : Cursor) (x : Alternative), (Rule.attempt x.rule c).value ≠ none → (Rule.mark .at c).value = none) ∧
    ∀ order : List Alternative, order.Perm Alternative.standard → ∀ s, (Rule.pathOf order).read s = Rule.path.read s := by
  refine ⟨fun c x y => Rule.alternative_unique, fun c x => Rule.at_eq_none_of_alternative, fun order hperm s => ?_⟩
  have hall : ∀ x, x ∈ order := fun x => hperm.mem_iff.mpr x.mem_standard
  exact Rule.read_eq_of_agrees (Rule.agrees_pathOf hall Alternative.mem_standard (.start s))

theorem order_immaterial_of_index_first :
    (Rule.mark .at (Cursor.start ". ['a']")).value = none ∧
      (∀ x : Alternative, (Rule.attempt x.rule (Cursor.start ". ['a']")).value ≠ none → x = .field) ∧
      (Rule.pathOf [.index, .field, .wildcard, .descent, .root]).read "$@[0].[" =
        .error ⟨"$@[0].[", 7, .ofList [Mark.star, Atom.quoted]⟩ := by
  have hfield : (Rule.attempt Alternative.field.rule (Cursor.start ". ['a']")).value ≠ none := by decide +kernel
  have hread : Rule.path.read "$@[0].[" = .error ⟨"$@[0].[", 7, .ofList [Mark.star, Atom.quoted]⟩ := by
    decide +kernel
  have hperm : [Alternative.index, .field, .wildcard, .descent, .root].Perm Alternative.standard := by decide
  obtain ⟨unique, noAt, order⟩ := order_immaterial
  exact ⟨noAt _ _ hfield, fun x hx => unique _ _ _ hx hfield, (order _ hperm _).trans hread⟩

end JsonPath
