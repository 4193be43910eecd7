/-
  JsonPath.Proofs.Run — reading a chain goes from form to form until none can be followed.

  `linksOf` makes a run: from place to place along forms, one at a time, to a place where
  no form can be followed. Nothing is decided twice, since at most one form can be
  followed from a place. What it missed on its way lies behind where it ended, and what
  it missed there are the misses of the forms (`Stuck`).

  `fold` then takes the run apart: a chain, as a derivation has it, and behind it the
  `@`s that nothing follows.

  Proved:
  - `linksOf_run`, for alternatives in any order: the run and what was missed.
  - `fold_run`: the chain; `fold_eq_of_last`: that there is no other to where the run ends.
  - `pathOf_nil`, `pathOf_cons`: what reading a path replies, told from both.
-/

import JsonPath.Proofs.Covers
import JsonPath.Rule.Chain

namespace JsonPath

open Grammar

/-- The links of a chain that are read from one place to another. -/
inductive Run : Cursor → List (Link × Cursor) → Cursor → Prop where
  | nil (c : Cursor) : Run c [] c
  | selector {c stop last : Cursor} {s : Step} {tree : Tree Token} {links : List (Link × Cursor)} :
    Follows c (s.word.map Token.terminal) s.word stop → s.trees = [tree] → Run stop links last →
    Run c ((.selector tree, stop) :: links) last
  | current {c stop last : Cursor} {a : Token} {links : List (Link × Cursor)} :
    c.take (.mark .at) = .ok (a, stop) → Run stop links last → Run c ((.current, stop) :: links) last

/-- No form can be followed, and the misses are those of the forms and others that lie behind. -/
structure Stuck (last : Cursor) (ms : List Miss) : Prop where
  missed : ∀ f ∈ forms, ∃ m, Misses last f m ∧ Reported m ms
  misses : ∀ m ∈ ms, (∃ f ∈ forms, Misses last f m) ∨ m.offset < last.offset

namespace Run

variable {c d last : Cursor} {links : List (Link × Cursor)}

theorem offset_le (h : Run c links last) : c.offset ≤ last.offset := by
  induction h with
  | nil => exact Nat.le_refl _
  | selector hf _ _ ih => exact Nat.le_trans hf.offset_le ih
  | @current c _ _ _ _ ht _ ih => exact Nat.le_trans c.le_front (Nat.le_trans (Nat.le_of_lt (Cursor.front_lt_of_take (by simp) ht)) ih)

theorem follows (h : Run c links last) : ∃ fs : List (List Terminal), (∀ f ∈ fs, f ∈ forms) ∧
    ∃ as, Follows c fs.flatten as last := by
  induction h with
  | nil c => exact ⟨[], nofun, [], .nil c⟩
  | @selector _ _ _ s _ _ hf _ _ ih =>
    obtain ⟨fs, hfs, as, h⟩ := ih
    exact ⟨_ :: fs, List.forall_mem_cons.mpr ⟨selectorForm_mem (Derivation.word_mem_selectorForms s), hfs⟩, _,
      hf.append h⟩
  | current ht _ ih =>
    obtain ⟨fs, hfs, as, h⟩ := ih
    exact ⟨[.mark .at] :: fs, List.forall_mem_cons.mpr ⟨List.mem_cons_self .., hfs⟩, _, .cons (by simp) ht h⟩

end Run

/-! ## Links -/

theorem Misses.offset_lt_of_form {c d : Cursor} {f g : List Terminal} {as : List Token} {m : Miss} (hf : f ∈ forms)
    (h : Follows c f as d) (hg : g ∈ forms) (hm : Misses c g m) : m.offset < d.offset := by
  obtain ⟨us, t, bs, e, hp, hu, he⟩ := hm.exists_follows
  obtain ⟨rfl, -⟩ := Cursor.take_error he
  exact Int.ofNat_lt.mpr (front_lt_of_form hf h ⟨g, hg, hp⟩ hu)

/-- What was missed before a form was followed lies behind. -/
theorem Stuck.prepend {c stop last : Cursor} {f : List Terminal} {as : List Token} {ms ns : List Miss}
    (h : Stuck last ms) (hle : stop.offset ≤ last.offset) (hf : f ∈ forms) (hfollow : Follows c f as stop)
    (hns : ∀ m ∈ ns, ∃ g ∈ forms, Misses c g m) : Stuck last (ns ++ ms) := by
  refine ⟨fun g hg => ?_, fun m hm => ?_⟩
  · obtain ⟨m, hm, hrep⟩ := h.missed g hg
    exact ⟨m, hm, hrep.mono fun _ => List.mem_append_right _⟩
  · rcases List.mem_append.mp hm with hm | hm
    · obtain ⟨g, hg, hmiss⟩ := hns m hm
      have hlt := hmiss.offset_lt_of_form hf hfollow hg
      exact .inr (Int.lt_of_lt_of_le hlt (Int.ofNat_le.mpr hle))
    · exact h.misses m hm

namespace Rule

variable {order : List Alternative}

theorem form_mem_of_order {f : List Terminal} (h : f ∈ order.flatMap Alternative.forms) : f ∈ forms := by
  obtain ⟨x, -, hx⟩ := List.mem_flatMap.mp h
  exact selectorForm_mem (List.mem_flatMap.mpr ⟨x, x.mem_standard, hx⟩)

theorem mark_eq (m : Mark) (c : Cursor) : mark m c =
    match c.take (.mark m) with
    | .ok (a, stop) => ⟨some a, stop, []⟩
    | .error n => ⟨none, c, [n]⟩ := spaced_probe (.mark m) c

theorem misses_selectorOf (order : List Alternative) (c : Cursor) :
    ∀ m ∈ (selectorOf order c).misses, ∃ f ∈ forms, Misses c f m := by
  intro m hm
  obtain ⟨f, hf, hmiss⟩ := (covers_selectorOf order c).misses m hm
  exact ⟨f, form_mem_of_order hf, hmiss⟩

theorem linksOf_run (hall : ∀ x, x ∈ order) (c : Cursor) :
    ∃ last, Run c (linksOf order c).links last ∧ Stuck last (linksOf order c).misses := by
  fun_induction linksOf order c with
  | case1 c tree stop ms hs _ more ih =>
    obtain ⟨last, hrun, hstuck⟩ := ih
    have hc := covers_selectorOf order c
    have hmisses := misses_selectorOf order c
    rw [hs] at hc hmisses
    obtain ⟨f, hf, as, hfollow, s, rfl, hs'⟩ := hc.followed tree rfl
    obtain rfl := hfollow.terminals
    exact ⟨last, .selector hfollow hs' hrun,
      hstuck.prepend hrun.offset_le (form_mem_of_order hf) hfollow hmisses⟩
  | case2 c _ ms hs a stop ms' ha _ more ih =>
    obtain ⟨last, hrun, hstuck⟩ := ih
    have hmisses := misses_selectorOf order c
    rw [hs] at hmisses
    rw [mark_eq] at ha
    split at ha
    · rename_i htake
      cases ha
      have hfollow : Follows c [.mark .at] [a] stop := .cons (by simp) htake (.nil _)
      refine ⟨last, .current htake hrun, ?_⟩
      rw [List.append_nil]
      exact hstuck.prepend hrun.offset_le (List.mem_cons_self ..) hfollow hmisses
    · cases ha
  | case3 c _ ms hs _ ms' ha =>
    have hc := covers_selectorOf order c
    have hmisses := misses_selectorOf order c
    rw [hs] at hc hmisses
    rw [mark_eq] at ha
    split at ha
    · cases ha
    · rename_i n htake
      cases ha
      refine ⟨c, .nil c, fun f hf => ?_, fun m hm => .inl ?_⟩
      · rcases List.mem_cons.mp hf with rfl | hf
        · exact ⟨n, .here htake, .inl (by simp)⟩
        · obtain ⟨x, -, hx⟩ := List.mem_flatMap.mp hf
          obtain ⟨m, hm, hrep⟩ := hc.missed rfl f (List.mem_flatMap.mpr ⟨x, hall x, hx⟩)
          exact ⟨m, hm, hrep.mono fun _ => List.mem_append_left _⟩
      · rcases List.mem_append.mp hm with hm | hm
        · exact hmisses m hm
        · obtain rfl := List.mem_singleton.mp hm
          exact ⟨[.mark .at], List.mem_cons_self .., .here htake⟩

/-! ## Folding -/

theorem fold_run {c last : Cursor} {links : List (Link × Cursor)} (h : Run c links last) :
    (∃ n as, Follows (fold c links).2 (List.replicate n (.mark .at)) as last) ∧
    (fold c links = ([], c) ∨ (fold c links).1 ≠ [] ∧ ∃ d : Chain, d.trees = (fold c links).1 ∧
      Follows c (d.word.map Token.terminal) d.word (fold c links).2) := by
  induction h with
  | nil c => exact ⟨⟨0, [], .nil c⟩, .inl rfl⟩
  | @selector c stop last s tree links hf ht _ ih =>
    simp only [fold]
    obtain ⟨hdangling, hnil | ⟨-, d, hd, hfollow⟩⟩ := ih
    · refine ⟨hdangling, .inr ⟨List.cons_ne_nil _ _, .single s, ?_, ?_⟩⟩
      · rw [Derivation.trees_single, ht, hnil]
      · rw [Derivation.word_single, hnil]
        exact hf
    · refine ⟨hdangling, .inr ⟨List.cons_ne_nil _ _, .cons s d, ?_, ?_⟩⟩
      · rw [Derivation.trees_cons, ht, hd]
        rfl
      · rw [Derivation.word_cons, List.map_append]
        exact hf.append hfollow
  | @current c stop last a links htake _ ih =>
    obtain ⟨⟨n, as, hdangling⟩, hnil | ⟨hne, d, hd, hfollow⟩⟩ := ih
    · rw [hnil] at hdangling
      have hfold : fold c ((.current, stop) :: links) = ([], c) := by simp only [fold, hnil]
      rw [hfold]
      exact ⟨⟨n + 1, a :: as, .cons (by simp) htake hdangling⟩, .inl rfl⟩
    · have hfold : fold c ((.current, stop) :: links) = ([.node .current (fold stop links).1], (fold stop links).2) := by
        simp only [fold]
      obtain ⟨_, _, _, ha⟩ := Cursor.take_ok htake
      rw [hfold]
      refine ⟨⟨n, as, hdangling⟩, .inr ⟨List.cons_ne_nil _ _, .nest a ha d, ?_, ?_⟩⟩
      · rw [Derivation.trees_nest, hd]
      · rw [Derivation.word_nest, List.map_cons, ha]
        exact .cons (by simp) htake hfollow

/-- A chain ends where the run ends or, with dangling `@`s behind it, before. -/
theorem fold_stop {c last : Cursor} {links : List (Link × Cursor)} (h : Run c links last) :
    (fold c links).2 = last ∨ (fold c links).2.front.offset < last.front.offset := by
  obtain ⟨⟨n, as, hdangling⟩, -⟩ := fold_run h
  cases n with
  | zero =>
    cases hdangling
    exact .inl rfl
  | succ n =>
    have hlt : (fold c links).2.front.offset < last.offset := hdangling.front_lt (by simp)
    exact .inr (Nat.lt_of_lt_of_le hlt last.le_front)

/-- A chain that leads to where a run ends is all that the run has. -/
theorem fold_eq_of_last {c last : Cursor} {links : List (Link × Cursor)} (hrun : Run c links last) (d : Chain)
    (hd : Follows c (d.word.map Token.terminal) d.word last) :
    fold c links = (d.trees, last) ∧ d.trees ≠ [] := by
  obtain ⟨gs, hgs, hgw⟩ := d.exists_forms
  rw [hgw] at hd
  have hat : ∀ n, ∀ f ∈ List.replicate n [Terminal.mark .at], f ∈ forms := by
    intro n f hf
    rw [List.eq_of_mem_replicate hf]
    exact List.mem_cons_self ..
  have hlast : ∀ n x, x ++ List.replicate n (.mark .at) = gs.flatten → n = 0 := by
    intro n x hx
    cases n with
    | zero => rfl
    | succ n =>
      rw [← hgw, List.replicate_succ', ← List.append_assoc] at hx
      exact absurd (by rw [← hx, List.getLast?_concat]) d.getLast?_terminals
  obtain ⟨⟨n, as, hdangling⟩, hnil | ⟨hne, d', hd', hfollow⟩⟩ := fold_run hrun
  · rw [hnil, ← List.flatten_replicate_singleton] at hdangling
    have heq := flatten_unique (hat n) hgs hdangling hd
    rw [List.flatten_replicate_singleton] at heq
    obtain rfl := hlast n [] heq
    rw [← hgw] at heq
    exact absurd (List.map_eq_nil_iff.mp heq.symm) d.chain_word_ne_nil
  · obtain ⟨fs, hfs, hfw⟩ := d'.exists_forms
    have hall := hfollow.append hdangling
    rw [hfw, ← List.flatten_replicate_singleton, ← List.flatten_append] at hall
    have heq := flatten_unique (List.forall_mem_append.mpr ⟨hfs, hat n⟩) hgs hall hd
    rw [List.flatten_append, List.flatten_replicate_singleton] at heq
    obtain rfl := hlast n _ heq
    rw [List.replicate_zero, List.append_nil, ← hfw] at heq
    cases hdangling
    rw [heq] at hfollow
    obtain ⟨hw, -⟩ := hfollow.unique hd
    rw [← Derivation.chain_ext hw, hd']
    exact ⟨rfl, hne⟩

theorem fold_last_iff {c last : Cursor} {links : List (Link × Cursor)} (hrun : Run c links last) :
    (∃ d : Chain, Follows c (d.word.map Token.terminal) d.word last) ↔
      (fold c links).1 ≠ [] ∧ (fold c links).2 = last := by
  constructor
  · intro ⟨d, hd⟩
    obtain ⟨hfold, hne⟩ := fold_eq_of_last hrun d hd
    rw [hfold]
    exact ⟨hne, rfl⟩
  · intro ⟨hne, hlast⟩
    obtain ⟨-, hnil | ⟨-, d, -, hfollow⟩⟩ := fold_run hrun
    · rw [hnil] at hne
      cases hne rfl
    · exact ⟨d, hlast ▸ hfollow⟩

/-! ## Paths -/

theorem chainOf_eq (order : List Alternative) (c : Cursor) :
    let found := linksOf order c
    let (trees, stop) := fold c found.links
    chainOf order c = ⟨if trees = [] then none else some trees, stop, found.misses⟩ := by
  simp only [chainOf]
  split
  · rename_i heq
    simp [heq]
  · rename_i trees stop hne heq
    have : trees ≠ [] := hne
    simp [heq, this]

theorem anchored_none {α : Type} {r : Rule Cursor α} {c stop : Cursor} {ms : List Miss} (h : r c = ⟨none, stop, ms⟩) :
    anchored r c = ⟨none, stop, ms⟩ := by
  simp only [anchored, Bind.bind, bind, h]

theorem anchored_some {α : Type} {r : Rule Cursor α} {c stop : Cursor} {a : α} {ms : List Miss}
    (h : r c = ⟨some a, stop, ms⟩) : anchored r c =
      match stop.take .endOfInput with
      | .ok (_, last) => ⟨some a, last, ms⟩
      | .error m => ⟨none, stop, ms ++ [m]⟩ := by
  simp only [anchored, Bind.bind, bind, h, endOfInput, spaced_probe]
  cases stop.take .endOfInput with
  | error m => rfl
  | ok p => simp [Pure.pure, pure]

/-- A path without a chain is missed where its chain is. -/
theorem pathOf_nil {order : List Alternative} {c stop : Cursor} (h : fold c (linksOf order c).links = ([], stop)) :
    pathOf order c = ⟨none, stop, (linksOf order c).misses⟩ := by
  have hc := chainOf_eq order c
  simp only [h, if_true] at hc
  simp only [pathOf, Bind.bind, bind, anchored_none hc]

/-- A path with a chain is a chain and then the end of the input. -/
theorem pathOf_cons {order : List Alternative} {c stop : Cursor} {t : Tree Token} {trees : List (Tree Token)}
    (h : fold c (linksOf order c).links = (t :: trees, stop)) :
    pathOf order c =
      match stop.take .endOfInput with
      | .ok (_, last) => ⟨some (.node .path (t :: trees)), last, (linksOf order c).misses⟩
      | .error m => ⟨none, stop, (linksOf order c).misses ++ [m]⟩ := by
  have hc := chainOf_eq order c
  simp only [h, List.cons_ne_nil, if_false] at hc
  simp only [pathOf, Bind.bind, bind, anchored_some hc]
  cases stop.take .endOfInput with
  | error m => rfl
  | ok p => simp [Pure.pure, pure]

/-- Where there is no path, the end of the input was missed behind a chain, or there is no chain. -/
theorem pathOf_none {order : List Alternative} {c : Cursor} (h : (pathOf order c).value = none) :
    ((fold c (linksOf order c).links).1 = [] ∧ (pathOf order c).misses = (linksOf order c).misses) ∨
    ((fold c (linksOf order c).links).1 ≠ [] ∧ (pathOf order c).misses =
      (linksOf order c).misses ++ [⟨(fold c (linksOf order c).links).2.front.offset, .endOfInput⟩]) := by
  cases hfold : fold c (linksOf order c).links with
  | mk trees stop =>
    cases trees with
    | nil => exact .inl ⟨rfl, by rw [pathOf_nil hfold]⟩
    | cons t trees =>
      rw [pathOf_cons hfold] at h ⊢
      cases htake : stop.take .endOfInput with
      | ok p =>
        rw [htake] at h
        cases h
      | error m =>
        obtain ⟨rfl, -⟩ := Cursor.take_error htake
        exact .inr ⟨List.cons_ne_nil _ _, rfl⟩

end Rule

end JsonPath
