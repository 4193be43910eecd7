/-
  JsonPath.Proofs.Nesting — a chain read by recursion.

  A chain can be read as it nests: one or more selectors, where `@` is an alternative
  among the others and calls for a chain of its own. `nestedChain` does that, and
  `nestedChain_eq` is its recursion as one writes it down. Its depth is the nesting of the
  source, which `chain` avoids: that one collects links without any recursion and folds
  them afterwards.

  The two look for things in a different order, and the recursion looks twice: where a
  nested chain has ended, the chain around it misses everything again. Where an `@` is
  followed by nothing, the alternatives behind it are still tried. But both follow one run
  (`Run.unique`), and what either misses away from the end of that run lies behind it.

  Proved: `chain_agrees_nested`.
-/

import JsonPath.Proofs.Order

namespace JsonPath

open Grammar

namespace Rule

/-! ## Choice -/

section Choice

variable {γ α : Type} {r s : Rule γ α} {c stop : γ} {ms : List Miss}

theorem orElse_none (h : r c = ⟨none, stop, ms⟩) : (r <|> s) c = ⟨(s c).value, (s c).stop, ms ++ (s c).misses⟩ := by
  show orElse r (fun _ => s) c = _
  rw [orElse, h]

theorem orElse_some {a : α} (h : r c = ⟨some a, stop, ms⟩) : (r <|> s) c = ⟨some a, stop, ms⟩ := by
  show orElse r (fun _ => s) c = _
  rw [orElse, h]

theorem firstOf_append (rs ss : List (Rule γ α)) (c : γ) : firstOf (rs ++ ss) c = (firstOf rs <|> firstOf ss) c := by
  induction rs with
  | nil => exact (orElse_none (r := firstOf []) rfl).symm
  | cons r rs ih =>
    show (attempt r <|> firstOf (rs ++ ss)) c = _
    cases h : attempt r c with
    | mk value stop ms =>
      cases value with
      | none =>
        rw [orElse_none h, ih]
        have hcons : firstOf (r :: rs) c = ⟨(firstOf rs c).value, (firstOf rs c).stop, ms ++ (firstOf rs c).misses⟩ :=
          orElse_none h
        cases hrs : firstOf rs c with
        | mk value last ns =>
          rw [hrs] at hcons
          cases value with
          | none => rw [orElse_none hcons, orElse_none hrs, List.append_assoc]
          | some a => rw [orElse_some hcons, orElse_some hrs]
      | some a =>
        rw [orElse_some h]
        exact (orElse_some (r := firstOf (r :: rs)) (orElse_some h)).symm

theorem stop_firstOf {rs : List (Rule γ α)} (h : (firstOf rs c).value = none) : (firstOf rs c).stop = c := by
  induction rs with
  | nil => rfl
  | cons r rs ih =>
    have hcons : firstOf (r :: rs) c = (attempt r <|> firstOf rs) c := rfl
    cases ha : attempt r c with
    | mk value stop ms =>
      rw [hcons] at h ⊢
      cases value with
      | none =>
        rw [orElse_none ha] at h ⊢
        exact ih h
      | some a =>
        rw [orElse_some ha] at h
        cases h

end Choice

/-! ## Repetition -/

section Repetition

variable {γ α β : Type} [Place γ]

/-- `r` as often as it has a value. A round that does not move on is the last. -/
def many (r : Rule γ α) (c : γ) : Reply γ (List α) :=
  match r c with
  | ⟨none, _, misses⟩ => ⟨some [], c, misses⟩
  | ⟨some a, stop, misses⟩ =>
    if Place.remaining stop < Place.remaining c then
      let more := many r stop
      ⟨more.value.map (a :: ·), more.stop, misses ++ more.misses⟩
    else ⟨some [a], stop, misses⟩
termination_by Place.remaining c

def oneOrMore (r : Rule γ α) : Rule γ (List α) := do
  let a ← r
  let as ← many r
  return a :: as

theorem many_none {r : Rule γ α} {c stop : γ} {ms : List Miss} (h : r c = ⟨none, stop, ms⟩) :
    many r c = ⟨some [], c, ms⟩ := by
  rw [many, h]

theorem many_some {r : Rule γ α} {c stop : γ} {a : α} {ms : List Miss} (h : r c = ⟨some a, stop, ms⟩)
    (hlt : Place.remaining stop < Place.remaining c) :
    many r c = ⟨(many r stop).value.map (a :: ·), (many r stop).stop, ms ++ (many r stop).misses⟩ := by
  rw [many, h]
  exact if_pos hlt

theorem forward_many {r : Rule γ α} (hr : Advances r) : Forward (many r : Rule γ (List α)) := by
  intro c
  fun_induction many r c with
  | case1 => exact Nat.le_refl _
  | case2 c a stop ms h hlt more ih => exact Nat.le_trans ih (Nat.le_of_lt hlt)
  | case3 c a stop ms h hlt =>
    have hadv := hr c
    rw [h] at hadv
    exact absurd (hadv nofun) hlt

theorem many_congr {r s : Rule γ α} {c : γ} (h : ∀ d, Place.remaining d ≤ Place.remaining c → r d = s d) :
    many r c = many s c := by
  fun_induction many r c with
  | case1 c _ ms hr =>
    rw [h c (Nat.le_refl _)] at hr
    rw [many_none hr]
  | case2 c a stop ms hr hlt more ih =>
    rw [h c (Nat.le_refl _)] at hr
    rw [many_some hr hlt]
    simp only [more, ih fun d hd => h d (Nat.le_trans hd (Nat.le_of_lt hlt))]
  | case3 c a stop ms hr hlt =>
    rw [h c (Nat.le_refl _)] at hr
    rw [many, hr]
    exact (if_neg hlt).symm

theorem value_many (r : Rule γ α) (c : γ) : ∃ as, (many r c).value = some as := by
  fun_induction many r c with
  | case1 => exact ⟨[], rfl⟩
  | case2 c a stop ms h hlt more ih =>
    obtain ⟨as, has⟩ := ih
    exact ⟨a :: as, congrArg (Option.map (a :: ·)) has⟩
  | case3 c a => exact ⟨[a], rfl⟩

/-- One or more is many, unless there is none. -/
theorem oneOrMore_eq {r : Rule γ α} (hr : Advances r) {c : γ} (hback : (r c).value = none → (r c).stop = c) :
    oneOrMore r c = ⟨(many r c).value.filter (!·.isEmpty), (many r c).stop, (many r c).misses⟩ := by
  have hadv := hr c
  cases h : r c with
  | mk value stop ms =>
    rw [h] at hback hadv
    cases value with
    | none =>
      obtain rfl : stop = c := hback rfl
      rw [many_none h]
      simp only [oneOrMore, Bind.bind, bind, h]
      rfl
    | some a =>
      obtain ⟨as, has⟩ := value_many r stop
      rw [many_some h (hadv (Option.some_ne_none a))]
      cases hmore : many r stop with
      | mk value last ns =>
        rw [hmore] at has
        obtain rfl : value = some as := has
        simp only [oneOrMore, Bind.bind, bind, h, hmore, Pure.pure, pure, List.append_nil]
        rfl

end Repetition

/-! ## Chains that nest -/

section Nested

variable {γ : Type} [Place γ]

/-- `@` and what `r` reads behind it. -/
def holding (r : Rule γ (List (Tree Token))) : Rule γ (Tree Token) := do
  let _ ← mark .at
  let trees ← r
  return .node .current trees

/-- Any selector, where `@` holds what `r` reads. -/
def selectorHolding (r : Rule γ (List (Tree Token))) : Rule γ (Tree Token) :=
  firstOf [root, descent, wildcard, holding r, field, index]

/-- `r`, where less remains than at `c`. -/
def past (c : γ) (r : (d : γ) → Place.remaining d < Place.remaining c → Reply γ (List (Tree Token))) :
    Rule γ (List (Tree Token)) := fun d =>
  if h : Place.remaining d < Place.remaining c then r d h else ⟨none, d, []⟩

/-- One or more selectors, where `@` holds a chain that is read in the same way. -/
def nestedChain (c : γ) : Reply γ (List (Tree Token)) :=
  oneOrMore (selectorHolding (past c fun d _ => nestedChain d)) c
termination_by Place.remaining c

theorem holding_congr {r s : Rule γ (List (Tree Token))} {c : γ}
    (h : ∀ d, Place.remaining d < Place.remaining c → r d = s d) : holding r c = holding s c := by
  have hlt := advances_mark .at c
  cases hm : (mark .at : Rule γ Token) c with
  | mk value stop ms =>
    rw [hm] at hlt
    cases value with
    | none => simp only [holding, Bind.bind, bind, hm]
    | some a =>
      have hrs : r stop = s stop := h stop (hlt (Option.some_ne_none a))
      simp only [holding, Bind.bind, bind, hm, hrs]

theorem selectorHolding_congr {r s : Rule γ (List (Tree Token))} {c : γ}
    (h : ∀ d, Place.remaining d < Place.remaining c → r d = s d) : selectorHolding r c = selectorHolding s c := by
  simp only [selectorHolding, firstOf, HOrElse.hOrElse, OrElse.orElse, orElse, attempt, holding_congr h]

theorem advances_selectorHolding {r : Rule γ (List (Tree Token))} (hr : Forward r) : Advances (selectorHolding r) := by
  refine advances_firstOf ?_
  simp only [List.forall_mem_cons, List.not_mem_nil, IsEmpty.forall_iff, implies_true, and_true]
  refine ⟨advances_root, advances_descent, advances_wildcard, ?_, advances_field, advances_index⟩
  exact advances_bind (advances_mark _) fun _ => forward_bind hr fun _ => forward_pure _

theorem forward_past {c : γ} {r : (d : γ) → Place.remaining d < Place.remaining c → Reply γ (List (Tree Token))}
    (hr : ∀ d h, Place.remaining (r d h).stop ≤ Place.remaining d) : Forward (past c r) := by
  intro d
  unfold past
  split
  · exact hr d _
  · exact Nat.le_refl _

theorem forward_nestedChain : Forward (nestedChain : Rule γ (List (Tree Token))) := by
  intro c
  induction hn : Place.remaining c using Nat.strong_induction_on generalizing c with
  | _ n ih =>
    subst hn
    have hadv := advances_selectorHolding (forward_past (c := c) fun d h => ih _ h d rfl)
    rw [nestedChain, oneOrMore_eq hadv stop_firstOf]
    exact forward_many hadv c

/-- The recursion as it reads: behind an `@` there is always less remaining. -/
theorem nestedChain_eq : (nestedChain : Rule γ (List (Tree Token))) = oneOrMore (selectorHolding nestedChain) := by
  funext c
  have hmany : many (selectorHolding (past c fun d _ => nestedChain d)) c = many (selectorHolding nestedChain) c := by
    refine many_congr fun d hd => selectorHolding_congr fun e he => ?_
    exact dif_pos (Nat.lt_of_lt_of_le he hd)
  rw [nestedChain, oneOrMore_eq (advances_selectorHolding (forward_past fun d _ => forward_nestedChain d)) stop_firstOf,
    hmany, oneOrMore_eq (advances_selectorHolding forward_nestedChain) stop_firstOf]

theorem advances_selectorHolding_nested : Advances (selectorHolding nestedChain : Rule γ (Tree Token)) :=
  advances_selectorHolding forward_nestedChain

theorem nestedChain_apply (c : γ) : nestedChain c =
    ⟨(many (selectorHolding nestedChain) c).value.filter (!·.isEmpty), (many (selectorHolding nestedChain) c).stop,
      (many (selectorHolding nestedChain) c).misses⟩ :=
  (congrFun nestedChain_eq c).trans (oneOrMore_eq advances_selectorHolding_nested stop_firstOf)

end Nested

/-! ## The reply of one selector -/

section Selectors

variable {c stop stop' : Cursor} {ms ns : List Miss} {n : Miss} {a : Token} {t : Tree Token}
  {r : Rule Cursor (List (Tree Token))}

/-- The alternatives before `@`. -/
def leading : List Alternative := [.root, .descent, .wildcard]

/-- The alternatives behind `@`. -/
def trailing : List Alternative := [.field, .index]

theorem selectorHolding_eq (r : Rule Cursor (List (Tree Token))) (c : Cursor) :
    selectorHolding r c = (selectorOf leading <|> (attempt (holding r) <|> selectorOf trailing) : Rule _ _) c :=
  firstOf_append (leading.map Alternative.rule) (holding r :: trailing.map Alternative.rule) c

theorem selectorHolding_of_leading (h : selectorOf leading c = ⟨some t, stop, ms⟩) :
    selectorHolding r c = ⟨some t, stop, ms⟩ := by
  rw [selectorHolding_eq, orElse_some h]

theorem selectorHolding_of_error (h : selectorOf leading c = ⟨none, stop, ms⟩) (hat : c.take (.mark .at) = .error n) :
    selectorHolding r c =
      ⟨(selectorOf trailing c).value, (selectorOf trailing c).stop, ms ++ n :: (selectorOf trailing c).misses⟩ := by
  have hheld : holding r c = ⟨none, c, [n]⟩ := take_bind_error hat _
  have hnone : attempt (holding r) c = ⟨none, c, [n]⟩ := by rw [attempt, hheld]
  rw [selectorHolding_eq, orElse_none h, orElse_none hnone, List.singleton_append]

theorem selectorHolding_of_held (h : selectorOf leading c = ⟨none, stop, ms⟩)
    (hat : c.take (.mark .at) = .ok (a, stop')) {trees : List (Tree Token)} {last : Cursor}
    (hr : r stop' = ⟨some trees, last, ns⟩) : selectorHolding r c = ⟨some (.node .current trees), last, ms ++ ns⟩ := by
  have hheld : holding r c = ⟨some (.node .current trees), last, ns⟩ := by
    refine (take_bind_ok hat _).trans ?_
    simp only [Bind.bind, bind, hr, Pure.pure, pure, List.append_nil]
  have hsome : attempt (holding r) c = ⟨some (.node .current trees), last, ns⟩ := by rw [attempt, hheld]
  rw [selectorHolding_eq, orElse_none h, orElse_some hsome]

theorem selectorHolding_of_dangling (h : selectorOf leading c = ⟨none, stop, ms⟩)
    (hat : c.take (.mark .at) = .ok (a, stop')) {last : Cursor} (hr : r stop' = ⟨none, last, ns⟩) :
    selectorHolding r c = ⟨(selectorOf trailing c).value, (selectorOf trailing c).stop,
      ms ++ (ns ++ (selectorOf trailing c).misses)⟩ := by
  have hheld : holding r c = ⟨none, last, ns⟩ := by
    refine (take_bind_ok hat _).trans ?_
    simp only [Bind.bind, bind, hr]
  have hnone : attempt (holding r) c = ⟨none, c, ns⟩ := by rw [attempt, hheld]
  rw [selectorHolding_eq, orElse_none h, orElse_none hnone]

/-- A selector that was read is a step that was followed. -/
theorem exists_step_of_selectorOf {order : List Alternative} (h : selectorOf order c = ⟨some t, stop, ms⟩) :
    ∃ s : Step, Follows c (s.word.map Token.terminal) s.word stop ∧ s.trees = [t] := by
  have hc := covers_selectorOf order c
  rw [h] at hc
  obtain ⟨f, -, as, hfollow, s, rfl, ht⟩ := hc.followed t rfl
  obtain rfl := hfollow.terminals
  exact ⟨s, hfollow, ht⟩

theorem exists_form_of_selectorOf {order : List Alternative} {value : Option (Tree Token)}
    (h : selectorOf order c = ⟨value, stop, ms⟩) : ∀ m ∈ ms, ∃ f ∈ forms, Misses c f m := by
  have hmisses := misses_selectorOf order c
  rwa [h] at hmisses

theorem selectorOf_eq_none_of_at (order : List Alternative) (hat : c.take (.mark .at) = .ok (a, stop)) :
    (selectorOf order c).value = none := by
  cases h : selectorOf order c with
  | mk value last ms =>
    cases value with
    | none => rfl
    | some t =>
      obtain ⟨s, hs, -⟩ := exists_step_of_selectorOf h
      have hform := Derivation.word_mem_selectorForms s
      have hfollow : Follows c [.mark .at] [a] stop := .cons (by simp) hat (.nil stop)
      exact absurd (form_unique_of_follows (selectorForm_mem hform) (List.mem_cons_self ..) hs hfollow)
        (selectorForm_ne_at hform)

end Selectors

end Rule

/-! ## Where both are stuck -/

namespace Stuck

variable {c last : Cursor} {ms ns : List Miss}

/-- Neither the order of the misses nor how often they came matters. -/
theorem congr_mem (h : Stuck last ms) (hmem : ∀ m, m ∈ ns ↔ m ∈ ms) : Stuck last ns := by
  refine ⟨fun f hf => ?_, fun m hm => h.misses m ((hmem m).mp hm)⟩
  obtain ⟨m, hm, hrep⟩ := h.missed f hf
  exact ⟨m, hm, hrep.mono fun n => (hmem n).mpr⟩

theorem append (h : Stuck last ms) (h' : Stuck last ns) : Stuck last (ms ++ ns) := by
  refine ⟨fun f hf => ?_, fun m hm => ?_⟩
  · obtain ⟨m, hm, hrep⟩ := h.missed f hf
    exact ⟨m, hm, hrep.mono fun _ => List.mem_append_left _⟩
  · rcases List.mem_append.mp hm with hm | hm
    · exact h.misses m hm
    · exact h'.misses m hm

end Stuck

/-! ## Runs that the recursion follows -/

namespace Rule

/-- The value and the place are those of a run, folded, and the misses those at its end. -/
def Folds (c : Cursor) (reply : Reply Cursor (List (Tree Token))) : Prop :=
  ∃ links last, Run c links last ∧ Stuck last reply.misses ∧ reply.value = some (fold c links).1 ∧
    reply.stop = (fold c links).2

theorem Folds.selector {c stop : Cursor} {reply : Reply Cursor (List (Tree Token))} (h : Folds stop reply) {s : Step}
    (hf : Follows c (s.word.map Token.terminal) s.word stop) {tree : Tree Token} (ht : s.trees = [tree])
    {ns : List Miss} (hns : ∀ m ∈ ns, ∃ f ∈ forms, Misses c f m) :
    Folds c ⟨reply.value.map (tree :: ·), reply.stop, ns ++ reply.misses⟩ := by
  obtain ⟨links, last, hrun, hstuck, hvalue, hstop⟩ := h
  have hform := selectorForm_mem (Derivation.word_mem_selectorForms s)
  refine ⟨_, last, .selector hf ht hrun, hstuck.prepend hrun.offset_le hform hf hns, ?_, ?_⟩
  · rw [hvalue]
    rfl
  · exact hstop

/-- Dangling `@`s are a run that folds into nothing. -/
theorem exists_run_of_dangling {c last : Cursor} {n : Nat} {as : List Token}
    (h : Follows c (List.replicate n (.mark .at)) as last) : ∃ links, Run c links last ∧ fold c links = ([], c) := by
  induction n generalizing c as with
  | zero =>
    cases h
    exact ⟨[], .nil _, rfl⟩
  | succ n ih =>
    rw [List.replicate_succ] at h
    cases h with
    | cons _ htake h =>
      obtain ⟨links, hrun, hfold⟩ := ih h
      exact ⟨_, .current htake hrun, by simp only [fold, hfold]⟩

/-- What the recursion looks for where a run has ended, it looked for already. -/
theorem Folds.again {c last behind : Cursor} {links : List (Link × Cursor)} {ms : List Miss} (hrun : Run c links last)
    (hstuck : Stuck last ms) {trees : List (Tree Token)} (hfold : fold c links = (trees, behind))
    {reply : Reply Cursor (List (Tree Token))} (h : Folds behind reply) :
    reply.value = some [] ∧ reply.stop = behind ∧ Stuck last reply.misses := by
  obtain ⟨⟨n, as, hdangling⟩, -⟩ := fold_run hrun
  rw [hfold] at hdangling
  obtain ⟨links', hrun', hfold'⟩ := exists_run_of_dangling hdangling
  obtain ⟨links'', last', hrun'', hstuck'', hvalue, hstop⟩ := h
  obtain ⟨rfl, rfl⟩ := hrun'.unique hrun'' hstuck hstuck''
  rw [hfold'] at hvalue hstop
  exact ⟨hvalue, hstop, hstuck''⟩

theorem stuck_of_none {c stop stop' : Cursor} {ms ns : List Miss} {n : Miss}
    (h : selectorOf leading c = ⟨none, stop, ms⟩) (hat : c.take (.mark .at) = .error n)
    (h' : selectorOf trailing c = ⟨none, stop', ns⟩) : Stuck c (ms ++ n :: ns) := by
  have hc := covers_selectorOf leading c
  have hc' := covers_selectorOf trailing c
  rw [h] at hc
  rw [h'] at hc'
  refine ⟨fun f hf => ?_, fun m hm => .inl ?_⟩
  · rcases List.mem_cons.mp hf with rfl | hf
    · exact ⟨n, .here hat, .inl (by simp)⟩
    · have hsplit : selectorForms = leading.flatMap Alternative.forms ++ trailing.flatMap Alternative.forms := rfl
      rw [hsplit, List.mem_append] at hf
      rcases hf with hf | hf
      · obtain ⟨m, hm, hrep⟩ := hc.missed rfl f hf
        exact ⟨m, hm, hrep.mono fun _ => List.mem_append_left _⟩
      · obtain ⟨m, hm, hrep⟩ := hc'.missed rfl f hf
        exact ⟨m, hm, hrep.mono fun _ hk => List.mem_append_right _ (List.mem_cons_of_mem _ hk)⟩
  · rcases List.mem_append.mp hm with hm | hm
    · exact exists_form_of_selectorOf h m hm
    · rcases List.mem_cons.mp hm with rfl | hm
      · exact ⟨[.mark .at], List.mem_cons_self .., .here hat⟩
      · exact exists_form_of_selectorOf h' m hm

section At

variable {c d behind stop last : Cursor} {a : Token} {links : List (Link × Cursor)} {ms ns : List Miss}

/-- An `@` that holds nothing dangles, and nothing else is read in its place. -/
theorem folds_of_dangling (hat : c.take (.mark .at) = .ok (a, d)) (h : selectorOf leading c = ⟨none, stop, ms⟩)
    (hrun : Run d links last) (hstuck : Stuck last ns) (hfold : fold d links = ([], behind))
    (hchain : nestedChain d = ⟨none, behind, ns⟩) : Folds c (many (selectorHolding nestedChain) c) := by
  have hfollow : Follows c [.mark .at] [a] d := .cons (by simp) hat (.nil d)
  have hreply := selectorHolding_of_dangling h hat hchain
  have hnone := selectorOf_eq_none_of_at trailing hat
  cases htrailing : selectorOf trailing c with
  | mk value stop' ks =>
    rw [htrailing] at hreply hnone
    obtain rfl : value = none := hnone
    rw [many_none hreply]
    have hmisses : ∀ m ∈ ms ++ ks, ∃ f ∈ forms, Misses c f m :=
      List.forall_mem_append.mpr ⟨exists_form_of_selectorOf h, exists_form_of_selectorOf htrailing⟩
    have hbehind := hstuck.prepend hrun.offset_le (List.mem_cons_self ..) hfollow hmisses
    have hc : fold c ((.current, d) :: links) = ([], c) := by simp only [fold, hfold]
    refine ⟨_, last, .current hat hrun, hbehind.congr_mem fun m => ?_, ?_, ?_⟩
    · simp only [List.mem_append, or_comm, or_left_comm]
    · rw [hc]
    · rw [hc]

/-- An `@` that holds something is one selector, and behind it the run has ended. -/
theorem folds_of_held (hat : c.take (.mark .at) = .ok (a, d)) (h : selectorOf leading c = ⟨none, stop, ms⟩)
    (hrun : Run d links last) (hstuck : Stuck last ns) {t : Tree Token} {trees : List (Tree Token)}
    (hfold : fold d links = (t :: trees, behind)) (hchain : nestedChain d = ⟨some (t :: trees), behind, ns⟩)
    (ih : behind.rest.length < c.rest.length → Folds behind (many (selectorHolding nestedChain) behind)) :
    Folds c (many (selectorHolding nestedChain) c) := by
  have hfollow : Follows c [.mark .at] [a] d := .cons (by simp) hat (.nil d)
  have hreply := selectorHolding_of_held h hat hchain
  have hadvanced := advances_selectorHolding_nested c
  rw [hreply] at hadvanced
  have hless : behind.rest.length < c.rest.length := hadvanced nofun
  obtain ⟨hnil, hstay, hagain⟩ := Folds.again hrun hstuck hfold (ih hless)
  rw [many_some hreply hless, hnil, hstay]
  have hc : fold c ((.current, d) :: links) = ([.node .current (t :: trees)], behind) := by simp only [fold, hfold]
  have hbehind :=
    (hstuck.append hagain).prepend hrun.offset_le (List.mem_cons_self ..) hfollow (exists_form_of_selectorOf h)
  refine ⟨_, last, .current hat hrun, ?_, ?_, ?_⟩
  · rwa [List.append_assoc]
  · rw [hc]
    rfl
  · rw [hc]

theorem folds_of_at (hat : c.take (.mark .at) = .ok (a, d)) (h : selectorOf leading c = ⟨none, stop, ms⟩)
    (ih : ∀ e : Cursor, e.rest.length < c.rest.length → Folds e (many (selectorHolding nestedChain) e)) :
    Folds c (many (selectorHolding nestedChain) c) := by
  have hlt : d.rest.length < c.rest.length := by
    have hmark := advances_mark .at c
    rw [mark_eq, hat] at hmark
    exact hmark nofun
  obtain ⟨links, last, hrun, hstuck, hvalue, hstop⟩ := ih d hlt
  have hchain := nestedChain_apply d
  rw [hvalue, hstop] at hchain
  generalize (many (selectorHolding nestedChain) d).misses = ns at hstuck hchain
  obtain ⟨trees, behind, hfold⟩ : ∃ trees behind, fold d links = (trees, behind) := ⟨_, _, rfl⟩
  rw [hfold] at hchain
  cases trees with
  | nil => exact folds_of_dangling hat h hrun hstuck hfold hchain
  | cons t trees => exact folds_of_held hat h hrun hstuck hfold hchain (ih behind)

end At

/-- The recursion reads a run, folded: a selector at a time, or an `@` and what is behind it. -/
theorem folds_many (c : Cursor) : Folds c (many (selectorHolding nestedChain) c) := by
  induction hn : c.rest.length using Nat.strong_induction_on generalizing c with
  | _ n ih =>
    subst hn
    have hadv := advances_selectorHolding_nested c
    cases h : selectorOf leading c with
    | mk value stop ms =>
      have hms := exists_form_of_selectorOf h
      cases value with
      | some t =>
        have hreply := selectorHolding_of_leading (r := nestedChain) h
        obtain ⟨s, hs, ht⟩ := exists_step_of_selectorOf h
        rw [hreply] at hadv
        rw [many_some hreply (hadv nofun)]
        exact (ih _ (hadv nofun) stop rfl).selector hs ht hms
      | none =>
        cases hat : c.take (.mark .at) with
        | ok p => exact folds_of_at hat h fun e he => ih _ he e rfl
        | error n =>
          have hreply := selectorHolding_of_error (r := nestedChain) h hat
          cases htrailing : selectorOf trailing c with
          | mk value stop' ks =>
            rw [htrailing] at hreply
            rw [hreply] at hadv
            cases value with
            | some t =>
              obtain ⟨s, hs, ht⟩ := exists_step_of_selectorOf htrailing
              rw [many_some hreply (hadv nofun)]
              refine (ih _ (hadv nofun) stop' rfl).selector hs ht ?_
              refine List.forall_mem_append.mpr ⟨hms, List.forall_mem_cons.mpr ⟨?_, exists_form_of_selectorOf htrailing⟩⟩
              exact ⟨[.mark .at], List.mem_cons_self .., .here hat⟩
            | none =>
              rw [many_none hreply]
              exact ⟨[], c, .nil c, stuck_of_none h hat htrailing, rfl, rfl⟩

end Rule

/-- The flat reading of a chain and the recursive one have the same value at the same place
    and leave the same record, whatever was missed before. -/
theorem chain_agrees_nested :
    (Rule.nestedChain : Rule Cursor (List (Tree Token))) = Rule.oneOrMore (Rule.selectorHolding Rule.nestedChain) ∧
    ∀ c : Cursor, (Rule.chain c).Agrees (Rule.nestedChain c) := by
  refine ⟨Rule.nestedChain_eq, fun c => ?_⟩
  obtain ⟨last, hrun, hstuck⟩ := Rule.linksOf_run Alternative.mem_standard c
  obtain ⟨links, last', hrun', hstuck', hvalue, hstop⟩ := Rule.folds_many c
  obtain ⟨rfl, rfl⟩ := hrun.unique hrun' hstuck hstuck'
  have hchain := Rule.chainOf_eq Alternative.standard c
  simp only at hchain
  rw [Rule.chain, hchain, Rule.nestedChain_apply, hvalue, hstop]
  refine ⟨?_, rfl, hstuck.noteAll_eq hstuck'⟩
  cases (Rule.fold c (Rule.linksOf Alternative.standard c).links).1 with
  | nil => rfl
  | cons t trees => rfl

end JsonPath
