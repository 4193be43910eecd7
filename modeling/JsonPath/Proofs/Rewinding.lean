/-
  JsonPath.Proofs.Rewinding — where a session stands behind a call that fails, and behind a chain.

  A rule may stop further on without a value. Those that a session is meant to try do not:
  a probe takes nothing that it does not find, `attempt` goes back, and so does whatever is
  taken behind blanks. `GoesBack` says that of a rule, `Restores` of a rule that tells by
  its outcome whether it found something. A chain goes back twice over, for it also leaves
  the `@`s that nothing follows: `fold` drops their places, from the last to the first.

  `skipToEnd` is no call that is meant to be tried. It looks for the end where a token or
  nothing is called for, so it has only a yes or a no to tell, and stays behind the blanks
  with both.

  Proved: `Session.failure_rewinds`.
-/

import JsonPath.Proofs.Literals
import JsonPath.Proofs.Nesting

namespace JsonPath

open Grammar

namespace Rule

/-! ## Rules that go back -/

section GoesBack

variable {γ α β : Type}

/-- Without a value the rule stops where it started. -/
def GoesBack (r : Rule γ α) : Prop := ∀ c, (r c).value = none → (r c).stop = c

theorem goesBack_attempt (r : Rule γ α) : GoesBack (attempt r) := by
  intro c h
  rw [attempt_apply] at h ⊢
  simp only at h
  simp only [h, Option.isNone_none, if_true]

theorem goesBack_map {r : Rule γ α} (hr : GoesBack r) (f : α → β) : GoesBack (f <$> r) := by
  intro c h
  rw [map_apply] at h ⊢
  exact hr c (Option.map_eq_none_iff.mp h)

theorem goesBack_spaced [Place γ] (r : Rule γ α) : GoesBack (spaced r) := goesBack_attempt _

theorem goesBack_probe (t : Terminal) : GoesBack (probe t : Rule Cursor Token) := by
  intro c h
  change (c.probe t).value = none at h
  show (c.probe t).stop = c
  unfold Cursor.probe at h ⊢
  split
  · rename_i hw
    rw [hw] at h
    cases h
  · rfl

/-- A chain without a selector has only `@`s that nothing follows, and the first of them starts where the chain does. -/
theorem fold_eq_nil {c stop : γ} {links : List (Link × γ)} (h : fold c links = ([], stop)) : stop = c := by
  cases links with
  | nil => exact (congrArg Prod.snd h).symm
  | cons x links =>
    obtain ⟨link, d⟩ := x
    cases link with
    | selector tree => cases h
    | current =>
      unfold fold at h
      split at h
      · exact (congrArg Prod.snd h).symm
      · cases h

theorem goesBack_chainOf [Place γ] (order : List Alternative) : GoesBack (chainOf order : Rule γ _) := by
  intro c h
  unfold chainOf at h ⊢
  simp only at h ⊢
  split at h
  · rename_i hfold
    exact fold_eq_nil hfold
  · cases h

end GoesBack

end Rule

/-! ## Calls that are tried -/

/-- Whether an outcome says that nothing was found. -/
def Outcome.isFailure : Outcome → Bool
  | nothing => true
  | truth b => !b
  | _ => false

/-- The rules that go back by themselves. -/
def RuleName.goesBack : RuleName → Bool
  | chain | selector | root | bareKey | sign | number => true
  | _ => false

/-- The calls that are tried, and leave the session where it is if nothing comes of them. -/
def Call.goesBack : Call → Bool
  | probe _ | probeMark _ | take _ | takeMark _ | attempt _ => true
  | run r => r.goesBack
  | _ => false

namespace Rule

section Restores

variable {α : Type}

/-- No value of the rule is a failure. -/
def Conclusive (r : Rule Cursor Outcome) : Prop := ∀ c o, (r c).value = some o → o.isFailure = false

/-- Without a value, or with one that is a failure, the rule stops where it started. -/
def Restores (r : Rule Cursor Outcome) : Prop := ∀ c, ((r c).value.getD .nothing).isFailure = true → (r c).stop = c

theorem conclusive_map (r : Rule Cursor α) {f : α → Outcome} (hf : ∀ a, (f a).isFailure = false) :
    Conclusive (f <$> r) := by
  intro c o h
  rw [map_apply] at h
  obtain ⟨a, -, rfl⟩ := Option.map_eq_some_iff.mp h
  exact hf a

theorem conclusive_rule (r : RuleName) : Conclusive r.rule := by
  cases r
  all_goals exact conclusive_map _ fun _ => rfl

theorem conclusive_attempt {r : Rule Cursor Outcome} (h : Conclusive r) : Conclusive (attempt r) := by
  intro c o ho
  rw [attempt_apply] at ho
  exact h c o ho

theorem restores_of_conclusive {r : Rule Cursor Outcome} (h : Conclusive r) (hback : GoesBack r) : Restores r := by
  intro c hfails
  cases hvalue : (r c).value with
  | none => exact hback c hvalue
  | some o =>
    rw [hvalue, Option.getD_some, h c o hvalue] at hfails
    cases hfails

theorem restores_test {r : Rule Cursor α} (hback : GoesBack r) : Restores (Outcome.truth <$> test r) := by
  intro c hfails
  rw [map_apply] at hfails ⊢
  apply hback c
  simpa [test, Outcome.isFailure] using hfails

theorem restores_map {r : Rule Cursor α} (hback : GoesBack r) {f : α → Outcome} (hf : ∀ a, (f a).isFailure = false) :
    Restores (f <$> r) :=
  restores_of_conclusive (conclusive_map r hf) (goesBack_map hback f)

theorem restores_probe (t : Terminal) : Restores (Call.rule (.probe t)) := by
  cases t with
  | endOfInput => exact restores_test (goesBack_probe _)
  | mark | atom => exact restores_map (goesBack_probe _) fun _ => rfl

theorem restores_take (t : Terminal) : Restores (Call.rule (.take t)) := by
  cases t with
  | endOfInput => exact restores_test (goesBack_spaced _)
  | mark | atom => exact restores_map (goesBack_spaced _) fun _ => rfl

theorem restores_rule {r : RuleName} (h : r.goesBack = true) : Restores r.rule := by
  cases r with
  | chain => exact restores_map (goesBack_chainOf _) fun _ => rfl
  | selector => exact restores_map (fun _ => stop_firstOf) fun _ => rfl
  | root => exact restores_map (goesBack_map (goesBack_spaced _) _) fun _ => rfl
  | bareKey => exact restores_map (goesBack_map (goesBack_spaced _) _) fun _ => rfl
  | sign => exact restores_map (goesBack_map (goesBack_spaced _) _) fun _ => rfl
  | number => exact restores_map (goesBack_map (goesBack_spaced _) _) fun _ => rfl
  | _ => cases h

theorem restores_call {c : Call} (h : c.goesBack = true) : Restores c.rule := by
  cases c with
  | probe t => exact restores_probe t
  | take t => exact restores_take t
  | probeMark t =>
    cases t with
    | mark m => exact restores_map (goesBack_probe _) fun _ => rfl
    | atom | endOfInput => exact fun c hfails => nomatch hfails
  | takeMark t =>
    cases t with
    | mark m => exact restores_map (goesBack_spaced _) fun _ => rfl
    | atom | endOfInput => exact fun c hfails => nomatch hfails
  | attempt r => exact restores_of_conclusive (conclusive_attempt (conclusive_rule r)) (goesBack_attempt _)
  | run r => exact restores_rule h
  | blanks | skipToEnd | anchored | path => cases h

end Restores

end Rule

namespace Session

theorem perform_fst (s : Session) {op : Operation} (h : op.readsWhole = false) :
    (s.perform op).1 = (s.reply op).value.getD .nothing := by
  unfold perform
  generalize s.reply op = reply
  obtain ⟨value, stop, ms⟩ := reply
  cases value with
  | none => simp [h]
  | some o => rfl

theorem readsWhole_of_goesBack {c : Call} (h : c.goesBack = true) : (Operation.call c).readsWhole = false := by
  cases c with
  | anchored | path => cases h
  | _ => rfl

theorem stop_of_failure {source : Text} {pos : Nat} {furthest : Furthest} {c : Call} (h : c.goesBack = true)
    (hfails : ((⟨source, pos, furthest⟩ : Session).perform (.call c)).1.isFailure = true) :
    ((⟨source, pos, furthest⟩ : Session).reply (.call c)).stop = pos := by
  rw [perform_fst _ (readsWhole_of_goesBack h), reply_call] at hfails
  have hstop := Rule.restores_call h _ hfails
  rw [reply_call]
  show Place.offset (c.rule (Cursor.seek source pos)).stop = _
  rw [hstop]
  rfl

theorem perform_of_failure {source : Text} {pos : Nat} {furthest : Furthest} {c : Call} (h : c.goesBack = true) :
    let tried := (⟨source, pos, furthest⟩ : Session).perform (.call c)
    tried.1.isFailure = true → tried.2 = ⟨source, pos, tried.2.furthest⟩ := by
  intro tried hfails
  have htried : tried.2 = _ := perform_snd ⟨source, pos, furthest⟩ (.call c)
  rw [htried, after, stop_of_failure h hfails]

end Session

/-! ## Where a chain ends -/

namespace Grammar.Derivation

theorem exists_tree (s : Step) : ∃ t, s.trees = [t] := by
  cases s using step_cases with
  | _ => simp

/-- The last selector of a chain: a step, or an `@` with the rest of the chain. -/
theorem exists_last (d : Chain) : ∃ earlier tree others word last, d.trees = earlier ++ [tree] ∧
    d.word = others ++ (word ++ [last]) ∧ Rule.IsTree (.either (.rule .step) (.rule .current)) (word ++ [last]) tree := by
  induction d using chain_induction with
  | single s =>
    obtain ⟨t, ht⟩ := exists_tree s
    rcases List.eq_nil_or_concat' s.word with hnil | ⟨word, last, hword⟩
    · exact absurd hnil s.step_word_ne_nil
    · refine ⟨[], t, [], word, last, ?_, ?_, .left s, hword, ?_⟩
      · rw [trees_single, ht, List.nil_append]
      · rw [word_single, hword, List.nil_append]
      · rw [trees_left, ht]
  | cons s d ih =>
    obtain ⟨earlier, tree, others, word, last, htrees, hword, hlast⟩ := ih
    refine ⟨s.trees ++ earlier, tree, s.word ++ others, word, last, ?_, ?_, hlast⟩
    · rw [trees_cons, htrees, List.append_assoc]
    · rw [word_cons, hword, List.append_assoc]
  | nest a h d ih =>
    let current : Derivation (.rule .current) := .rule (.both (.token a h) d)
    rcases List.eq_nil_or_concat' (nest a h d).word with hnil | ⟨word, last, hword⟩
    · exact absurd hnil (nest a h d).chain_word_ne_nil
    · refine ⟨[], .node .current d.trees, [], word, last, ?_, ?_, .right current, hword, trees_nest a h d⟩
      · rw [trees_nest, List.nil_append]
      · rw [hword, List.nil_append]

end Grammar.Derivation

theorem Stretch.stop_concat {b p : Text} {as : List Token} {a : Token} (h : Stretch b (as ++ [a]) p) :
    a.stop = (b.length + p.length : Nat) := by
  obtain ⟨q, r, rfl, -, hr⟩ := h.split
  cases hr with
  | @cons _ u w _ t _ _ _ hnil =>
    obtain rfl := hnil.eq_nil
    simp only [Token.behind, List.length_append, List.length_nil]
    omega

/-- Behind the end of the source there is nothing to follow. -/
theorem Follows.le_length {source : Text} {pos : Nat} {stop : Cursor} {ts : List Terminal} {as : List Token}
    (h : Follows (Cursor.seek source pos) ts as stop) (hts : ts ≠ []) : pos ≤ source.length := by
  by_contra hlt
  have hrest : (Cursor.seek source pos).rest = [] := by
    rw [Cursor.rest_seek, List.drop_eq_nil_iff]
    omega
  cases h with
  | nil => exact hts rfl
  | cons ht htake _ => exact Cursor.take_of_nil ht hrest htake

namespace Stuck

variable {last : Cursor} {ms : List Miss}

theorem selector_eq_none (h : Stuck last ms) : (Rule.selector last).value = none := by
  cases hs : Rule.selector last with
  | mk value stop ns =>
    cases value with
    | none => rfl
    | some tree =>
      obtain ⟨s, hfollow, -⟩ := Rule.exists_step_of_selectorOf hs
      exact absurd hfollow (h.not_follows (selectorForm_mem (Derivation.word_mem_selectorForms s)))

theorem at_eq_none (h : Stuck last ms) : (Rule.mark .at last).value = none := by
  rw [Rule.mark_eq]
  split
  · rename_i a stop htake
    have hfollow : Follows last [.mark .at] [a] stop := .cons (by simp) htake (.nil stop)
    exact absurd hfollow (h.not_follows (List.mem_cons_self ..))
  · rfl

end Stuck

namespace Rule

/-- What a chain comes to: behind its last token there are `@`s, or none, and then nothing that could go on. -/
theorem chain_some {c stop : Cursor} {trees : List (Tree Token)} {ms : List Miss} (h : chain c = ⟨some trees, stop, ms⟩) :
    (∃ d : Chain, d.trees = trees ∧ Follows c (d.word.map Token.terminal) d.word stop) ∧
    ∃ n as last, Follows stop (List.replicate n (.mark .at)) as last ∧
      (selector last).value = none ∧ (mark .at last).value = none := by
  obtain ⟨last, hrun, hstuck⟩ := linksOf_run Alternative.mem_standard c
  have hchain := chainOf_eq Alternative.standard c
  simp only at hchain
  rw [← chain, h] at hchain
  obtain ⟨⟨n, as, hdangling⟩, hfold⟩ := fold_run hrun
  generalize fold c (linksOf Alternative.standard c).links = folded at hchain hdangling hfold
  obtain ⟨found, place⟩ := folded
  obtain rfl : stop = place := congrArg Reply.stop hchain
  have hvalue : some trees = if found = [] then none else some found := congrArg Reply.value hchain
  refine ⟨?_, n, as, last, hdangling, hstuck.selector_eq_none, hstuck.at_eq_none⟩
  rcases hfold with hnil | ⟨hne, d, hd, hfollow⟩
  · obtain rfl : found = [] := congrArg Prod.fst hnil
    cases hvalue
  · rw [if_neg hne] at hvalue
    obtain rfl := Option.some.inj hvalue
    exact ⟨d, hd, hfollow⟩

end Rule

/-- A chain with these trees stands in the source from `start` on, and the last token of the last of them ends at
    `stop`. -/
def ChainEnds (source : Text) (start stop : Nat) (trees : List (Tree Token)) : Prop :=
  ∃ before p rest : Text, source = before ++ p ++ rest ∧ before.length = start ∧ (before ++ p).length = stop ∧
    ∃ d : Chain, d.trees = trees ∧ Stretch before d.word p ∧
      ∃ earlier tree others word last, trees = earlier ++ [tree] ∧ d.word = others ++ (word ++ [last]) ∧
        Rule.IsTree (.either (.rule .step) (.rule .current)) (word ++ [last]) tree ∧ last.stop = (stop : Int)

/-- From the offset on there are `@`s, or none, and then neither a selector nor an `@`. -/
def DanglesFrom (source : Text) (offset : Nat) : Prop :=
  ∃ before q rest : Text, source = before ++ q ++ rest ∧ before.length = offset ∧
    (∃ ats, Stretch before ats q ∧ ∀ a ∈ ats, a.terminal = .mark .at) ∧
    (Rule.selector (Cursor.behind (before ++ q) rest)).value = none ∧
    (Rule.mark .at (Cursor.behind (before ++ q) rest)).value = none

theorem chainEnds_of_stretch {before p : Text} {d : Chain} (h : Stretch before d.word p) (rest : Text) :
    ChainEnds (before ++ p ++ rest) before.length (before ++ p).length d.trees := by
  obtain ⟨earlier, tree, others, word, last, htrees, hword, hlast⟩ := d.exists_last
  refine ⟨before, p, rest, rfl, rfl, rfl, d, rfl, h, earlier, tree, others, word, last, htrees, hword, hlast, ?_⟩
  rw [hword, ← List.append_assoc] at h
  rw [h.stop_concat, List.length_append]

theorem danglesFrom_of_follows {before rest : Text} {n : Nat} {as : List Token} {last : Cursor}
    (h : Follows (.behind before rest) (List.replicate n (.mark .at)) as last) (hs : (Rule.selector last).value = none)
    (ha : (Rule.mark .at last).value = none) : DanglesFrom (before ++ rest) before.length := by
  have hterminals := h.terminals
  obtain ⟨q, rest, rfl, hq, rfl⟩ := h.stretch
  refine ⟨before, q, rest, (List.append_assoc ..).symm, rfl, ⟨as, hq, fun a ha => ?_⟩, hs, ha⟩
  have hmem := List.mem_map_of_mem (f := Token.terminal) ha
  rw [hterminals] at hmem
  exact List.eq_of_mem_replicate hmem

theorem Rule.chain_ends {source : Text} {pos : Nat} {stop : Cursor} {trees : List (Tree Token)} {ms : List Miss}
    (h : chain (Cursor.seek source pos) = ⟨some trees, stop, ms⟩) :
    ChainEnds source pos stop.offset trees ∧ DanglesFrom source stop.offset := by
  obtain ⟨⟨d, rfl, hfollow⟩, n, as, last, hdangling, hselector, hat⟩ := chain_some h
  have hle : pos ≤ source.length := hfollow.le_length (mt List.map_eq_nil_iff.mp d.chain_word_ne_nil)
  rw [Cursor.seek_of_le hle] at hfollow
  obtain ⟨p, rest, hsource, hp, rfl⟩ := hfollow.stretch
  have hends := chainEnds_of_stretch hp rest
  have hdangles := danglesFrom_of_follows hdangling hselector hat
  rw [List.append_assoc, ← hsource, List.take_append_drop] at hends hdangles
  rw [List.length_take_of_le hle] at hends
  exact ⟨hends, hdangles⟩

namespace Session

theorem chain_of_perform {source : Text} {pos : Nat} {furthest : Furthest} {trees : List (Tree Token)}
    (h : ((⟨source, pos, furthest⟩ : Session).perform (.call (.run .chain))).1 = .trees trees) :
    ∃ stop ms, Rule.chain (Cursor.seek source pos) = ⟨some trees, stop, ms⟩ ∧
      ((⟨source, pos, furthest⟩ : Session).perform (.call (.run .chain))).2.offset = stop.offset := by
  have hrule : Call.rule (.run .chain) (Cursor.seek source pos) =
      ⟨(Rule.chain (Cursor.seek source pos)).value.map .trees, (Rule.chain (Cursor.seek source pos)).stop,
        (Rule.chain (Cursor.seek source pos)).misses⟩ := Rule.map_apply ..
  rw [perform_fst _ rfl, reply_call, hrule] at h
  rw [perform_snd, reply_call, hrule]
  generalize Rule.chain (Cursor.seek source pos) = reply at h ⊢
  obtain ⟨value, stop, ms⟩ := reply
  cases value with
  | none => cases h
  | some found =>
    injection h with h
    subst h
    exact ⟨stop, ms, rfl, rfl⟩

/-- A call that is tried and fails leaves all of the session but the record of misses as it was, from whatever offset
    it was made. A chain that is read ends where the last token of its last selector does, and behind that there are
    only blanks and `@`s before something that is no selector. -/
theorem failure_rewinds (source : Text) (pos : Nat) (furthest : Furthest) :
    let s : Session := ⟨source, pos, furthest⟩
    (∀ c : Call, c.goesBack = true → (s.perform (.call c)).1.isFailure = true →
      (s.perform (.call c)).2 = ⟨source, pos, (s.perform (.call c)).2.furthest⟩) ∧
    (∀ (α : Type) (r : Rule Cursor α), Rule.GoesBack (Rule.attempt r)) ∧
    ∀ trees, (s.perform (.call (.run .chain))).1 = .trees trees →
      ∃ stop : Nat, (s.perform (.call (.run .chain))).2.offset = stop ∧ ChainEnds source pos stop trees ∧
        DanglesFrom source stop := by
  intro s
  refine ⟨fun c hback hfails => perform_of_failure hback hfails, fun _ => Rule.goesBack_attempt, fun trees h => ?_⟩
  obtain ⟨stop, ms, hchain, hoffset⟩ := chain_of_perform h
  exact ⟨stop.offset, hoffset, Rule.chain_ends hchain⟩

theorem failure_rewinds_of_dangling :
    let s : Session := ⟨"$@.a @ @", 0, .start⟩
    let s' : Session := ⟨"$@.a @ @", 4, .start⟩
    let trees : List (Tree Token) :=
      [.node .root [], .node .current [.node .field [.node .bareKey [.leaf ⟨.atom .key, "a", 3, 4, ⟨1, 4⟩⟩]]]]
    (s.perform (.call (.run .chain))).1 = .trees trees ∧ ChainEnds "$@.a @ @" 0 4 trees ∧ DanglesFrom "$@.a @ @" 4 ∧
      (s'.perform (.call (.run .chain))).1 = .nothing ∧ (s'.perform (.call (.run .chain))).2.offset = 4 := by
  intro s s' trees
  have htrees : (s.perform (.call (.run .chain))).1 = .trees trees := by decide +kernel
  have hoffset : (s.perform (.call (.run .chain))).2.offset = 4 := by decide +kernel
  have hfails : (s'.perform (.call (.run .chain))).1 = .nothing := by decide +kernel
  obtain ⟨stop, hstop, hends, hdangles⟩ := (failure_rewinds "$@.a @ @" 0 .start).2.2 trees htrees
  obtain rfl : stop = 4 := Int.ofNat_inj.mp (hstop.symm.trans hoffset)
  have hfailure : (s'.perform (.call (.run .chain))).1.isFailure = true := congrArg Outcome.isFailure hfails
  have hback := (failure_rewinds "$@.a @ @" 4 .start).1 (.run .chain) rfl hfailure
  exact ⟨htrees, hends, hdangles, hfails, congrArg offset hback⟩

end Session

end JsonPath
