/-
  JsonPath.Proofs.Simulation — reading from one place as from another.

  All that a rule sees of a place is what probing and passing blanks reply there. So where
  two places reply alike, every rule replies alike from both. A `Simulation` says what alike
  means: which place goes with which, what becomes of a token on the other side, and which
  misses go with which. Of misses it asks only that they can be collected.

  `Alike` says that two rules come to the same from all places that go together. It passes
  from rules to what is built of them, and this is shown here once, for the combinators,
  for each rule and for calls. What then remains to be shown of two kinds of places is the
  one step that rules are made of. For the rules of expressions that is to take a terminal
  behind blanks (`Takes`), for they look for none in any other way. Calls also probe where
  they stand and pass blanks by themselves (`Faithful`).

  Proved:
  - `Takes.chainOf`, `Takes.goal`: rules that are alike wherever taking a terminal is.
  - `Faithful.call`: calls that are alike wherever probing and passing blanks are.
-/

import JsonPath.Session
import Mathlib.Data.List.Forall2

namespace JsonPath

namespace Tree

variable {α : Type}

mutual

theorem map_id : ∀ t : Tree α, t.map id = t
  | node label ts => by rw [map, mapList_id ts]
  | leaf a => rfl

theorem mapList_id : ∀ ts : List (Tree α), mapList id ts = ts
  | [] => rfl
  | t :: ts => by rw [mapList, map_id t, mapList_id ts]

end

end Tree

structure Simulation (γ δ : Type) where
  place : γ → δ → Prop
  /-- A token of the first kind of place, as the second has it. -/
  token : Token → Token
  misses : List Miss → List Miss → Prop
  nil : misses [] []
  append {ms ns ms' ns' : List Miss} : misses ms ns → misses ms' ns' → misses (ms ++ ms') (ns ++ ns')

namespace Simulation

variable {γ δ α β α' β' : Type} (S : Simulation γ δ)

def tree : Tree Token → Tree Token := Tree.map S.token

/-- The same reply from the other place, with `f` of its value. -/
structure Replies (f : α → β) (r : Reply γ α) (r' : Reply δ β) : Prop where
  value : r'.value = r.value.map f
  stop : S.place r.stop r'.stop
  misses : S.misses r.misses r'.misses

def Alike (f : α → β) (r : Rule γ α) (r' : Rule δ β) : Prop := ∀ ⦃c d⦄, S.place c d → S.Replies f (r c) (r' d)

/-- What `k` makes of the outcomes of calls is what becomes of their tokens. -/
structure Outcomes (k : Outcome → Outcome) : Prop where
  truth (b : Bool) : k (.truth b) = .truth b
  token (a : Token) : k (.token a) = .token (S.token a)
  tree (t : Tree Token) : k (.tree t) = .tree (S.tree t)
  trees (ts : List (Tree Token)) : k (.trees ts) = .trees (ts.map S.tree)
  notAMark : k (.error .notAMark) = .error .notAMark

variable {S}

/-- What is missed first goes with what is missed first. -/
theorem Replies.behind {f : α → β} {r : Reply γ α} {r' : Reply δ β} (h : S.Replies f r r') {ms ns : List Miss}
    (hmisses : S.misses ms ns) :
    S.Replies f ⟨r.value, r.stop, ms ++ r.misses⟩ ⟨r'.value, r'.stop, ns ++ r'.misses⟩ :=
  ⟨h.value, h.stop, S.append hmisses h.misses⟩

/-- Where tokens stay what they are, so do trees. -/
theorem tree_id (h : S.token = id) (t : Tree Token) : S.tree t = t := by
  rw [tree, h, Tree.map_id]

theorem outcomes_id (h : S.token = id) : S.Outcomes id where
  truth _ := rfl
  token a := by rw [h, id_eq, id_eq]
  tree t := by rw [tree_id h, id_eq]
  trees ts := by rw [funext (tree_id h), List.map_id', id_eq]
  notAMark := rfl

/-! ## What rules are made of -/

section Combinators

variable {f : α → β} {r s : Rule γ α} {r' s' : Rule δ β}

theorem alike_pure {a : α} {b : β} (h : f a = b) : S.Alike f (Pure.pure a) (Pure.pure b) :=
  fun _ _ hcd => ⟨congrArg some h.symm, hcd, S.nil⟩

theorem alike_bind {g : α' → β'} {k : α → Rule γ α'} {k' : β → Rule δ β'} (h : S.Alike f r r')
    (hk : ∀ a, S.Alike g (k a) (k' (f a))) : S.Alike g (r >>= k) (r' >>= k') := by
  intro c d hcd
  have hreply := h hcd
  show S.Replies g (Rule.bind r k c) (Rule.bind r' k' d)
  unfold Rule.bind
  generalize r c = x at hreply ⊢
  generalize r' d = y at hreply ⊢
  obtain ⟨value, stop, ms⟩ := x
  obtain ⟨value', stop', ns⟩ := y
  obtain ⟨hvalue, hstop, hmisses⟩ := hreply
  obtain rfl : value' = value.map f := hvalue
  cases value with
  | none => exact ⟨rfl, hstop, hmisses⟩
  | some a => exact (hk a hstop).behind hmisses

theorem alike_map {g : α → α'} {g' : β → β'} {k : α' → β'} (h : S.Alike f r r') (hk : ∀ a, k (g a) = g' (f a)) :
    S.Alike k (g <$> r) (g' <$> r') :=
  alike_bind h fun a => alike_pure (hk a)

theorem alike_attempt (h : S.Alike f r r') : S.Alike f (Rule.attempt r) (Rule.attempt r') := by
  intro c d hcd
  have hreply := h hcd
  unfold Rule.attempt
  generalize r c = x at hreply ⊢
  generalize r' d = y at hreply ⊢
  obtain ⟨value, stop, ms⟩ := x
  obtain ⟨value', stop', ns⟩ := y
  obtain ⟨hvalue, hstop, hmisses⟩ := hreply
  obtain rfl : value' = value.map f := hvalue
  cases value with
  | none => exact ⟨rfl, hcd, hmisses⟩
  | some a => exact ⟨rfl, hstop, hmisses⟩

theorem alike_optional (h : S.Alike f r r') : S.Alike (Option.map f) (Rule.optional r) (Rule.optional r') := by
  intro c d hcd
  have hreply := alike_attempt h hcd
  exact ⟨congrArg some hreply.value, hreply.stop, hreply.misses⟩

theorem alike_test (h : S.Alike f r r') : S.Alike id (Rule.test r) (Rule.test r') := by
  intro c d hcd
  have hreply := h hcd
  refine ⟨?_, hreply.stop, hreply.misses⟩
  show some (r' d).value.isSome = some (r c).value.isSome
  rw [hreply.value, Option.isSome_map]

theorem alike_orElse (h : S.Alike f r r') (h' : S.Alike f s s') : S.Alike f (r <|> s) (r' <|> s') := by
  intro c d hcd
  have hreply := h hcd
  show S.Replies f (Rule.orElse r (fun _ => s) c) (Rule.orElse r' (fun _ => s') d)
  unfold Rule.orElse
  generalize r c = x at hreply ⊢
  generalize r' d = y at hreply ⊢
  obtain ⟨value, stop, ms⟩ := x
  obtain ⟨value', stop', ns⟩ := y
  obtain ⟨hvalue, hstop, hmisses⟩ := hreply
  obtain rfl : value' = value.map f := hvalue
  cases value with
  | none => exact (h' hcd).behind hmisses
  | some a => exact ⟨rfl, hstop, hmisses⟩

end Combinators

variable [Place γ] [Place δ]

/-! ## Selectors -/

variable (S) in
/-- Taking a terminal behind blanks is alike. -/
def Takes : Prop := ∀ t, S.Alike S.token (Rule.spaced (Rule.probe t)) (Rule.spaced (Rule.probe t))

namespace Takes

section Selectors

variable (h : S.Takes)

include h

theorem mark (m : Mark) : S.Alike S.token (Rule.mark m) (Rule.mark m) := h (.mark m)

theorem atom (a : Atom) : S.Alike S.token (Rule.atom a) (Rule.atom a) := h (.atom a)

theorem anchored {f : α → β} {r : Rule γ α} {r' : Rule δ β} (hr : S.Alike f r r') :
    S.Alike f (Rule.anchored r) (Rule.anchored r') :=
  alike_bind hr fun _ => alike_bind (h .endOfInput) fun _ => alike_pure rfl

theorem bareKey : S.Alike S.tree Rule.bareKey Rule.bareKey := alike_bind (h.atom _) fun _ => alike_pure rfl

theorem bracketKey : S.Alike S.tree Rule.bracketKey Rule.bracketKey :=
  alike_bind (h.mark _) fun _ => alike_bind (h.atom _) fun _ => alike_bind (h.mark _) fun _ => alike_pure rfl

theorem root : S.Alike S.tree Rule.root Rule.root := alike_bind (h.mark _) fun _ => alike_pure rfl

theorem descent : S.Alike S.tree Rule.descent Rule.descent :=
  alike_bind (h.mark _) fun _ =>
    alike_bind (alike_orElse (alike_attempt h.bareKey) (alike_attempt h.bracketKey)) fun _ => alike_pure rfl

theorem bracketWildcard : S.Alike S.tree Rule.bracketWildcard Rule.bracketWildcard :=
  alike_bind (alike_optional (h.mark _)) fun _ => alike_bind (h.mark _) fun _ => alike_bind (h.mark _) fun _ =>
    alike_bind (h.mark _) fun _ => alike_pure rfl

theorem dotWildcard : S.Alike S.tree Rule.dotWildcard Rule.dotWildcard :=
  alike_bind (h.mark _) fun _ => alike_bind (h.mark _) fun _ => alike_pure rfl

theorem bracketField : S.Alike S.tree Rule.bracketField Rule.bracketField :=
  alike_bind (alike_optional (h.mark _)) fun _ => alike_bind h.bracketKey fun _ => alike_pure rfl

theorem dotField : S.Alike S.tree Rule.dotField Rule.dotField :=
  alike_bind (h.mark _) fun _ => alike_bind h.bareKey fun _ => alike_pure rfl

theorem index : S.Alike S.tree Rule.index Rule.index :=
  alike_bind (h.mark _) fun _ => alike_bind (h.atom _) fun _ => alike_bind (h.mark _) fun _ => alike_pure rfl

theorem sign : S.Alike S.tree Rule.sign Rule.sign := alike_bind (h.atom _) fun _ => alike_pure rfl

theorem number : S.Alike S.tree Rule.number Rule.number := alike_bind (h.atom _) fun _ => alike_pure rfl

theorem alternative (x : Alternative) : S.Alike S.tree x.rule x.rule := by
  cases x with
  | root => exact h.root
  | descent => exact h.descent
  | wildcard => exact alike_orElse h.bracketWildcard h.dotWildcard
  | field => exact alike_orElse h.bracketField h.dotField
  | index => exact h.index

theorem selectorOf (order : List Alternative) : S.Alike S.tree (Rule.selectorOf order) (Rule.selectorOf order) := by
  induction order with
  | nil => exact fun _ _ hcd => ⟨rfl, hcd, S.nil⟩
  | cons x order ih => exact alike_orElse (alike_attempt (h.alternative x)) ih

end Selectors

end Takes

end Simulation

/-! ## Chains -/

namespace Rule

section Links

variable {γ : Type} [Place γ] {order : List Alternative} {c stop d : γ} {ms ns : List Miss}

theorem linksOf_of_selector {tree : Tree Token} (h : selectorOf order c = ⟨some tree, stop, ms⟩) :
    linksOf order c = ⟨(.selector tree, stop) :: (linksOf order stop).links, ms ++ (linksOf order stop).misses⟩ := by
  rw [linksOf]
  split
  · rename_i hs
    cases h.symm.trans hs
    rfl
  · rename_i hs
    cases h.symm.trans hs

theorem linksOf_of_current {a : Token} (h : selectorOf order c = ⟨none, d, ms⟩) (hat : mark .at c = ⟨some a, stop, ns⟩) :
    linksOf order c = ⟨(.current, stop) :: (linksOf order stop).links, ms ++ ns ++ (linksOf order stop).misses⟩ := by
  rw [linksOf]
  split
  · rename_i hs
    cases h.symm.trans hs
  · rename_i hs
    cases h.symm.trans hs
    split
    · rename_i ha
      cases hat.symm.trans ha
      rfl
    · rename_i ha
      cases hat.symm.trans ha

theorem linksOf_of_none {e : γ} (h : selectorOf order c = ⟨none, d, ms⟩) (hat : mark .at c = ⟨none, e, ns⟩) :
    linksOf order c = ⟨[], ms ++ ns⟩ := by
  rw [linksOf]
  split
  · rename_i hs
    cases h.symm.trans hs
  · rename_i hs
    cases h.symm.trans hs
    split
    · rename_i ha
      cases hat.symm.trans ha
    · rename_i ha
      cases hat.symm.trans ha
      rfl

end Links

end Rule

namespace Simulation

variable {γ δ : Type} {S : Simulation γ δ}

variable (S) in
def link : Link → Link
  | .selector tree => .selector (S.tree tree)
  | .current => .current

variable (S) in
/-- The same link, and the places behind it go together. -/
def Linked (x : Link × γ) (y : Link × δ) : Prop := y.1 = S.link x.1 ∧ S.place x.2 y.2

/-- Folding depends on the places only for where it stops. -/
theorem fold_alike {c : γ} {d : δ} (hcd : S.place c d) {links : List (Link × γ)} {links' : List (Link × δ)}
    (h : List.Forall₂ S.Linked links links') :
    (Rule.fold d links').1 = (Rule.fold c links).1.map S.tree ∧ S.place (Rule.fold c links).2 (Rule.fold d links').2 := by
  induction h generalizing c d with
  | nil => exact ⟨rfl, hcd⟩
  | @cons x y links links' hxy _ ih =>
    obtain ⟨link, stop⟩ := x
    obtain ⟨link', stop'⟩ := y
    obtain ⟨hlink, hstop⟩ := hxy
    obtain rfl : link' = S.link link := hlink
    obtain ⟨htrees, hlast⟩ := ih hstop
    cases link with
    | selector tree => exact ⟨congrArg (S.tree tree :: ·) htrees, hlast⟩
    | current =>
      simp only [link, Rule.fold]
      generalize Rule.fold stop links = folded at htrees hlast ⊢
      generalize Rule.fold stop' links' = folded' at htrees hlast ⊢
      obtain ⟨trees, last⟩ := folded
      obtain ⟨trees', last'⟩ := folded'
      obtain rfl : trees' = trees.map S.tree := htrees
      cases trees with
      | nil => exact ⟨rfl, hcd⟩
      | cons t trees =>
        refine ⟨?_, hlast⟩
        simp only [List.map_cons, List.map_nil, tree, Tree.map, Tree.mapList, Tree.mapList_eq_map]

variable [Place γ] [Place δ]

namespace Takes

variable (h : S.Takes)

include h

theorem linksOf (order : List Alternative) (c : γ) : ∀ d, S.place c d →
    List.Forall₂ S.Linked (Rule.linksOf order c).links (Rule.linksOf order d).links ∧
      S.misses (Rule.linksOf order c).misses (Rule.linksOf order d).misses := by
  fun_induction Rule.linksOf order c with
  | case1 c tree stop ms hs _ more ih =>
    intro d hcd
    have hselector := h.selectorOf order hcd
    rw [hs] at hselector
    cases hs' : Rule.selectorOf order d with
    | mk value stop' ns =>
      rw [hs'] at hselector
      obtain ⟨hvalue, hstop, hmisses⟩ := hselector
      obtain rfl : value = some (S.tree tree) := hvalue
      obtain ⟨hlinks, hmore⟩ := ih _ hstop
      rw [Rule.linksOf_of_selector hs']
      exact ⟨.cons ⟨rfl, hstop⟩ hlinks, S.append hmisses hmore⟩
  | case2 c _ ms hs a stop ms' ha _ more ih =>
    intro d hcd
    have hselector := h.selectorOf order hcd
    have hat := h.mark .at hcd
    rw [hs] at hselector
    rw [ha] at hat
    cases hs' : Rule.selectorOf order d with
    | mk value stop' ns =>
      cases ha' : Rule.mark .at d with
      | mk value' stop'' ns' =>
        rw [hs'] at hselector
        rw [ha'] at hat
        obtain ⟨hvalue, -, hmisses⟩ := hselector
        obtain ⟨hvalue', hstop, hmisses'⟩ := hat
        obtain rfl : value = none := hvalue
        obtain rfl : value' = some (S.token a) := hvalue'
        obtain ⟨hlinks, hmore⟩ := ih _ hstop
        rw [Rule.linksOf_of_current hs' ha']
        exact ⟨.cons ⟨rfl, hstop⟩ hlinks, S.append (S.append hmisses hmisses') hmore⟩
  | case3 c _ ms hs _ ms' ha =>
    intro d hcd
    have hselector := h.selectorOf order hcd
    have hat := h.mark .at hcd
    rw [hs] at hselector
    rw [ha] at hat
    cases hs' : Rule.selectorOf order d with
    | mk value stop' ns =>
      cases ha' : Rule.mark .at d with
      | mk value' stop'' ns' =>
        rw [hs'] at hselector
        rw [ha'] at hat
        obtain ⟨hvalue, -, hmisses⟩ := hselector
        obtain ⟨hvalue', -, hmisses'⟩ := hat
        obtain rfl : value = none := hvalue
        obtain rfl : value' = none := hvalue'
        rw [Rule.linksOf_of_none hs' ha']
        exact ⟨.nil, S.append hmisses hmisses'⟩

theorem chainOf (order : List Alternative) :
    S.Alike (List.map S.tree) (Rule.chainOf order) (Rule.chainOf order) := by
  intro c d hcd
  obtain ⟨hlinks, hmisses⟩ := h.linksOf order c d hcd
  obtain ⟨htrees, hstop⟩ := fold_alike hcd hlinks
  unfold Rule.chainOf
  simp only
  generalize Rule.fold c (Rule.linksOf order c).links = folded at htrees hstop ⊢
  generalize Rule.fold d (Rule.linksOf order d).links = folded' at htrees hstop ⊢
  obtain ⟨trees, stop⟩ := folded
  obtain ⟨trees', stop'⟩ := folded'
  obtain rfl : trees' = trees.map S.tree := htrees
  cases trees with
  | nil => exact ⟨rfl, hstop, hmisses⟩
  | cons => exact ⟨rfl, hstop, hmisses⟩

theorem path : S.Alike S.tree Rule.path Rule.path :=
  alike_bind (h.anchored (h.chainOf _)) fun trees =>
    alike_pure (congrArg (Tree.node .path) (Tree.mapList_eq_map S.token trees))

end Takes

theorem Takes.goal {S : Simulation Cursor Cursor} (h : S.Takes) (g : Goal) : S.Alike S.tree g.rule g.rule := by
  cases g with
  | path => exact h.path
  | sign => exact h.anchored h.sign
  | number => exact h.anchored h.number

/-! ## Calls -/

variable (S) in
/-- Probing and passing blanks are alike. -/
structure Faithful : Prop where
  probe (t : Terminal) : S.Alike S.token (Rule.probe t) (Rule.probe t)
  blanks : S.Alike id Rule.blanks Rule.blanks

theorem Faithful.takes (h : S.Faithful) : S.Takes :=
  fun t => alike_attempt (alike_bind h.blanks fun _ => h.probe t)

variable {k : Outcome → Outcome}

theorem Takes.rule (h : S.Takes) (hk : S.Outcomes k) (r : RuleName) : S.Alike k r.rule r.rule := by
  cases r with
  | chain => exact alike_map (h.chainOf _) hk.trees
  | selector => exact alike_map (h.selectorOf _) hk.tree
  | root => exact alike_map h.root hk.tree
  | descent => exact alike_map h.descent hk.tree
  | wildcard => exact alike_map (h.alternative .wildcard) hk.tree
  | field => exact alike_map (h.alternative .field) hk.tree
  | index => exact alike_map h.index hk.tree
  | bareKey => exact alike_map h.bareKey hk.tree
  | bracketKey => exact alike_map h.bracketKey hk.tree
  | sign => exact alike_map h.sign hk.tree
  | number => exact alike_map h.number hk.tree

theorem Faithful.call (h : S.Faithful) (hk : S.Outcomes k) (c : Call) : S.Alike k c.rule c.rule := by
  have hend : S.Alike k (Outcome.truth <$> Rule.test (Rule.probe .endOfInput))
      (Outcome.truth <$> Rule.test (Rule.probe .endOfInput)) := alike_map (alike_test (h.probe _)) hk.truth
  cases c with
  | blanks => exact alike_map h.blanks hk.truth
  | probe t =>
    cases t with
    | endOfInput => exact hend
    | mark | atom => exact alike_map (h.probe _) hk.token
  | probeMark t =>
    cases t with
    | mark => exact alike_map (h.probe _) hk.token
    | atom | endOfInput => exact alike_pure hk.notAMark
  | take t =>
    cases t with
    | endOfInput => exact alike_map (alike_test (h.takes _)) hk.truth
    | mark | atom => exact alike_map (h.takes _) hk.token
  | takeMark t =>
    cases t with
    | mark => exact alike_map (h.takes _) hk.token
    | atom | endOfInput => exact alike_bind h.blanks fun _ => alike_pure hk.notAMark
  | skipToEnd => exact alike_bind h.blanks fun _ => hend
  | run r => exact h.takes.rule hk r
  | attempt r => exact alike_attempt (h.takes.rule hk r)
  | anchored r => exact h.takes.anchored (h.takes.rule hk r)
  | path => exact alike_map h.takes.path hk.tree

end Simulation

end JsonPath
