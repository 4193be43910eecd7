/-
  JsonPath.Proofs.Faults — which of the faults of a tree is its error.

  A tree may be built by hand, with any texts in its leaves and any number of parts below
  its nodes. If the parts that there are belong where they stand (`Tree.WellSorted`), then
  a node can be at fault in few ways, and in none that has to do with another node
  (`Tree.fault?`). Nodes are told from the leaves up and from left to right, so the error is
  that of the first node at fault in this order, however many there are and wherever they
  are. Where no node is, the tree means what recursion on its structure says.

  The labels are those that reading uses, and the kinds of the leaves are names of
  terminals. A leaf of such a kind is a mere text: no terminal has the name of a label
  (`Label.ofName_grammarName`), by which it would be told as a node.

  Proved: `lowering_first_fault`.
-/

import JsonPath.Proofs.Lowering

namespace JsonPath

/-! ## Parts where they belong -/

inductive Part where
  | selector
  | key
  | token
  deriving DecidableEq

namespace Label

/-- What a node of the label is a part of its like. -/
def part? : Label → Option Part
  | root | descent | wildcard | current | field | index => some .selector
  | bareKey | quotedKey => some .key
  | _ => none

/-- The parts that belong below a node of the label. -/
def takes? : Label → Option Part
  | path | current => some .selector
  | descent | field => some .key
  | index | bareKey | quotedKey | sign | number => some .token
  | _ => none

/-- How many parts a node of the label has, where that is fixed. -/
def arity? : Label → Option Nat
  | path | current | other _ => none
  | root | wildcard => some 0
  | _ => some 1

end Label

/-- No terminal has the name of a label. -/
theorem Label.ofName_grammarName (x : Terminal) : ofName x.grammarName = .other x.grammarName := by
  cases x with
  | mark m => cases m <;> decide
  | atom a => cases a <;> decide
  | endOfInput => decide

namespace Tree

def part? : Tree Leaf → Option Part
  | node label _ => label.part?
  | leaf _ => some .token

/-- Every part is one of those that belong where it stands. -/
inductive WellSorted : Tree Leaf → Prop where
  | leaf (x : Terminal) (text : Text) : WellSorted (.leaf ⟨x.grammarName, text⟩)
  | node {label : Label} {children : List (Tree Leaf)} : label ∈ Label.known → (∀ t ∈ children, WellSorted t) →
    (∀ p, label.takes? = some p → ∀ t ∈ children, t.part? = some p) → WellSorted (.node label children)

/-! ## Faults -/

/-- The fault of a text below a node of that label. -/
def textFault? : Label → List (Tree Leaf) → Option MeaningError
  | .quotedKey, [leaf l] =>
    match Key.Quoted.decode l.text with
    | .ok _ => none
    | .error e => some (.badLiteral e)
  | .index, [leaf l] =>
    if l.text ≠ [] ∧ ∀ c ∈ l.text, c.between '0' '9' = true then none else some (.notUnsigned l.text)
  | .sign, [leaf l] => if ∃ g ∈ ComparisonSign.all, l.text = g.spelling then none else some (.notSign l.text)
  | _, _ => none

/-- The fault of a node by itself. -/
def fault? : Tree Leaf → Option MeaningError
  | leaf _ => none
  | node label children =>
    if ∃ n ∈ label.arity?, children.length ≠ n then some (.partCount ⟨label, children.length⟩)
    else textFault? label children

mutual

/-- The nodes and the leaves, each behind those below it, from left to right. -/
def postorder : Tree Leaf → List (Tree Leaf)
  | node label children => postorderList children ++ [node label children]
  | leaf l => [leaf l]

def postorderList : List (Tree Leaf) → List (Tree Leaf)
  | [] => []
  | t :: ts => postorder t ++ postorderList ts

end

/-! ## By recursion -/

def key? : Tree Leaf → Option Key
  | node .bareKey [leaf l] => some (.bare l.text)
  | node .quotedKey [leaf l] => (Key.Quoted.decode l.text).toOption.map .quoted
  | _ => none

mutual

def selector? : Tree Leaf → Option Selector
  | node .root [] => some .root
  | node .wildcard [] => some .wildcard
  | node .descent [t] => t.key?.map .descent
  | node .field [t] => t.key?.map .field
  | node .index [leaf l] => (Decimal.value? l.text).map .index
  | node .current children => (selectors? children).map .current
  | _ => none

def selectors? : List (Tree Leaf) → Option (List Selector)
  | [] => some []
  | t :: ts => (selector? t).bind fun s => (selectors? ts).map (s :: ·)

end

/-- What a tree that is whole stands for. -/
def whole? : Tree Leaf → Option Expression
  | node .path children => (selectors? children).map .path
  | node .sign [leaf l] => (ComparisonSign.ofSpelling? l.text).map .sign
  | node .number [leaf l] => some (.number ⟨l.text⟩)
  | _ => none

/-- The meaning is the one that recursion says. -/
inductive Stands : Tree Leaf → Meaning → Prop where
  | selector {t : Tree Leaf} {s : Selector} : t.part? = some .selector → t.selector? = some s →
    Stands t (.selector s)
  | key {t : Tree Leaf} {k : Key} : t.part? = some .key → t.key? = some k → Stands t (.key k)
  | token (l : Leaf) : Stands (.leaf l) (.leaf l)
  | whole {t : Tree Leaf} {e : Expression} : t.part? = none → t.whole? = some e → Stands t (.expression e)

end Tree

/-! ## The first fault -/

/-- The result is the error of the first fault or, if there is none, one that is good. -/
def Tells {α : Type} (first : Option MeaningError) (result : Except MeaningError α) (good : α → Prop) : Prop :=
  match first with
  | some f => result = .error f
  | none => ∃ a, result = .ok a ∧ good a

theorem Tells.bind {α β : Type} {first next : Option MeaningError} {result : Except MeaningError α}
    {good : α → Prop} {f : α → Except MeaningError β} {good' : β → Prop} (h : Tells first result good)
    (hf : ∀ a, good a → Tells next (f a) good') : Tells (first.or next) (result >>= f) good' := by
  cases first with
  | some e =>
    obtain rfl : result = .error e := h
    exact rfl
  | none =>
    obtain ⟨a, rfl, ha⟩ := h
    exact hf a ha

namespace Tree

namespace Stands

variable {t : Tree Leaf} {m : Meaning}

theorem exists_selector (h : Stands t m) (ht : t.part? = some .selector) :
    ∃ s, t.selector? = some s ∧ m = .selector s := by
  cases h with
  | selector _ hs => exact ⟨_, hs, rfl⟩
  | key hp _ => cases hp.symm.trans ht
  | whole hp _ => cases hp.symm.trans ht
  | token l => cases ht

theorem exists_key (h : Stands t m) (ht : t.part? = some .key) : ∃ k, t.key? = some k ∧ m = .key k := by
  cases h with
  | key _ hk => exact ⟨_, hk, rfl⟩
  | selector hp _ => cases hp.symm.trans ht
  | whole hp _ => cases hp.symm.trans ht
  | token l => cases ht

theorem exists_leaf (h : Stands t m) (ht : t.part? = some .token) : ∃ l, t = .leaf l ∧ m = .leaf l := by
  cases h with
  | token l => exact ⟨l, rfl, rfl⟩
  | selector hp _ => cases hp.symm.trans ht
  | key hp _ => cases hp.symm.trans ht
  | whole hp _ => cases hp.symm.trans ht

end Stands

theorem selectors?_of_stands {ts : List (Tree Leaf)} {ms : List Meaning} (h : List.Forall₂ Stands ts ms)
    (hpart : ∀ t ∈ ts, t.part? = some .selector) :
    ∃ p : Path, selectors? ts = some p ∧ ms = p.map .selector := by
  induction h with
  | nil => exact ⟨[], rfl, rfl⟩
  | @cons t m ts ms ht _ ih =>
    obtain ⟨p, hp, rfl⟩ := ih fun u hu => hpart u (List.mem_cons_of_mem t hu)
    obtain ⟨s, hs, rfl⟩ := ht.exists_selector (hpart t List.mem_cons_self)
    exact ⟨s :: p, by rw [selectors?, hs, hp]; rfl, rfl⟩

/-- A wrong number of parts is an error, whatever they are. -/
theorem combine_partCount {label : Label} {n : Nat} (hn : label.arity? = some n) {ms : List Meaning}
    (hms : ms.length ≠ n) : label.combine ms = .error (.partCount ⟨label, ms.length⟩) := by
  cases label with
  | path | current | other => cases hn
  | root | wildcard =>
    cases hn
    cases ms with
    | nil => exact absurd rfl hms
    | cons => rfl
  | _ =>
    cases hn
    match ms with
    | [] => rfl
    | [_] => exact absurd rfl hms
    | _ :: _ :: _ => rfl

theorem exists_key_of_stands {ts : List (Tree Leaf)} {ms : List Meaning} (h : List.Forall₂ Stands ts ms)
    (hlength : ts.length = 1) (hpart : ∀ t ∈ ts, t.part? = some .key) :
    ∃ t k, ts = [t] ∧ t.key? = some k ∧ ms = [.key k] := by
  obtain ⟨t, rfl⟩ := List.length_eq_one_iff.mp hlength
  cases h with
  | cons hm hnil =>
    cases hnil
    obtain ⟨k, hk, rfl⟩ := hm.exists_key (hpart t (List.mem_singleton_self t))
    exact ⟨t, k, rfl, hk, rfl⟩

theorem exists_leaf_of_stands {ts : List (Tree Leaf)} {ms : List Meaning} (h : List.Forall₂ Stands ts ms)
    (hlength : ts.length = 1) (hpart : ∀ t ∈ ts, t.part? = some .token) :
    ∃ l, ts = [.leaf l] ∧ ms = [.leaf l] := by
  obtain ⟨t, rfl⟩ := List.length_eq_one_iff.mp hlength
  cases h with
  | cons hm hnil =>
    cases hnil
    obtain ⟨l, rfl, rfl⟩ := hm.exists_leaf (hpart t (List.mem_singleton_self t))
    exact ⟨l, rfl, rfl⟩

theorem index_tells (l : Leaf) :
    Tells (textFault? .index [leaf l]) (Label.index.combine [.leaf l]) (Stands (node .index [leaf l])) := by
  have hdigits : Decimal.isUnsigned l.text = true ↔ l.text ≠ [] ∧ ∀ c ∈ l.text, c.between '0' '9' = true := by
    rw [Decimal.isUnsigned, Bool.and_eq_true, List.all_eq_true, Bool.not_eq_true', List.isEmpty_eq_false_iff]
    rfl
  rw [textFault?]
  by_cases h : Decimal.isUnsigned l.text = true
  · have hvalue : Decimal.value? l.text = some (Decimal.value l.text) := if_pos h
    rw [if_pos (hdigits.mp h)]
    exact ⟨_, Label.combine_index hvalue, .selector rfl (by rw [selector?, hvalue]; rfl)⟩
  · have hvalue : Decimal.value? l.text = none := if_neg h
    rw [if_neg (mt hdigits.mpr h)]
    show Label.index.combine [.leaf l] = _
    simp only [Label.combine, Meaning.toText, Bind.bind, Except.bind, hvalue]
    rfl

theorem quotedKey_tells (l : Leaf) :
    Tells (textFault? .quotedKey [leaf l]) (Label.quotedKey.combine [.leaf l]) (Stands (node .quotedKey [leaf l])) := by
  rw [textFault?]
  cases h : Key.Quoted.decode l.text with
  | ok name => exact ⟨_, Label.combine_quotedKey h, .key rfl (by rw [key?, h]; rfl)⟩
  | error e =>
    show Label.quotedKey.combine [.leaf l] = _
    simp only [Label.combine, Meaning.toText, Bind.bind, Except.bind, h, Except.mapError]

theorem sign_tells (l : Leaf) :
    Tells (textFault? .sign [leaf l]) (Label.sign.combine [.leaf l]) (Stands (node .sign [leaf l])) := by
  rw [textFault?]
  by_cases h : ∃ g ∈ ComparisonSign.all, l.text = g.spelling
  · obtain ⟨g, hg, hl⟩ := h
    have hsign : ComparisonSign.ofSpelling? l.text = some g := by rw [hl, ComparisonSign.ofSpelling?_spelling]
    rw [if_pos ⟨g, hg, hl⟩]
    refine ⟨.expression (.sign g), ?_, .whole rfl (by rw [whole?, hsign]; rfl)⟩
    simp only [Label.combine, Meaning.toText, Bind.bind, Except.bind, hsign, Pure.pure, Except.pure]
  · have hnone : ComparisonSign.ofSpelling? l.text = none :=
      List.find?_eq_none.mpr fun g hg heq => h ⟨g, hg, (of_decide_eq_true heq).symm⟩
    rw [if_neg h]
    show Label.sign.combine [.leaf l] = _
    simp only [Label.combine, Meaning.toText, Bind.bind, Except.bind, hnone]
    rfl

theorem combine_tells {label : Label} (hlabel : label ∈ Label.known) {children : List (Tree Leaf)} {ms : List Meaning}
    (hpart : ∀ p, label.takes? = some p → ∀ t ∈ children, t.part? = some p)
    (h : List.Forall₂ Stands children ms) :
    Tells (fault? (node label children)) (label.combine ms) (Stands (node label children)) := by
  rw [fault?]
  by_cases hcount : ∃ n ∈ label.arity?, children.length ≠ n
  -- the count is looked at before any part is, so what the parts mean does not matter
  · rw [if_pos hcount]
    obtain ⟨n, hn, hlength⟩ := hcount
    rw [h.length_eq] at hlength ⊢
    exact combine_partCount hn hlength
  · rw [if_neg hcount]
    have harity : ∀ n, label.arity? = some n → children.length = n := by
      intro n hn
      by_contra hne
      exact hcount ⟨n, hn, hne⟩
    cases label with
    | path =>
      obtain ⟨p, hp, rfl⟩ := selectors?_of_stands h (hpart _ rfl)
      exact ⟨_, Label.combine_path p, .whole rfl (by rw [whole?, hp]; rfl)⟩
    | current =>
      obtain ⟨p, hp, rfl⟩ := selectors?_of_stands h (hpart _ rfl)
      exact ⟨_, Label.combine_current p, .selector rfl (by rw [selector?, hp]; rfl)⟩
    | other name => simp [Label.known] at hlabel
    | root | wildcard =>
      obtain rfl := List.eq_nil_of_length_eq_zero (harity 0 rfl)
      cases h
      exact ⟨_, rfl, .selector rfl rfl⟩
    | descent | field =>
      obtain ⟨t, k, rfl, hk, rfl⟩ := exists_key_of_stands h (harity 1 rfl) (hpart _ rfl)
      exact ⟨_, rfl, .selector rfl (by rw [selector?, hk]; rfl)⟩
    | bareKey =>
      obtain ⟨l, rfl, rfl⟩ := exists_leaf_of_stands h (harity 1 rfl) (hpart _ rfl)
      exact ⟨_, rfl, .key rfl rfl⟩
    | number =>
      obtain ⟨l, rfl, rfl⟩ := exists_leaf_of_stands h (harity 1 rfl) (hpart _ rfl)
      exact ⟨_, rfl, .whole rfl rfl⟩
    | index =>
      obtain ⟨l, rfl, rfl⟩ := exists_leaf_of_stands h (harity 1 rfl) (hpart _ rfl)
      exact index_tells l
    | quotedKey =>
      obtain ⟨l, rfl, rfl⟩ := exists_leaf_of_stands h (harity 1 rfl) (hpart _ rfl)
      exact quotedKey_tells l
    | sign =>
      obtain ⟨l, rfl, rfl⟩ := exists_leaf_of_stands h (harity 1 rfl) (hpart _ rfl)
      exact sign_tells l

theorem meanings_tells {ts : List (Tree Leaf)}
    (h : ∀ t ∈ ts, Tells (t.postorder.findSome? fault?) t.meaning (Stands t)) :
    Tells ((postorderList ts).findSome? fault?) (meanings ts) (List.Forall₂ Stands ts) := by
  induction ts with
  | nil => exact ⟨[], rfl, .nil⟩
  | cons t ts ih =>
    rw [postorderList, List.findSome?_append, meanings]
    refine (h t List.mem_cons_self).bind fun m hm => ?_
    have hcons : ∀ ms, List.Forall₂ Stands ts ms →
        Tells none (.ok (m :: ms) : Except MeaningError _) (List.Forall₂ Stands (t :: ts)) :=
      fun ms hms => ⟨_, rfl, .cons hm hms⟩
    have hrest := (ih fun u hu => h u (List.mem_cons_of_mem t hu)).bind hcons
    rwa [Option.or_none] at hrest

theorem meaning_tells {t : Tree Leaf} (h : t.WellSorted) : Tells (t.postorder.findSome? fault?) t.meaning (Stands t) := by
  induction h with
  | leaf x text =>
    refine ⟨_, ?_, .token ⟨x.grammarName, text⟩⟩
    rw [meaning, Leaf.meaning, Label.ofName_grammarName]
  | node hlabel _ hpart ih =>
    rw [postorder, List.findSome?_append, List.findSome?_singleton, meaning]
    exact (meanings_tells ih).bind fun ms hms => combine_tells hlabel hpart hms

/-- A whole tree is no part of another. -/
theorem part?_of_isWhole {t : Tree Leaf} (h : isWhole t.label? = true) : t.part? = none := by
  cases t with
  | leaf l => cases h
  | node label children =>
    cases label with
    | path | sign | number => rfl
    | _ => cases h

theorem expression_tells {t : Tree Leaf} (h : t.WellSorted)
    (hlabel : t.label? ∈ [some .path, some .sign, some .number]) :
    Tells (t.postorder.findSome? fault?) t.expression fun e => t.whole? = some e := by
  have hwhole : isWhole t.label? = true := by
    simpa [isWhole, or_assoc] using hlabel
  have hmeaning := meaning_tells h
  rw [expression, if_pos hwhole]
  cases hfirst : t.postorder.findSome? fault? with
  | some f =>
    rw [hfirst] at hmeaning
    obtain hmeaning : t.meaning = .error f := hmeaning
    rw [hmeaning]
    exact rfl
  | none =>
    rw [hfirst] at hmeaning
    obtain ⟨m, hm, hstands⟩ := hmeaning
    rw [hm]
    cases hstands with
    | whole _ he => exact ⟨_, rfl, he⟩
    | selector hp _ | key hp _ => cases (part?_of_isWhole hwhole).symm.trans hp
    | token l => cases hwhole

end Tree

/-- The error of a tree that has its parts where they belong is the fault of the first node at fault, in the order from
    the leaves up and from left to right. If no node is at fault, the tree is what recursion says. What is no path, sign
    or number is an error whatever is below. -/
theorem lowering_first_fault (t : Tree Leaf) :
    (t.WellSorted → t.label? ∈ [some .path, some .sign, some .number] →
      ((∀ n ∈ t.postorder, n.fault? = none) → ∃ e, t.whole? = some e ∧ t.expression = .ok e) ∧
      ∀ before n after f, t.postorder = before ++ n :: after → (∀ m ∈ before, m.fault? = none) →
        n.fault? = some f → t.expression = .error f) ∧
    (t.label? ∉ [some .path, some .sign, some .number] → t.expression = .error (.notExpression t.label?)) := by
  refine ⟨fun hsorted hlabel => ?_, fun hlabel => ?_⟩
  · have htells := Tree.expression_tells hsorted hlabel
    refine ⟨fun hnone => ?_, fun before n after f hsplit hbefore hn => ?_⟩
    · rw [List.findSome?_eq_none_iff.mpr hnone] at htells
      obtain ⟨e, he, hwhole⟩ := htells
      exact ⟨e, hwhole, he⟩
    · rw [List.findSome?_eq_some_iff.mpr ⟨before, n, after, hsplit, hn, hbefore⟩] at htells
      exact htells
  · have hwhole : Tree.isWhole t.label? = false := by
      simp only [List.mem_cons, List.not_mem_nil, or_false, not_or] at hlabel
      simp [Tree.isWhole, hlabel]
    rw [Tree.expression, hwhole]
    rfl

/-- A wrong escape below a node with a part too many, and digits that are none to the right of both. -/
theorem lowering_first_fault_of_escape :
    let key : Tree Leaf := .node .quotedKey [.leaf ⟨"STRING_QT", "'\\q'"⟩]
    let nested : Tree Leaf := .node .current [.node .field [key, .node .bareKey [.leaf ⟨"KEY_LIM", "a"⟩]]]
    let t : Tree Leaf := .node .path [nested, .node .index [.leaf ⟨"UNSIGNED", "1x"⟩]]
    t.WellSorted ∧ t.expression = .error (.badLiteral (.unknownEscape 'q')) ∧
      nested.expression = .error (.notExpression (some .current)) := by
  intro key nested t
  have hkey : key.WellSorted :=
    .node (by decide) (List.forall_mem_singleton.mpr (.leaf Atom.quoted _)) fun p hp => List.forall_mem_singleton.mpr hp
  have hbare : (Tree.node .bareKey [.leaf ⟨"KEY_LIM", "a"⟩]).WellSorted :=
    .node (by decide) (List.forall_mem_singleton.mpr (.leaf Atom.key _)) fun p hp => List.forall_mem_singleton.mpr hp
  have hindex : (Tree.node .index [.leaf ⟨"UNSIGNED", "1x"⟩]).WellSorted :=
    .node (by decide) (List.forall_mem_singleton.mpr (.leaf Atom.unsigned _)) fun p hp => List.forall_mem_singleton.mpr hp
  have hfield : (Tree.node .field [key, .node .bareKey [.leaf ⟨"KEY_LIM", "a"⟩]]).WellSorted :=
    .node (by decide) (List.forall_mem_cons.mpr ⟨hkey, List.forall_mem_singleton.mpr hbare⟩)
      fun p hp => List.forall_mem_cons.mpr ⟨hp, List.forall_mem_singleton.mpr hp⟩
  have hnested : nested.WellSorted :=
    .node (by decide) (List.forall_mem_singleton.mpr hfield) fun p hp => List.forall_mem_singleton.mpr hp
  have ht : t.WellSorted :=
    .node (by decide) (List.forall_mem_cons.mpr ⟨hnested, List.forall_mem_singleton.mpr hindex⟩)
      fun p hp => List.forall_mem_cons.mpr ⟨hp, List.forall_mem_singleton.mpr hp⟩
  obtain ⟨-, hfirst⟩ := (lowering_first_fault t).1 ht (by decide)
  refine ⟨ht, hfirst [.leaf ⟨"STRING_QT", "'\\q'"⟩] key _ _ rfl ?_ (by decide +kernel),
    (lowering_first_fault nested).2 (by decide)⟩
  exact List.forall_mem_singleton.mpr rfl

end JsonPath
