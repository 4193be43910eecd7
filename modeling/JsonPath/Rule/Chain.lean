/-
  JsonPath.Rule.Chain — chains of selectors.

  A chain is one or more selectors, left to right, where each `@` takes the rest of
  the chain as its own: `$@.a@[0]` is `$` and a selector that holds `.a` and a
  selector that holds `[0]`. Nesting is as deep as there are `@`s, so a chain is read
  in two steps that do not nest. `links` collects the selectors and the `@`s as they
  come, each with the place behind it; `fold` then makes each `@` and what follows it
  one selector, from the last to the first. An `@` that nothing follows is no selector:
  the chain ends before it.
-/

import JsonPath.Rule.Selector

namespace JsonPath

inductive Link where
  | selector (tree : Tree Token)
  | current

/-- The links of a chain, each with the place behind it, and the misses on the way. -/
structure Links (γ : Type) where
  links : List (Link × γ)
  misses : List Miss

namespace Rule

variable {γ : Type} [Place γ]

def linksOf (order : List Alternative) (c : γ) : Links γ :=
  match hs : selectorOf order c with
  | ⟨some tree, stop, misses⟩ =>
    have : Place.remaining stop < Place.remaining c := by
      simpa [hs] using advances_selectorOf order c
    let more := linksOf order stop
    ⟨(.selector tree, stop) :: more.links, misses ++ more.misses⟩
  | ⟨none, _, misses⟩ =>
    match ha : mark .at c with
    | ⟨some _, stop, misses'⟩ =>
      have : Place.remaining stop < Place.remaining c := by
        simpa [ha] using advances_mark .at c
      let more := linksOf order stop
      ⟨(.current, stop) :: more.links, misses ++ misses' ++ more.misses⟩
    | ⟨none, _, misses'⟩ => ⟨[], misses ++ misses'⟩
termination_by Place.remaining c

/-- The selectors of a chain that starts at `c`, and the place behind the last of them. -/
def fold {γ : Type} (c : γ) : List (Link × γ) → List (Tree Token) × γ
  | [] => ([], c)
  | (.selector tree, stop) :: links =>
    let (trees, last) := fold stop links
    (tree :: trees, last)
  | (.current, stop) :: links =>
    match fold stop links with
    | ([], _) => ([], c)
    | (trees, last) => ([.node .current trees], last)

def chainOf (order : List Alternative) : Rule γ (List (Tree Token)) := fun c =>
  let found := linksOf order c
  match fold c found.links with
  | ([], stop) => ⟨none, stop, found.misses⟩
  | (trees, stop) => ⟨some trees, stop, found.misses⟩

def chain : Rule γ (List (Tree Token)) := chainOf Alternative.standard

/-- A whole path: a chain up to the end of the input. -/
def pathOf (order : List Alternative) : Rule γ (Tree Token) := do
  let selectors ← anchored (chainOf order)
  return .node .path selectors

def path : Rule γ (Tree Token) := pathOf Alternative.standard

end Rule

end JsonPath
