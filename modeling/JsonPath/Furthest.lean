/-
  JsonPath.Furthest — how far reading got.

  A miss is a terminal that was looked for and not found, with the offset at which it
  was looked for. Of all misses only the furthest are remembered: the greatest offset,
  and every terminal missed there. They are what an error reports, whatever was tried
  before or after them and in whichever order.

  The record starts out at the offset `-1`, before every offset of a source, with no
  terminal. A miss before the start of a source counts only if it is there too.
-/

import JsonPath.Terminal

namespace JsonPath

structure Miss where
  offset : Int
  wanted : Terminal
  deriving DecidableEq

structure Furthest where
  offset : Int
  expected : TerminalSet
  deriving DecidableEq

namespace Furthest

/-- The record before any miss. -/
def start : Furthest := ⟨-1, ∅⟩

def note (f : Furthest) (m : Miss) : Furthest :=
  if f.offset < m.offset then ⟨m.offset, .insert m.wanted ∅⟩
  else if f.offset = m.offset then ⟨f.offset, .insert m.wanted f.expected⟩
  else f

/-- The record `f` after the misses `ms`, oldest first. -/
def noteAll (f : Furthest) (ms : List Miss) : Furthest := ms.foldl note f

def ofMisses (ms : List Miss) : Furthest := noteAll start ms

theorem noteAll_append (f : Furthest) (ms ns : List Miss) :
    noteAll f (ms ++ ns) = noteAll (noteAll f ms) ns := List.foldl_append

end Furthest

end JsonPath
