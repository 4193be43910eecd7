/-
  JsonPath.Cursor — a place in a source, and the text that remains from there.

  A reader moves by `advance`, which never passes the end. `seek` puts a cursor at any
  offset of a source, past its end too: nothing remains there, and the offset is kept
  as it was asked for.
-/

import JsonPath.Location

namespace JsonPath

structure Cursor where
  offset : Nat
  location : Location
  rest : Text
  deriving DecidableEq

namespace Cursor

def start (source : Text) : Cursor := ⟨0, .first, source⟩

def advance : Cursor → Nat → Cursor
  | c, 0 => c
  | ⟨offset, location, []⟩, _ + 1 => ⟨offset, location, []⟩
  | ⟨offset, location, x :: rest⟩, n + 1 => advance ⟨offset + 1, location.after x, rest⟩ n

def seek (source : Text) (offset : Nat) : Cursor :=
  { (start source).advance offset with offset }

@[simp] theorem rest_advance (c : Cursor) (n : Nat) : (c.advance n).rest = c.rest.drop n := by
  fun_induction advance c n <;> simp_all

theorem offset_advance (c : Cursor) (n : Nat) : (c.advance n).offset = c.offset + min n c.rest.length := by
  fun_induction advance c n <;> simp_all
  omega

@[simp] theorem rest_seek (source : Text) (n : Nat) : (seek source n).rest = source.drop n := by
  simp [seek, start]

end Cursor

end JsonPath
