/-
  JsonPath.Place — what a rule reads from.

  A place is where reading stands. Two things can be done at a place: to probe for a
  terminal, and to pass blanks. Each replies with a value or with none, with the place
  it stopped at and with what it missed, and never goes back: something `remaining` of
  a place never grows, and shrinks whenever a terminal was taken. Only the end of the
  input is taken without moving on.

  A `Cursor` is the place that reading a source starts from, and all that reading ever
  comes to. The other kind of place is in `JsonPath.Place.Wrapped`.
-/

import JsonPath.Cursor
import JsonPath.Furthest
import JsonPath.Lexeme
import JsonPath.Tree

namespace JsonPath

/-- What came of reading at a place: `misses` are in the order in which they happened. -/
structure Reply (γ α : Type) where
  value : Option α
  stop : γ
  misses : List Miss

class Place (γ : Type) where
  offset : γ → Int
  remaining : γ → Nat
  /-- Takes the lexeme of a terminal, or misses the terminal. -/
  probe : Terminal → γ → Reply γ Token
  /-- Passes any blanks, and says whether there were some. -/
  blanks : γ → Reply γ Bool
  probe_le (t : Terminal) (c : γ) : remaining (probe t c).stop ≤ remaining c
  probe_lt (t : Terminal) (c : γ) : t ≠ .endOfInput → (probe t c).value ≠ none →
    remaining (probe t c).stop < remaining c
  blanks_le (c : γ) : remaining (blanks c).stop ≤ remaining c

/-- A reply that tells only the offset of where it stopped. -/
def Reply.atOffset {γ α : Type} [Place γ] (r : Reply γ α) : Reply Int α := ⟨r.value, Place.offset r.stop, r.misses⟩

/-! ## Cursors -/

namespace Cursor

def probe (t : Terminal) (c : Cursor) : Reply Cursor Token :=
  match t.lexeme? c.rest with
  | some w =>
    let stop := c.advance w.length
    ⟨some ⟨t, w, c.offset, stop.offset, c.location⟩, stop, []⟩
  | none => ⟨none, c, [⟨c.offset, t⟩]⟩

def blanks (c : Cursor) : Reply Cursor Bool :=
  let run := Lexeme.blanks c.rest
  ⟨some (run ≠ []), c.advance run.length, []⟩

theorem length_rest_advance_le (c : Cursor) (n : Nat) : (c.advance n).rest.length ≤ c.rest.length := by
  rw [rest_advance, List.length_drop]
  exact Nat.sub_le ..

theorem length_rest_probe_lt {t : Terminal} {c : Cursor} (ht : t ≠ .endOfInput) (h : (c.probe t).value ≠ none) :
    (c.probe t).stop.rest.length < c.rest.length := by
  unfold probe at h ⊢
  split
  · rename_i w hw
    have hp := (Terminal.lexeme?_isPrefix hw).length_le
    have hn := List.length_pos_iff.mpr (Terminal.lexeme?_ne_nil ht hw)
    simp only [rest_advance, List.length_drop]
    omega
  · rename_i hw
    simp [hw] at h

instance : Place Cursor where
  offset c := c.offset
  remaining c := c.rest.length
  probe := probe
  blanks := blanks
  probe_le t c := by
    unfold probe
    split
    · exact length_rest_advance_le ..
    · exact Nat.le_refl _
  probe_lt _ _ := length_rest_probe_lt
  blanks_le c := length_rest_advance_le ..

end Cursor

end JsonPath
