/-
  JsonPath.Place.Wrapped — reading from before the start of a source.

  A place before the start names a position from the end, as in `JsonPath.Position`,
  but reading goes up from it through zero: whoever moves on past the last element
  goes on with the first one, and only then comes to the end of the input. Marks,
  signs and blanks are looked for in the slice that starts at the place, so they never
  reach around. Other atoms are read element by element, and do.

  Further back than the source is long there is no element to look at. Marks, signs
  and blanks are still looked for there, at the start of the source. An atom that is
  read element by element is a miss, and a blind one: `Miss.isBlind` tells it from one
  that looked at something.

  A token that was read around the start has for its text what lies between its
  offsets, as a slice: often nothing.
-/

import JsonPath.Place

namespace JsonPath

structure WrappedCursor where
  source : Text
  offset : Int
  deriving DecidableEq

/-- Whether a terminal is read element by element, and not compared with its spellings. -/
def Terminal.isOpen : Terminal → Bool
  | .atom .sign => false
  | .atom _ => true
  | _ => false

/-- Whether a miss, in that source, looked for an element further back than there is one. -/
def Miss.isBlind (source : Text) (m : Miss) : Bool := m.wanted.isOpen && m.offset < -(source.length : Int)

namespace WrappedCursor

/-- What is read element by element. -/
def around (c : WrappedCursor) : Text :=
  if c.offset < -(c.source.length : Int) then []
  else if c.offset < 0 then c.source.drop (countBefore c.source c.offset) ++ c.source
  else c.source.drop c.offset.toNat

/-- What is compared with spellings. -/
def ahead (c : WrappedCursor) : Text := c.source.drop (countBefore c.source c.offset)

def isAtEnd (c : WrappedCursor) : Bool := c.source.length ≤ c.offset

def remaining (c : WrappedCursor) : Nat := (c.source.length - c.offset).toNat

def advance (c : WrappedCursor) (n : Nat) : WrappedCursor :=
  { c with offset := min (c.offset + n) (max c.offset c.source.length) }

/-- The lexeme of a terminal, which is empty for the end of the input. -/
def lexeme? (c : WrappedCursor) (t : Terminal) : Option Text :=
  if t = .endOfInput then (if c.isAtEnd then some [] else none)
  else t.lexeme? (if t.isOpen then c.around else c.ahead)

def probe (t : Terminal) (c : WrappedCursor) : Reply WrappedCursor Token :=
  match c.lexeme? t with
  | some w =>
    let stop := c.advance w.length
    let text := if t.isOpen then slice c.source c.offset stop.offset else w
    ⟨some ⟨t, text, c.offset, stop.offset, .ofOffset c.source c.offset⟩, stop, []⟩
  | none => ⟨none, c, [⟨c.offset, t⟩]⟩

/-! ## Moving on -/

theorem remaining_advance_le (c : WrappedCursor) (n : Nat) : (c.advance n).remaining ≤ c.remaining := by
  simp only [advance, remaining]
  omega

theorem remaining_advance_lt {c : WrappedCursor} {n : Nat} (hn : 0 < n) (h : c.offset < c.source.length) :
    (c.advance n).remaining < c.remaining := by
  simp only [advance, remaining]
  omega

theorem offset_lt_of_ahead {c : WrappedCursor} (h : c.ahead ≠ []) : c.offset < c.source.length := by
  have : ¬ c.source.length ≤ countBefore c.source c.offset := fun hl => h (List.drop_eq_nil_iff.mpr hl)
  unfold countBefore at this
  split at this <;> omega

theorem offset_lt_of_around {c : WrappedCursor} (h : c.around ≠ []) : c.offset < c.source.length := by
  unfold around at h
  split at h
  · exact absurd rfl h
  · split at h
    · omega
    · have : ¬ c.source.length ≤ c.offset.toNat := fun hl => h (List.drop_eq_nil_iff.mpr hl)
      omega

/-! ## Blanks -/

def blankSpellings : List Text := ["\r\n", "\n", " ", "\t"]

/-- The blank at a place. -/
def blank? (c : WrappedCursor) : Option Text := blankSpellings.find? (·.isPrefixOf c.ahead)

theorem remaining_advance_blank {c : WrappedCursor} {w : Text} (h : c.blank? = some w) :
    (c.advance w.length).remaining < c.remaining := by
  unfold blank? at h
  have hw : w ≠ [] := (by decide : ∀ w ∈ blankSpellings, w ≠ []) w (List.mem_of_find?_eq_some h)
  have hp := List.find?_some h
  exact remaining_advance_lt (List.length_pos_iff.mpr hw) (offset_lt_of_ahead fun ha => hw (by simpa [ha] using hp))

def passBlanks (c : WrappedCursor) : WrappedCursor :=
  match h : c.blank? with
  | none => c
  | some w =>
    have := remaining_advance_blank h
    (c.advance w.length).passBlanks
termination_by c.remaining

theorem remaining_passBlanks_le (c : WrappedCursor) : c.passBlanks.remaining ≤ c.remaining := by
  fun_induction passBlanks c with
  | case1 => exact Nat.le_refl _
  | case2 c w h hlt ih => exact Nat.le_trans ih (Nat.le_of_lt hlt)

def blanks (c : WrappedCursor) : Reply WrappedCursor Bool :=
  let stop := c.passBlanks
  ⟨some (stop.offset ≠ c.offset), stop, []⟩

instance : Place WrappedCursor where
  offset := offset
  remaining := remaining
  probe := probe
  blanks := blanks
  probe_le t c := by
    unfold probe
    split
    · exact remaining_advance_le ..
    · exact Nat.le_refl _
  probe_lt t c ht h := by
    unfold probe at h ⊢
    split
    · rename_i w hw
      rw [lexeme?, if_neg ht] at hw
      have hn := Terminal.lexeme?_ne_nil ht hw
      have hp := Terminal.lexeme?_isPrefix hw
      refine remaining_advance_lt (List.length_pos_iff.mpr hn) ?_
      split at hp
      · exact offset_lt_of_around fun ha => hn (by simpa [ha] using hp)
      · exact offset_lt_of_ahead fun ha => hn (by simpa [ha] using hp)
    · rename_i hw
      simp [hw] at h
  blanks_le := remaining_passBlanks_le

end WrappedCursor

end JsonPath
