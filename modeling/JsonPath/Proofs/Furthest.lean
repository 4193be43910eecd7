/-
  JsonPath.Proofs.Furthest — what the record of the furthest misses holds.

  However the misses come, the record has the greatest of their offsets and exactly the
  terminals missed there. Proved: `le_offset_noteAll`, `offset_noteAll`,
  `mem_expected_noteAll`, and the same of a record from the start.
-/

import JsonPath.Furthest

namespace JsonPath.Furthest

variable (f : Furthest) (m : Miss) (ms : List Miss) (t : Terminal)

/-! ## One miss -/

theorem offset_note : (f.note m).offset = max f.offset m.offset := by
  unfold note
  split
  · show m.offset = _
    omega
  · split
    · show f.offset = _
      omega
    · omega

theorem mem_expected_note : t ∈ (f.note m).expected ↔
    ((f.note m).offset = m.offset ∧ t = m.wanted) ∨ ((f.note m).offset = f.offset ∧ t ∈ f.expected) := by
  rw [offset_note]
  unfold note
  split
  · have heq : max f.offset m.offset = m.offset := by omega
    simp [heq]
    omega
  · split
    · rename_i heq
      simp [heq]
    · have heq : max f.offset m.offset = f.offset := by omega
      simp [heq]
      omega

theorem offset_note_of_le {f : Furthest} {m : Miss} (h : m.offset ≤ f.offset) : (f.note m).offset = f.offset := by
  rw [offset_note]
  omega

theorem mem_expected_note_of_le {f : Furthest} {m : Miss} (h : m.offset ≤ f.offset) :
    t ∈ (f.note m).expected ↔ t ∈ f.expected ∨ m.offset = f.offset ∧ t = m.wanted := by
  rw [mem_expected_note, offset_note_of_le h]
  constructor
  · rintro (⟨heq, ht⟩ | ⟨-, ht⟩)
    · exact .inr ⟨heq.symm, ht⟩
    · exact .inl ht
  · rintro (ht | ⟨heq, ht⟩)
    · exact .inr ⟨rfl, ht⟩
    · exact .inl ⟨heq.symm, ht⟩

/-! ## Misses in turn -/

theorem offset_le_noteAll : f.offset ≤ (f.noteAll ms).offset := by
  induction ms generalizing f with
  | nil => exact Int.le_refl _
  | cons m ms ih =>
    have := ih (f.note m)
    rw [offset_note] at this
    exact Int.le_trans (by omega) this

theorem le_offset_noteAll {m : Miss} (h : m ∈ ms) : m.offset ≤ (f.noteAll ms).offset := by
  induction ms generalizing f with
  | nil => cases h
  | cons n ms ih =>
    rcases List.mem_cons.mp h with rfl | h
    · have := offset_le_noteAll (f.note m) ms
      rw [offset_note] at this
      exact Int.le_trans (by omega) this
    · exact ih (f.note n) h

theorem offset_noteAll : (f.noteAll ms).offset = f.offset ∨ ∃ m ∈ ms, m.offset = (f.noteAll ms).offset := by
  induction ms generalizing f with
  | nil => exact .inl rfl
  | cons n ms ih =>
    rcases ih (f.note n) with h | ⟨m, hm, h⟩
    · have hmax : (f.noteAll (n :: ms)).offset = max f.offset n.offset := h.trans (offset_note f n)
      rcases Int.le_total n.offset f.offset with hle | hle
      · exact .inl (by omega)
      · exact .inr ⟨n, List.mem_cons_self .., by omega⟩
    · exact .inr ⟨m, List.mem_cons_of_mem _ hm, h⟩

theorem mem_expected_noteAll : t ∈ (f.noteAll ms).expected ↔
    ⟨(f.noteAll ms).offset, t⟩ ∈ ms ∨ ((f.noteAll ms).offset = f.offset ∧ t ∈ f.expected) := by
  induction ms generalizing f with
  | nil => simp [noteAll]
  | cons n ms ih =>
    have hcons : f.noteAll (n :: ms) = (f.note n).noteAll ms := rfl
    have hle := offset_le_noteAll (f.note n) ms
    have hn : (⟨(f.noteAll (n :: ms)).offset, t⟩ : Miss) = n ↔ (f.noteAll (n :: ms)).offset = n.offset ∧ t = n.wanted := by
      cases n
      simp
    rw [List.mem_cons, hn, hcons, ih, mem_expected_note]
    rw [offset_note] at hle ⊢
    constructor
    · rintro (h | ⟨heq, ⟨hoff, ht⟩ | ⟨hoff, ht⟩⟩)
      · exact .inl (.inr h)
      · exact .inl (.inl ⟨heq.trans hoff, ht⟩)
      · exact .inr ⟨heq.trans hoff, ht⟩
    · rintro ((⟨heq, ht⟩ | h) | ⟨heq, ht⟩)
      · exact .inr ⟨by omega, .inl ⟨by omega, ht⟩⟩
      · exact .inl h
      · exact .inr ⟨by omega, .inr ⟨by omega, ht⟩⟩

/-! ## From the start -/

theorem ofMisses_concat : ofMisses (ms ++ [m]) = (ofMisses ms).note m := noteAll_append ..

theorem mem_expected_ofMisses : t ∈ (ofMisses ms).expected ↔ ⟨(ofMisses ms).offset, t⟩ ∈ ms := by
  rw [ofMisses, mem_expected_noteAll]
  simp [start]

end JsonPath.Furthest
