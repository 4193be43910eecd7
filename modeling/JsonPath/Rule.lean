/-
  JsonPath.Rule — what reading is made of.

  A rule starts at a place and replies with a value or with none, with the place it
  stopped at, and with the misses on its way, oldest first. It may stop further on
  without a value: only `attempt` promises to go back. A rule sees nothing but the
  place, so what was missed before it never changes what it does.

  `probe` takes a terminal, and is the only rule that misses; `blanks` passes blanks,
  none or many. The others are built from these two:

  - `do`: one rule after another, until one has no value;
  - `attempt r`: `r`, going back to its start if it has no value;
  - `optional r`: `attempt r`, with a value in either case;
  - `test r`: `r`, for whether it has a value;
  - `r <|> s`: `r`, or `s` from the same start;
  - `firstOf rs`: the first of `rs` with a value, each from the same start;
  - `spaced r`: `r` behind any blanks, going back before the blanks without a value.

  A rule is `Forward` if it never moves back, and `Advances` if it moves on whenever it
  has a value. The last section says how both pass from rules to what is built of them;
  that a chain of selectors ends rests on it.
-/

import JsonPath.Place

namespace JsonPath

def Rule (γ α : Type) : Type := γ → Reply γ α

namespace Rule

variable {γ α β : Type}

def pure (a : α) : Rule γ α := fun c => ⟨some a, c, []⟩

def bind (r : Rule γ α) (f : α → Rule γ β) : Rule γ β := fun c =>
  match r c with
  | ⟨none, stop, misses⟩ => ⟨none, stop, misses⟩
  | ⟨some a, stop, misses⟩ =>
    let next := f a stop
    ⟨next.value, next.stop, misses ++ next.misses⟩

instance : Monad (Rule γ) where
  pure := pure
  bind := bind

def attempt (r : Rule γ α) : Rule γ α := fun c =>
  match r c with
  | ⟨none, _, misses⟩ => ⟨none, c, misses⟩
  | reply => reply

def optional (r : Rule γ α) : Rule γ (Option α) := fun c =>
  let reply := attempt r c
  ⟨some reply.value, reply.stop, reply.misses⟩

/-- `r`, with whether it had a value for its value; it stops where `r` does. -/
def test (r : Rule γ α) : Rule γ Bool := fun c =>
  let reply := r c
  ⟨some reply.value.isSome, reply.stop, reply.misses⟩

def orElse (r : Rule γ α) (s : Unit → Rule γ α) : Rule γ α := fun c =>
  match r c with
  | ⟨none, _, misses⟩ =>
    let reply := s () c
    ⟨reply.value, reply.stop, misses ++ reply.misses⟩
  | reply => reply

instance : OrElse (Rule γ α) := ⟨orElse⟩

def firstOf : List (Rule γ α) → Rule γ α
  | [] => fun c => ⟨none, c, []⟩
  | r :: rs => attempt r <|> firstOf rs

variable [Place γ]

/-- Takes the lexeme of `t`, or misses `t`. -/
def probe (t : Terminal) : Rule γ Token := Place.probe t

/-- Passes any blanks, and says whether there were some. -/
def blanks : Rule γ Bool := Place.blanks

def spaced (r : Rule γ α) : Rule γ α := attempt do
  let _ ← blanks
  r

/-- The mark `m` behind any blanks. -/
def mark (m : Mark) : Rule γ Token := spaced (probe m)

/-- The atom `a` behind any blanks. -/
def atom (a : Atom) : Rule γ Token := spaced (probe a)

/-- The end of the input behind any blanks. -/
def endOfInput : Rule γ Token := spaced (probe .endOfInput)

/-- `r` up to the end of the input. -/
def anchored (r : Rule γ α) : Rule γ α := do
  let a ← r
  let _ ← endOfInput
  return a

/-! ## Moving on -/

def Forward (r : Rule γ α) : Prop := ∀ c, Place.remaining (r c).stop ≤ Place.remaining c

def Advances (r : Rule γ α) : Prop := ∀ c, (r c).value ≠ none → Place.remaining (r c).stop < Place.remaining c

theorem forward_pure (a : α) : Forward (Pure.pure a : Rule γ α) := fun _ => Nat.le_refl _

theorem forward_probe (t : Terminal) : Forward (probe t : Rule γ Token) := Place.probe_le t

theorem forward_blanks : Forward (blanks : Rule γ Bool) := Place.blanks_le

theorem forward_bind {r : Rule γ α} {f : α → Rule γ β} (hr : Forward r) (hf : ∀ a, Forward (f a)) :
    Forward (r >>= f) := by
  intro c
  have h := hr c
  show Place.remaining (bind r f c).stop ≤ _
  unfold bind
  split
  · rename_i he; rw [he] at h; exact h
  · rename_i a stop _ he; rw [he] at h; exact Nat.le_trans (hf a stop) h

theorem forward_attempt {r : Rule γ α} (hr : Forward r) : Forward (attempt r) := by
  intro c
  unfold attempt
  split
  · exact Nat.le_refl _
  · exact hr c

theorem forward_optional {r : Rule γ α} (hr : Forward r) : Forward (optional r) :=
  fun c => forward_attempt hr c

theorem forward_orElse {r s : Rule γ α} (hr : Forward r) (hs : Forward s) : Forward (r <|> s) := by
  intro c
  show Place.remaining (orElse r (fun _ => s) c).stop ≤ _
  unfold orElse
  split
  · exact hs c
  · exact hr c

theorem forward_spaced {r : Rule γ α} (hr : Forward r) : Forward (spaced r) :=
  forward_attempt (forward_bind forward_blanks fun _ => hr)

theorem advances_probe {t : Terminal} (ht : t ≠ .endOfInput) : Advances (probe t : Rule γ Token) :=
  fun c => Place.probe_lt t c ht

/-- One rule that moves on is enough for the two of a sequence, if neither moves back. -/
theorem advances_bind {r : Rule γ α} {f : α → Rule γ β} (hr : Advances r) (hf : ∀ a, Forward (f a)) :
    Advances (r >>= f) := by
  intro c
  have h := hr c
  show (bind r f c).value ≠ none → Place.remaining (bind r f c).stop < _
  unfold bind
  split
  · intro hn; exact absurd rfl hn
  · rename_i a stop _ he
    intro _
    rw [he] at h
    exact Nat.lt_of_le_of_lt (hf a stop) (h (Option.some_ne_none a))

theorem advances_bind_right {r : Rule γ α} {f : α → Rule γ β} (hr : Forward r) (hf : ∀ a, Advances (f a)) :
    Advances (r >>= f) := by
  intro c
  have h := hr c
  show (bind r f c).value ≠ none → Place.remaining (bind r f c).stop < _
  unfold bind
  split
  · intro hn; exact absurd rfl hn
  · rename_i a stop _ he
    intro hn
    rw [he] at h
    exact Nat.lt_of_lt_of_le (hf a stop hn) h

theorem advances_attempt {r : Rule γ α} (hr : Advances r) : Advances (attempt r) := by
  intro c
  unfold attempt
  split
  · intro h; exact absurd rfl h
  · exact hr c

theorem advances_orElse {r s : Rule γ α} (hr : Advances r) (hs : Advances s) : Advances (r <|> s) := by
  intro c
  show (orElse r (fun _ => s) c).value ≠ none → Place.remaining (orElse r (fun _ => s) c).stop < _
  unfold orElse
  split
  · exact hs c
  · exact hr c

theorem advances_firstOf {rs : List (Rule γ α)} (h : ∀ r ∈ rs, Advances r) : Advances (firstOf rs) := by
  induction rs with
  | nil => intro c hn; exact absurd rfl hn
  | cons r rs ih =>
    exact advances_orElse (advances_attempt (h r (List.mem_cons_self ..)))
      (ih fun s hs => h s (List.mem_cons_of_mem _ hs))

theorem advances_spaced {r : Rule γ α} (hr : Advances r) : Advances (spaced r) :=
  advances_attempt (advances_bind_right forward_blanks fun _ => hr)

theorem forward_mark (m : Mark) : Forward (mark m : Rule γ Token) := forward_spaced (forward_probe _)

theorem forward_atom (a : Atom) : Forward (atom a : Rule γ Token) := forward_spaced (forward_probe _)

theorem advances_mark (m : Mark) : Advances (mark m : Rule γ Token) := advances_spaced (advances_probe nofun)

end Rule

end JsonPath
