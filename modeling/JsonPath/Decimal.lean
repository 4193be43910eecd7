/-
  JsonPath.Decimal — numerals in base ten.

  `ofDigits` and `numeral` go digit by digit; `value` and `text` do the same for
  numerals of any length, a thousand digits at a time. `value` cuts its chunks from the
  left, so the last may be short; `text` peels them off the right, so all but the first
  are filled up with zeros. The chunks make no difference to what comes out
  (`value_eq_ofDigits`, `text_eq_numeral`).

  What converts a chunk is a parameter of `valueBy` and `textBy`, and may refuse it. What
  they come to depends on no conversion but those of chunks (`valueBy_eq`, `textBy_eq`).

  A numeral that is converted in one piece may not be longer than `digitLimit`. That
  limit does not touch what is converted in chunks.
-/

import JsonPath.Text

namespace JsonPath.Decimal

/-- Ten to the power of `k`. -/
def power (k : Nat) : Nat := Nat.pow 10 k

@[simp] theorem power_zero : power 0 = 1 := rfl

@[simp] theorem power_one : power 1 = 10 := rfl

theorem power_succ (k : Nat) : power (k + 1) = power k * 10 := rfl

theorem power_add (j k : Nat) : power (j + k) = power j * power k := Nat.pow_add 10 j k

theorem power_pos (k : Nat) : 0 < power k := Nat.pow_pos (by decide)

theorem one_lt_power {k : Nat} (hk : 0 < k) : 1 < power k := Nat.one_lt_pow (Nat.pos_iff_ne_zero.mp hk) (by decide)

/-- The value of a run of digits. -/
def ofDigits (digits : Text) : Nat := digits.foldl (fun n d => n * 10 + d.digitValue) 0

/-- The digits of a number, without leading zeros. -/
def numeral (n : Nat) : Text :=
  if n < 10 then [.digit n] else numeral (n / 10) ++ [.digit (n % 10)]

/-- The digits of an integer, behind a minus if it is negative. -/
def signed : Int → Text
  | .ofNat n => numeral n
  | .negSucc n => "-" ++ numeral (n + 1)

def isUnsigned (t : Text) : Bool := !t.isEmpty && t.all CodePoint.isDigit

/-! ## Chunks -/

def chunkLength : Nat := 1000

def chunks (digits : Text) : List Text :=
  if digits = [] then []
  else digits.take chunkLength :: chunks (digits.drop chunkLength)
termination_by digits.length
decreasing_by
  rename_i h
  have := List.length_pos_iff.mpr h
  simp only [List.length_drop, chunkLength]
  omega

/-- The value of a run of digits, by what `convert` makes of its chunks. -/
def valueBy {m : Type → Type} [Monad m] (convert : Text → m Nat) (digits : Text) : m Nat :=
  (chunks digits).foldlM (fun n chunk => return n * power chunk.length + (← convert chunk)) 0

def value (digits : Text) : Nat := Id.run (valueBy (fun chunk => pure (ofDigits chunk)) digits)

def chunkBase : Nat := power chunkLength

theorem one_lt_chunkBase : 1 < chunkBase := one_lt_power (by decide)

/-- The numeral with zeros in front, up to that width. -/
def filled (width : Nat) (t : Text) : Text := List.replicate (width - t.length) (.ofChar '0') ++ t

/-- The numeral of a number, by what `convert` makes of numbers below the base of the chunks. -/
def textBy {m : Type → Type} [Monad m] (convert : Nat → m Text) (n : Nat) : m Text :=
  if n < chunkBase then convert n
  else do
    let low ← convert (n % chunkBase)
    let front ← textBy convert (n / chunkBase)
    return front ++ filled chunkLength low
termination_by n
decreasing_by
  rename_i h
  exact Nat.div_lt_self (by have := one_lt_chunkBase; omega) one_lt_chunkBase

def text (n : Nat) : Text := Id.run (textBy (fun n => pure (numeral n)) n)

/-! ## Chunks make no difference -/

theorem foldl_digits (m : Nat) (b : Text) :
    b.foldl (fun n d => n * 10 + d.digitValue) m = m * power b.length + ofDigits b := by
  induction b generalizing m with
  | nil => simp [ofDigits]
  | cons d b ih =>
    simp only [ofDigits, List.foldl_cons, List.length_cons] at ih ⊢
    rw [ih, ih (0 * 10 + d.digitValue)]
    simp only [power_succ, Nat.add_mul, Nat.zero_mul, Nat.zero_add, Nat.mul_assoc, Nat.add_assoc,
      Nat.mul_comm (power b.length) 10]

theorem ofDigits_append (a b : Text) : ofDigits (a ++ b) = ofDigits a * power b.length + ofDigits b := by
  rw [ofDigits, List.foldl_append, foldl_digits]; rfl

theorem foldl_chunks (m : Nat) (digits : Text) :
    (chunks digits).foldl (fun n chunk => n * power chunk.length + ofDigits chunk) m =
      m * power digits.length + ofDigits digits := by
  fun_induction chunks digits generalizing m with
  | case1 => simp [ofDigits]
  | case2 digits h ih =>
    rw [List.foldl_cons, ih]
    conv => rhs; rw [← List.take_append_drop chunkLength digits, ofDigits_append, List.length_append, power_add]
    simp only [Nat.add_mul, Nat.mul_assoc, Nat.add_assoc]

theorem foldlM_chunks {m : Type → Type} [Monad m] [LawfulMonad m] {convert : Text → m Nat} {cs : List Text}
    (h : ∀ chunk ∈ cs, convert chunk = pure (ofDigits chunk)) (n : Nat) :
    cs.foldlM (fun n chunk => return n * power chunk.length + (← convert chunk)) n =
      pure (cs.foldl (fun n chunk => n * power chunk.length + ofDigits chunk) n) := by
  induction cs generalizing n with
  | nil => rfl
  | cons chunk cs ih =>
    rw [List.forall_mem_cons] at h
    rw [List.foldlM_cons, h.1, pure_bind, pure_bind, ih h.2, List.foldl_cons]

theorem valueBy_eq {m : Type → Type} [Monad m] [LawfulMonad m] {convert : Text → m Nat} {digits : Text}
    (h : ∀ chunk ∈ chunks digits, convert chunk = pure (ofDigits chunk)) :
    valueBy convert digits = pure (ofDigits digits) := by
  rw [valueBy, foldlM_chunks h, foldl_chunks, Nat.zero_mul, Nat.zero_add]

theorem value_eq_ofDigits (digits : Text) : value digits = ofDigits digits :=
  congrArg Id.run (valueBy_eq fun _ _ => rfl)

theorem digitValue_digit {n : Nat} (h : n < 10) : (CodePoint.digit n).digitValue = n :=
  (by decide : ∀ n : Fin 10, (CodePoint.digit n).digitValue = n) ⟨n, h⟩

theorem ofDigits_numeral (n : Nat) : ofDigits (numeral n) = n := by
  fun_induction numeral n with
  | case1 n h => simp [ofDigits, digitValue_digit h]
  | case2 n h ih =>
    have hd := digitValue_digit (Nat.mod_lt n (by decide : 0 < 10))
    rw [ofDigits_append, ih]
    simp only [ofDigits, List.foldl_cons, List.foldl_nil, List.length_singleton, power_one, hd]
    omega

theorem filled_succ {k : Nat} (hk : 0 < k) (n : Nat) :
    filled (k + 1) (numeral n) = filled k (numeral (n / 10)) ++ [.digit (n % 10)] := by
  unfold filled
  by_cases h : n < 10
  · have h0 : n / 10 = 0 := by omega
    have hz : numeral 0 = [.ofChar '0'] := by rw [numeral]; rfl
    rw [numeral, if_pos h, h0, hz, Nat.mod_eq_of_lt h, List.length_singleton, List.length_singleton,
      ← List.replicate_succ', Nat.sub_add_cancel hk, Nat.add_sub_cancel]
  · have hn : numeral n = numeral (n / 10) ++ [.digit (n % 10)] := by rw [numeral, if_neg h]
    rw [hn, List.length_append, List.length_singleton, Nat.add_sub_add_right, List.append_assoc]

theorem numeral_eq_append_filled {k n : Nat} (hk : 0 < k) (h : power k ≤ n) :
    numeral n = numeral (n / power k) ++ filled k (numeral (n % power k)) := by
  induction k generalizing n with
  | zero => cases hk
  | succ k ih =>
    have hn : numeral n = numeral (n / 10) ++ [.digit (n % 10)] := by
      have := power_pos k
      rw [power_succ] at h
      rw [numeral, if_neg (by omega)]
    have hdiv : n / power (k + 1) = n / 10 / power k := by rw [power_succ, Nat.mul_comm, Nat.div_div_eq_div_mul]
    have hmod : n % power (k + 1) % 10 = n % 10 := Nat.mod_mod_of_dvd n (power_succ k ▸ Nat.dvd_mul_left ..)
    have hmid : n % power (k + 1) / 10 = n / 10 % power k := by
      rw [power_succ, Nat.mul_comm, Nat.mod_mul_right_div_self]
    rcases Nat.eq_zero_or_pos k with rfl | hk'
    · have hone : numeral (n % 10) = [.digit (n % 10)] := by rw [numeral, if_pos (Nat.mod_lt n (by decide))]
      rw [hn, filled, Nat.zero_add, power_one, hone]
      rfl
    · have hle : power k ≤ n / 10 := (Nat.le_div_iff_mul_le (by decide)).mpr (by rwa [← power_succ])
      rw [hn, filled_succ hk', hmod, hmid, hdiv, ← List.append_assoc, ← ih hk' hle]

theorem textBy_eq {m : Type → Type} [Monad m] [LawfulMonad m] {convert : Nat → m Text}
    (h : ∀ n < chunkBase, convert n = pure (numeral n)) (n : Nat) : textBy convert n = pure (numeral n) := by
  fun_induction textBy convert n with
  | case1 n hn => exact h n hn
  | case2 n hn ih =>
    have hlow := h (n % chunkBase) (Nat.mod_lt n (power_pos chunkLength))
    have hfront := numeral_eq_append_filled (by decide) (Nat.le_of_not_lt hn)
    rw [hlow, pure_bind, ih, pure_bind, hfront]
    rfl

theorem text_eq_numeral (n : Nat) : text n = numeral n := congrArg Id.run (textBy_eq (fun _ _ => rfl) n)

/-! ## In one piece -/

def digitLimit : Nat := 4300

/-- A numeral of more than `digitLimit` digits, where one piece was asked for. -/
inductive TooLong where
  /-- A number whose numeral would be too long. -/
  | number
  /-- A numeral of that many digits. -/
  | numeral (digits : Nat)
  deriving DecidableEq

def TooLong.message : TooLong → Text
  | .number =>
    "Exceeds the limit (" ++ Decimal.numeral digitLimit ++ " digits) for integer string conversion; " ++
      "use sys.set_int_max_str_digits() to increase the limit"
  | .numeral digits =>
    "Exceeds the limit (" ++ Decimal.numeral digitLimit ++ " digits) for integer string conversion: value has " ++
      Decimal.numeral digits ++ " digits; use sys.set_int_max_str_digits() to increase the limit"

/-- The text of an integer. Only a negative one is converted in one piece. -/
def textInt : Int → Except TooLong Text
  | .ofNat n => .ok (text n)
  | .negSucc n =>
    let digits := text (n + 1)
    if digits.length ≤ digitLimit then .ok ("-" ++ digits) else .error .number

end JsonPath.Decimal
