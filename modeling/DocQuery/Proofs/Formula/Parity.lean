/-
Even and odd numbers.

* `Number.IsInteger` — whether a double is an integer, exactly;
* `Number.Binary.toRat_eq_iff` — the integer that a double is, from its parts;
* `Number.even_of_large` — a double of `2 ^ 53` or more is even;
* `Number.integerPart_mod_two` — the parity of the whole part, which is cut off to 64 bits;
* `parity_is_right_below` — `IsEven` and `IsOdd` are right below `2 ^ 63`, and say of every larger
  number that it is odd;
* `even_number_is_odd` — the least number for which they are wrong.

Design notes: the whole part that is too large becomes `2 ^ 63 - 1`, which is odd, and one that is
too small becomes `- 2 ^ 63`, which is even. Doubles outside of the range are even, since so few
digits fit a mantissa. So only the upper end does harm.
-/
import DocQuery.Proofs.Formula.Wording

namespace DocQuery

namespace Number

/-! ### Doubles that are integers -/

namespace Binary

/-- The sign of a finite double, as a factor. -/
def sign (b : Binary) : Int := if b.negative then -1 else 1

/-- The number that the parts of a finite double stand for. -/
def toRat (b : Binary) : ℚ := b.sign * b.mantissa * 2 ^ b.exponent

/-- The whole part of a finite double, with its sign. -/
def whole (b : Binary) : Int := b.sign * b.wholePart

variable {b : Binary} {n : Int}

theorem sign_mul_self (b : Binary) : b.sign * b.sign = 1 := by
  rw [sign]
  split <;> rfl

/-- What stands in front of a power of two, with a factor on either side for the two signs that the
exponent can have. -/
theorem toRat_eq_iff_scaled : b.toRat = n ↔
    b.sign * (b.mantissa * 2 ^ b.exponent.toNat : Nat) = n * (2 ^ (-b.exponent).toNat : Nat) := by
  have hpower : (2 : ℚ) ^ b.exponent = 2 ^ b.exponent.toNat / 2 ^ (-b.exponent).toNat := by
    conv_lhs => rw [← Int.toNat_sub_toNat_neg b.exponent]
    rw [zpow_sub₀ two_ne_zero, zpow_natCast, zpow_natCast]
  have hpos : (2 : ℚ) ^ (-b.exponent).toNat ≠ 0 := by positivity
  rw [toRat, hpower, ← mul_div_assoc, div_eq_iff hpos, mul_assoc]
  exact_mod_cast Iff.rfl

theorem wholePart_mul (hwhole : b.isWhole) :
    b.wholePart * 2 ^ (-b.exponent).toNat = b.mantissa * 2 ^ b.exponent.toNat := by
  have hdvd : 2 ^ (-b.exponent).toNat ∣ b.mantissa :=
    Nat.dvd_of_mod_eq_zero (of_decide_eq_true hwhole)
  exact Nat.div_mul_cancel (Dvd.dvd.mul_right hdvd _)

/-- A finite double is an integer if it has no fraction, and then it is its whole part. -/
theorem toRat_eq_iff : b.toRat = n ↔ b.isWhole ∧ b.whole = n := by
  have hpos : ((2 ^ (-b.exponent).toNat : Nat) : Int) ≠ 0 := by positivity
  rw [toRat_eq_iff_scaled]
  constructor
  · intro h
    have hmagnitude : ((b.mantissa * 2 ^ b.exponent.toNat : Nat) : Int) =
        b.sign * n * (2 ^ (-b.exponent).toNat : Nat) := by
      rw [mul_assoc, ← h, ← mul_assoc, b.sign_mul_self, one_mul]
    have hdvd : 2 ^ (-b.exponent).toNat ∣ b.mantissa * 2 ^ b.exponent.toNat :=
      Int.natCast_dvd_natCast.1 ⟨b.sign * n, by rw [hmagnitude, mul_comm]⟩
    have hwhole : b.isWhole := by
      refine decide_eq_true (Nat.mod_eq_zero_of_dvd ?_)
      -- only one of the two powers is more than one
      rcases le_total 0 b.exponent with hsign | hsign
      · rw [Int.toNat_of_nonpos (by omega)]
        exact one_dvd _
      · rw [Int.toNat_of_nonpos hsign, pow_zero, mul_one] at hdvd
        exact hdvd
    refine ⟨hwhole, mul_right_cancel₀ hpos ?_⟩
    rw [← h, whole, mul_assoc, ← wholePart_mul hwhole]
    push_cast
    rfl
  · rintro ⟨hwhole, rfl⟩
    rw [whole, mul_assoc, ← wholePart_mul hwhole]
    push_cast
    rfl

end Binary

/-- Whether a double is the integer `n`. -/
def IsInteger (x : Float) (n : Int) : Prop :=
  ∃ b, decode x = .finite b ∧ b.toRat = n

variable {x : Float} {n : Int}

theorem isIntegral_of_isInteger (h : IsInteger x n) : isIntegral x := by
  obtain ⟨b, hx, hb⟩ := h
  rw [isIntegral, hx]
  exact (Binary.toRat_eq_iff.1 hb).1

/-! ### Doubles outside of the range of 64 bits -/

/-- A mantissa has 53 bits at most. -/
theorem mantissa_lt {b : Binary} (h : decode x = .finite b) : b.mantissa < 2 ^ 53 := by
  have hfraction : x.toBits.toNat % 2 ^ 52 < 2 ^ 52 := Nat.mod_lt _ (by decide)
  rw [decode] at h
  simp only [Nat.pow_eq] at h
  split_ifs at h
  all_goals
    obtain rfl := Decoded.finite.inj h
    simp only
    omega

/-- A double of `2 ^ 53` or more is even. -/
theorem even_of_large (h : IsInteger x n) (hlarge : 2 ^ 53 ≤ n.natAbs) : 2 ∣ n := by
  obtain ⟨b, hx, hb⟩ := h
  obtain ⟨hwhole, rfl⟩ := Binary.toRat_eq_iff.1 hb
  have hparts := Binary.wholePart_mul hwhole
  have hmantissa := mantissa_lt hx
  have hmagnitude : b.whole.natAbs = b.wholePart := by
    rw [Binary.whole, Binary.sign]
    split <;> simp
  rw [hmagnitude] at hlarge
  rcases le_or_gt b.exponent 0 with hexponent | hexponent
  · -- without a power of two before it, the mantissa is too short
    have hle : b.wholePart ≤ b.wholePart * 2 ^ (-b.exponent).toNat :=
      Nat.le_mul_of_pos_right _ (by positivity)
    rw [Int.toNat_of_nonpos hexponent, pow_zero, mul_one] at hparts
    omega
  · rw [Int.toNat_of_nonpos (show -b.exponent ≤ 0 by omega), pow_zero, mul_one] at hparts
    have hpower : 2 ∣ 2 ^ b.exponent.toNat := dvd_pow_self 2 (by omega)
    rw [← Int.natAbs_dvd_natAbs, hmagnitude, hparts]
    exact Dvd.dvd.mul_left hpower _

/-- The whole part of an integer is the integer, cut off to 64 bits. -/
theorem integerPart_of_isInteger (h : IsInteger x n) :
    integerPart x = max (-2 ^ 63) (min (2 ^ 63 - 1) n) := by
  obtain ⟨b, hx, hb⟩ := h
  obtain ⟨-, rfl⟩ := Binary.toRat_eq_iff.1 hb
  rw [integerPart, hx, Binary.whole, Binary.sign]
  simp only [Nat.pow_eq]
  push_cast
  split
  · rw [neg_one_mul]
  · rw [one_mul]

/-- The parity of the whole part is that of the integer, unless this is cut off above. -/
theorem integerPart_mod_two (h : IsInteger x n) :
    integerPart x % 2 = 0 ↔ 2 ∣ n ∧ n < 2 ^ 63 := by
  rw [integerPart_of_isInteger h]
  rcases le_or_gt (2 ^ 63) n with habove | habove
  · have hlimit : max (-2 ^ 63 : Int) (min (2 ^ 63 - 1) n) = 2 ^ 63 - 1 := by omega
    rw [hlimit]
    omega
  rcases le_or_gt (-2 ^ 63) n with hinside | hbelow
  · have hsame : max (-2 ^ 63 : Int) (min (2 ^ 63 - 1) n) = n := by omega
    rw [hsame]
    omega
  · have hlimit : max (-2 ^ 63 : Int) (min (2 ^ 63 - 1) n) = -2 ^ 63 := by omega
    have heven := even_of_large h (by omega)
    rw [hlimit]
    omega

end Number

/-! ### The parity of an operand -/

/-- All that a function of integers sees of one is the whole part. -/
theorem integer_of_isInteger {a : Operand} {x : Float} {n : Int} (name : String)
    (hx : a.number = .ok x) (hn : Number.IsInteger x n) :
    UnaryFunction.integer name a = .ok (Number.integerPart x) := by
  rw [UnaryFunction.integer, hx, Except.ok_bind, if_pos (Number.isIntegral_of_isInteger hn)]

section Texts

variable {s : Naming} {c : Context} {operand : Expr} {v : Value} {x : Float} {n : Int}

/-- A function of an operand comes to what it makes of the value of the operand. -/
theorem outcome_apply {name : String} {function : UnaryFunction}
    (hmeaning : s.vocabulary.functions.lookup name = some (.unary function))
    (hvalue : operand.outcome s c = .ok v) : ∃ p,
      (Expr.call name [operand] .start).outcome s c = function.run c.options ⟨v, p⟩ := by
  obtain ⟨f, hf, hv⟩ := Except.bind_eq_ok_iff.1 hvalue
  refine ⟨f.position, ?_⟩
  rw [Expr.outcome, compile_apply s hmeaning, hf, Except.map, Except.ok_bind, evaluate,
    Traced.outcome_bind, hv]
  rfl

/-- A function of integers comes to its answer for the whole part of the operand. -/
theorem outcome_of_integer {name : String} {function : UnaryFunction} {answer : Int → Value}
    (hmeaning : s.vocabulary.functions.lookup name = some (.unary function))
    (hrun : ∀ options a, function.run options a = (UnaryFunction.integer name a).map answer)
    (hvalue : operand.outcome s c = .ok v) {p : Position} (hx : v.toNumber p = .ok x)
    (hn : Number.IsInteger x n) :
    (Expr.call name [operand] .start).outcome s c = .ok (answer (Number.integerPart x)) := by
  obtain ⟨q, hcall⟩ := outcome_apply hmeaning hvalue
  have hinteger := integer_of_isInteger (a := ⟨v, q⟩) name ((Value.toNumber_congr rfl).1 hx) hn
  rw [hcall, hrun, hinteger]
  rfl

/-- Of an operand that is an integer, `IsEven` says whether it is divisible by two and below
`2 ^ 63`, and `IsOdd` the opposite. All doubles that are integers from there on are divisible by
two, so both are right exactly below `2 ^ 63`. -/
theorem parity_is_right_below (hv : s.vocabulary.Extends .standard) {text : String}
    {origin : Position} (htext : s.dialect.language.Parses text origin operand)
    (hvalue : outcomeIn s c text origin = .ok v) {p : Position} (hx : v.toNumber p = .ok x)
    (hn : Number.IsInteger x n) :
    let isEven := decide (2 ∣ n ∧ n < 2 ^ 63)
    (∀ text origin, s.dialect.language.Parses text origin (.call "IsEven" [operand] .start) →
      outcomeIn s c text origin = .ok (.boolean isEven)) ∧
    (∀ text origin, s.dialect.language.Parses text origin (.call "IsOdd" [operand] .start) →
      outcomeIn s c text origin = .ok (.boolean !isEven)) ∧
    (2 ^ 63 ≤ n → 2 ∣ n) := by
  have houtcome := htext.outcomeIn_eq_ok_iff.1 hvalue
  refine ⟨fun text origin hparses => ?_, fun text origin hparses => ?_, fun hlarge => ?_⟩
  · rw [hparses.outcomeIn_eq_ok_iff, outcome_of_integer (hv.functions "IsEven" _ rfl)
      (fun _ _ => rfl) houtcome hx hn, ← decide_eq_decide.2 (Number.integerPart_mod_two hn)]
    rfl
  · rw [hparses.outcomeIn_eq_ok_iff, outcome_of_integer (hv.functions "IsOdd" _ rfl)
      (fun _ _ => rfl) houtcome hx hn, ← decide_eq_decide.2 (Number.integerPart_mod_two hn)]
    rfl
  · exact Number.even_of_large hn (by omega)

end Texts

/-- A number below the range of 64 bits. -/
theorem parity_is_right_below_range :
    ∃ x, outcomeIn ⟨.standard, []⟩ (.ofValue .null) "-18446744073709551616" .start =
        .ok (.number x) ∧
      Number.IsInteger x (-2 ^ 64) ∧
      outcomeIn ⟨.standard, []⟩ (.ofValue .null) "IsEven(-18446744073709551616)" .start =
        .ok (.boolean true) ∧
      outcomeIn ⟨.standard, []⟩ (.ofValue .null) "IsOdd(-18446744073709551616)" .start =
        .ok (.boolean false) := by
  have hvalue : outcomeIn ⟨.standard, []⟩ (.ofValue .null) "-18446744073709551616" .start =
      .ok (.number (-18446744073709551616)) := rfl
  have hn : Number.IsInteger (-18446744073709551616) (-2 ^ 64) :=
    ⟨⟨true, 2 ^ 52, 12⟩, by decide +kernel, by norm_num [Number.Binary.toRat, Number.Binary.sign]⟩
  obtain ⟨heven, hodd, -⟩ := @parity_is_right_below ⟨.standard, []⟩ (.ofValue .null)
    (.before ⟨"-", .before, 80⟩ (.number "18446744073709551616" .start) .start) _ _ _
    Vocabulary.standard.extends_self _ _ (Language.parses_of_gathered rfl) hvalue .start rfl hn
  exact ⟨_, hvalue, hn, heven _ _ (Language.parses_of_gathered rfl),
    hodd _ _ (Language.parses_of_gathered rfl)⟩

/-- The least number from which on the parity is wrong. -/
theorem even_number_is_odd :
    ∃ x, outcomeIn ⟨.standard, []⟩ (.ofValue .null) "9223372036854775808" .start =
        .ok (.number x) ∧
      Number.IsInteger x (2 ^ 63) ∧ (2 : Int) ∣ 2 ^ 63 ∧
      outcomeIn ⟨.standard, []⟩ (.ofValue .null) "IsEven(9223372036854775808)" .start =
        .ok (.boolean false) ∧
      outcomeIn ⟨.standard, []⟩ (.ofValue .null) "IsOdd(9223372036854775808)" .start =
        .ok (.boolean true) := by
  refine ⟨9223372036854775808, rfl, ⟨⟨false, 2 ^ 52, 11⟩, by decide +kernel, ?_⟩, ?_, rfl, rfl⟩
  · norm_num [Number.Binary.toRat, Number.Binary.sign]
  · exact dvd_pow_self 2 (by decide)

end DocQuery
