import LogicProgram.Configuration
import LogicProgram.Proofs.Rendering.Naming

/-!
# The time limit that reaches the prover

A time limit is set in seconds, kept in nanoseconds and passed on in seconds again, by
way of a rounded binary fraction. Up to the greatest number of seconds whose nanoseconds
fit into 64 bits, the prover gets the limit that was set.
-/

namespace LogicProgram

theorem roundHalfEven_le (num den : Nat) : roundHalfEven num den ≤ num / den + 1 := by
  rw [roundHalfEven]
  split <;> omega

theorem roundHalfEven_mul {den : Nat} (hden : 0 < den) (q : Nat) : roundHalfEven (q * den) den = q := by
  have hne : ¬0 = den := by omega
  simp [roundHalfEven, Nat.mul_div_cancel _ hden, hne]

namespace Binary64

variable {num den : Nat}

/-- A fraction below `2 ^ 53` gets no positive exponent. -/
theorem exponentOf_le (hnum : num ≠ 0) (h : num < Nat.pow 2 53 * den) : exponentOf num den ≤ 0 := by
  have hlow : Nat.pow 2 num.log2 ≤ num := Nat.log2_self_le hnum
  have hhigh : den < Nat.pow 2 (den.log2 + 1) := Nat.lt_log2_self
  have hlog : num.log2 < 53 + (den.log2 + 1) := by
    refine (Nat.pow_lt_pow_iff_right (by decide : 1 < 2)).mp ?_
    rw [Nat.pow_add]
    exact Nat.lt_of_le_of_lt hlow (Nat.lt_trans h (Nat.mul_lt_mul_of_pos_left hhigh (by decide)))
  rw [exponentOf]
  refine Int.max_le.mpr ⟨by decide, ?_⟩
  by_cases hguess : (num.log2 : Int) - den.log2 - 52 = 1
  · -- the first guess may be one too high
    have hsmall : num < Nat.pow 2 52 * (den * Nat.pow 2 1) := by
      rwa [Nat.mul_comm den, ← Nat.mul_assoc]
    rw [hguess]
    exact Int.le_of_eq (if_pos hsmall)
  · split <;> omega

theorem descale_of_le {e : Int} (he : e ≤ 0) : descale num den e = (num * Nat.pow 2 (-e).toNat, den) := by
  rw [descale]
  split
  · obtain rfl : e = 0 := by omega
    exact Prod.ext (Nat.mul_one num).symm (Nat.mul_one den)
  · rfl

/-- The value of a number whose exponent is not positive. -/
theorem ratio_of_le {m : Nat} {e : Int} (he : e ≤ 0) : ratio ⟨m, e⟩ = (m, Nat.pow 2 (-e).toNat) := by
  rw [ratio]
  split
  case isTrue h =>
    obtain rfl : e = 0 := Int.le_antisymm he h
    exact Prod.ext (Nat.mul_one m) rfl
  · rfl

theorem floor_of_le {m : Nat} {e : Int} (he : e ≤ 0) : floor ⟨m, e⟩ = m / Nat.pow 2 (-e).toNat := by
  rw [floor, ratio_of_le he]

theorem ratio_pos (x : Binary64) : 0 < x.ratio.2 := by
  rw [ratio]
  split
  · exact Nat.one_pos
  · exact Nat.pow_pos (by decide)

/-- A fraction below `2 ^ 53` is rounded after a number of binary places. -/
theorem floor_ofRatio? (hden : 0 < den) (h : num < Nat.pow 2 53 * den) :
    ∃ k, ((ofRatio? num den).getD default).floor = roundHalfEven (num * Nat.pow 2 k) den / Nat.pow 2 k := by
  by_cases hnum : num = 0
  · refine ⟨0, ?_⟩
    have hzero := roundHalfEven_mul hden 0
    rw [Nat.zero_mul] at hzero
    rw [hnum, Nat.zero_mul, hzero]
    exact (floor_of_le (by decide)).trans (by rw [Nat.zero_div, Nat.zero_div])
  · have hle := exponentOf_le hnum h
    refine ⟨(-exponentOf num den).toNat, ?_⟩
    rw [ofRatio?, if_neg (by simpa using hnum)]
    simp only [descale_of_le hle]
    generalize exponentOf num den = e at hle
    generalize roundHalfEven (num * Nat.pow 2 (-e).toNat) den = m
    have hexponent : ¬greatestExponent < e ∧ ¬greatestExponent < e + 1 := by
      simp only [greatestExponent]
      omega
    by_cases hcarry : m = Nat.pow 2 53
    · -- a carry out of the mantissa goes into the exponent
      simp only [beq_iff_eq.mpr hcarry, if_true, if_neg hexponent.2, Option.getD_some]
      rw [hcarry]
      rcases Int.lt_or_eq_of_le hle with hlt | rfl
      · have hsucc : (-e).toNat = (-(e + 1)).toNat + 1 := by omega
        rw [floor_of_le hlt, hsucc]
        exact (Nat.mul_div_mul_right _ _ (by decide : 0 < 2)).symm
      · rfl
    · simp only [beq_eq_false_iff_ne.mpr hcarry, Bool.false_eq_true, if_false, if_neg hexponent.1,
        Option.getD_some]
      exact floor_of_le hle

/-- A whole number below `2 ^ 53` is kept. -/
theorem floor_ofRatio?_mul {q : Nat} (hden : 0 < den) (hq : q < Nat.pow 2 53) :
    ((ofRatio? (q * den) den).getD default).floor = q := by
  obtain ⟨k, hk⟩ := floor_ofRatio? hden (Nat.mul_lt_mul_of_pos_right hq hden)
  rw [hk, Nat.mul_right_comm, roundHalfEven_mul hden]
  exact Nat.mul_div_cancel q (Nat.pow_pos (by decide))

theorem floor_ofRatio?_le (hden : 0 < den) (h : num < Nat.pow 2 53 * den) :
    ((ofRatio? num den).getD default).floor ≤ num / den + 1 := by
  obtain ⟨k, hk⟩ := floor_ofRatio? hden h
  have hpos : 0 < Nat.pow 2 k := Nat.pow_pos (by decide)
  calc
    ((ofRatio? num den).getD default).floor
    _ = roundHalfEven (num * Nat.pow 2 k) den / Nat.pow 2 k := hk
    _ ≤ (num * Nat.pow 2 k / den + Nat.pow 2 k) / Nat.pow 2 k :=
        Nat.div_le_div_right (Nat.le_trans (roundHalfEven_le _ _) (Nat.add_le_add_left hpos _))
    _ = num / den + 1 := by
        rw [Nat.add_div_right _ hpos, Nat.div_div_eq_div_mul, Nat.mul_div_mul_right _ _ hpos]

end Binary64

namespace ProverOptions

/-- Whole seconds are kept. -/
theorem wholeSeconds_mul {n : Nat} (hn : n < Nat.pow 2 53) : wholeSeconds (n * Nat.pow 10 9) = n := by
  have hpart :
      Binary64.ofRatio? (n * Nat.pow 10 9 % Nat.pow 10 9)
        (Nat.pow 10 9) = some ⟨0, Binary64.leastExponent⟩ := by
    rw [Nat.mul_mod_left]
    rfl
  rw [wholeSeconds, hpart, Nat.mul_div_cancel _ (by decide), Option.getD_some,
    Binary64.ratio_of_le (by decide)]
  generalize (-Binary64.leastExponent).toNat = k
  exact Binary64.floor_ofRatio?_mul (Nat.pow_pos (by decide)) hn

/-- Rounding, twice, adds at most two seconds. -/
theorem wholeSeconds_le {t : Nat} (ht : t / Nat.pow 10 9 + 2 ≤ Nat.pow 2 53) :
    wholeSeconds t ≤ t / Nat.pow 10 9 + 2 := by
  have hmod : t % Nat.pow 10 9 < Nat.pow 10 9 := Nat.mod_lt _ (by decide)
  rw [wholeSeconds]
  generalize hx : (Binary64.ofRatio? (t % Nat.pow 10 9) (Nat.pow 10 9)).getD default = x
  have hpart : x.ratio.1 / x.ratio.2 ≤ 1 := by
    have hle := Binary64.floor_ofRatio?_le (by decide : 0 < Nat.pow 10 9)
        (Nat.lt_of_lt_of_le hmod (by decide))
    rwa [hx, Nat.div_eq_of_lt hmod] at hle
  generalize t / Nat.pow 10 9 = s at ht
  have hlt : s * x.ratio.2 + x.ratio.1 < (s + 2) * x.ratio.2 := by
    have := (Nat.div_lt_iff_lt_mul x.ratio_pos).mp (Nat.lt_succ_of_le hpart)
    rw [Nat.add_mul]
    omega
  have hdiv := (Nat.div_lt_iff_lt_mul x.ratio_pos).mpr hlt
  refine Nat.le_trans (Binary64.floor_ofRatio?_le x.ratio_pos ?_) hdiv
  exact Nat.lt_of_lt_of_le hlt (Nat.mul_le_mul_right _ ht)

/-- The nanoseconds of a time, reduced to 64 bits. -/
theorem toInt_nanoseconds (n : Int64) : (nanoseconds n).toInt =
      if n.toInt * 1000000000 % 18446744073709551616 < 9223372036854775808 then
        n.toInt * 1000000000 % 18446744073709551616
      else n.toInt * 1000000000 % 18446744073709551616 - 18446744073709551616 := by
  have hfactor : Int64.toInt 1000000000 = 1000000000 := rfl
  rw [nanoseconds, Int64.toInt_mul, Int.bmod_def, hfactor]
  rfl

/-- A positive time whose nanoseconds fit into 64 bits is passed on. -/
theorem fullArguments_of_le {o : ProverOptions} {n : Int64} (ho : o.timeLimit = nanoseconds n) (hpos : 0 < n)
    (hn : n ≤ 9223372036) :
    o.fullArguments = o.arguments ++ [Text.ofString "--time_limit", Text.ofInt n.toInt] := by
  have hpos : 0 < n.toInt := Int64.lt_iff_toInt_lt.mp hpos
  have hn : n.toInt ≤ 9223372036 := Int64.le_iff_toInt_le.mp hn
  obtain ⟨k, hk⟩ := Int.eq_ofNat_of_zero_le (Int.le_of_lt hpos)
  have htime : (nanoseconds n).toInt = (k * Nat.pow 10 9 : Nat) := by
    have hmod : n.toInt * 1000000000 % 18446744073709551616 = n.toInt * 1000000000 := by omega
    rw [toInt_nanoseconds, hmod, if_pos (by omega), hk]
    exact (Int.natCast_mul k 1000000000).symm
  have hlimit : 0 < nanoseconds n := by
    rw [Int64.lt_iff_toInt_lt, htime]
    show (0 : Int) < (k * 1000000000 : Nat)
    omega
  have hsmall : k < Nat.pow 2 53 := Nat.lt_of_le_of_lt (by omega : k ≤ 9223372036) (by decide)
  rw [fullArguments, ho, if_pos hlimit, htime, Int.toNat_natCast, wholeSeconds_mul hsmall, hk]
  rfl

/-- A greater time is lost, or becomes less. -/
theorem fullArguments_of_lt {o : ProverOptions} {n : Int64} (ho : o.timeLimit = nanoseconds n)
    (hn : 9223372036 < n) :
    o.fullArguments = o.arguments ∨
      ∃ k : Nat, k < n.toInt ∧ o.fullArguments = o.arguments ++
        [Text.ofString "--time_limit", Text.ofNat k] := by
  have hn : 9223372036 < n.toInt := Int64.lt_iff_toInt_lt.mp hn
  rw [fullArguments, ho]
  split
  case isFalse => exact .inl rfl
  case isTrue hlimit =>
    refine .inr ⟨_, ?_, rfl⟩
    have hlimit : 0 < (nanoseconds n).toInt := Int64.lt_iff_toInt_lt.mp hlimit
    have hbound := Int64.toInt_lt (nanoseconds n)
    generalize ht : (nanoseconds n).toInt = t at hlimit hbound
    -- the product is positive again only after it has passed all 64 bits
    have hlong : 18446744073 < n.toInt := by
      by_contra hshort
      have hmod : n.toInt * 1000000000 % 18446744073709551616 = n.toInt * 1000000000 := by omega
      rw [toInt_nanoseconds, hmod, if_neg (by omega)] at ht
      omega
    have hquotient : t.toNat / Nat.pow 10 9 < 9223372037 := by
      refine Nat.div_lt_of_lt_mul ?_
      show t.toNat < 1000000000 * 9223372037
      omega
    have hsmall : t.toNat / Nat.pow 10 9 + 2 ≤ Nat.pow 2 53 :=
      Nat.le_trans (Nat.add_le_add_right (Nat.le_of_lt hquotient) 2) (by decide)
    have hseconds := wholeSeconds_le hsmall
    omega

end ProverOptions

namespace Configuration

theorem validate_eq_ok {c c' : Configuration} (h : c.validate = .ok c') :
    0 < c.prover.timeLimit ∧ c'.prover = c.prover := by
  rw [validate] at h
  by_cases hcommand : c.prover.command.isEmpty = true
  · rw [if_pos hcommand] at h
    cases h
  rw [if_neg hcommand] at h
  by_cases hlimit : c.prover.timeLimit ≤ 0
  · rw [if_pos hlimit] at h
    cases h
  rw [if_neg hlimit] at h
  by_cases hage : c.cache.maxAge < 0
  · rw [if_pos hage] at h
    cases h
  rw [if_neg hage] at h
  cases hcolor : ColorChoice.parse c.color with
  | error e =>
    rw [hcolor] at h
    cases h
  | ok color =>
    rw [hcolor] at h
    cases hdirection : Direction.parse c.direction with
    | error e =>
      rw [hdirection] at h
      cases h
    | ok direction =>
      rw [hdirection] at h
      cases h
      exact ⟨Int64.not_le.mp hlimit, rfl⟩

/-- A valid time limit reaches the prover exactly if its nanoseconds fit into 64 bits. A
greater one is lost or shortened. -/
theorem fullArguments_proverOptions_iff {c c' : Configuration} (h : c.validate = .ok c') :
    (c'.proverOptions.fullArguments =
        c.prover.arguments ++ [Text.ofString "--time_limit", Text.ofInt c.prover.timeLimit.toInt] ↔
      c.prover.timeLimit ≤ 9223372036) ∧
    (9223372036 < c.prover.timeLimit → c'.proverOptions.fullArguments = c.prover.arguments ∨
      ∃ n : Nat, n < c.prover.timeLimit.toInt ∧
        c'.proverOptions.fullArguments = c.prover.arguments ++ [Text.ofString "--time_limit", Text.ofNat n]) := by
  obtain ⟨hpos, hprover⟩ := validate_eq_ok h
  have htime : c'.proverOptions.timeLimit = ProverOptions.nanoseconds c.prover.timeLimit := by
    rw [← hprover]
    rfl
  have harguments : c'.proverOptions.arguments = c.prover.arguments := congrArg ProverConfiguration.arguments hprover
  have hwraps := ProverOptions.fullArguments_of_lt htime
  rw [harguments] at hwraps
  refine ⟨⟨fun hargs => ?_, fun hle => ?_⟩, hwraps⟩
  · by_contra hle
    have hlt : 9223372036 < c.prover.timeLimit := Int64.not_le.mp hle
    rcases hwraps hlt with hlost | ⟨n, hn, hshorter⟩
    · exact absurd (hlost.symm.trans hargs) (by simp)
    · have hlast : [Text.ofString "--time_limit", Text.ofNat n] =
          [Text.ofString "--time_limit", Text.ofInt c.prover.timeLimit.toInt] :=
        List.append_cancel_left (hshorter.symm.trans hargs)
      obtain ⟨k, hk⟩ := Int.eq_ofNat_of_zero_le (Int.le_of_lt (Int64.lt_iff_toInt_lt.mp hpos))
      rw [hk] at hlast hn
      have heq : n = k := Text.ofNat_injective (List.cons.inj (List.cons.inj hlast).2).1
      omega
  · rw [ProverOptions.fullArguments_of_le htime hpos hle, harguments]

/-- The standard configuration with another time limit. -/
def limited (seconds : Int64) : Configuration :=
  { standard with prover := { standard.prover with timeLimit := seconds } }

/-- The greatest limit that reaches the prover. -/
theorem fullArguments_proverOptions_greatest :
    (limited 9223372036).validate = .ok (limited 9223372036) ∧
    (limited 9223372036).proverOptions.fullArguments =
      standard.prover.arguments ++ [Text.ofString "--time_limit", "9223372036"] := by
  have hvalid : (limited 9223372036).validate = .ok (limited 9223372036) := by decide +kernel
  exact ⟨hvalid, ((fullArguments_proverOptions_iff hvalid).1.mpr (by decide)).trans (by decide +kernel)⟩

/-- One second more, and the prover runs without a limit. -/
theorem fullArguments_proverOptions_lost :
    (limited 9223372037).validate = .ok (limited 9223372037) ∧
      (limited 9223372037).proverOptions.fullArguments = standard.prover.arguments := by
  decide +kernel

end Configuration

end LogicProgram
