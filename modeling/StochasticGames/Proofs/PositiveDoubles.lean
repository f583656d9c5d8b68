import StochasticGames.Proofs.Doubles

/-! Doubles without sign that are numbers. Sums, products and quotients of them are numbers again,
where no zero meets an infinity, and so are differences from one that are positive. -/

namespace StochasticGames.Numeric.Doubles
open Float.Model Float.Model.UnpackedFloat

/-! ## Rounding -/

/-- What a positive number is unpacked to. -/
inductive Positive : UnpackedFloat → Prop where
  | infinity : Positive (.infinity .positive)
  | finite (m e h) : Positive (.finite .positive m e h)

/-- What a number without sign is unpacked to. -/
inductive Magnitude : UnpackedFloat → Prop where
  | zero : Magnitude (.zero .positive)
  | positive {u} (h : Positive u) : Magnitude u

private theorem mantissa_shiftRight (em : ExtendedMantissa) (k : Nat) :
    (em >>> k).mantissa = em.mantissa / 2 ^ k := by
  induction k with
  | zero => exact (Nat.div_one _).symm
  | succ k ih =>
    show (em >>> k).mantissa / 2 = _
    rw [ih, Nat.div_div_eq_div_mul, Nat.pow_succ]

private theorem roundedMantissa_bounds (em : ExtendedMantissa) :
    em.mantissa ≤ em.roundedMantissa ∧ em.roundedMantissa ≤ em.mantissa + 1 := by
  obtain ⟨m, roundBit, stickyBit⟩ := em
  cases roundBit <;> cases stickyBit <;>
    simp [ExtendedMantissa.roundedMantissa, ExtendedMantissa.accuracy,
      Accuracy.roundToNearestEven]
  omega

private theorem targetExponent_eq (m : Nat) (e : Int) :
    Format.binary64.targetExponent (totalExponent m e) = max (m.log2 + e - 52) (-1074) := by
  simp only [Format.targetExponent, totalExponent, Format.mantissaBits, Format.minExponent]
  norm_num
  omega

private theorem shift_exact (m : Nat) (e : Int) :
    let k := (max (m.log2 + e - 52) (-1074) - e).toNat
    (shiftToTargetExponent .binary64 m e .exact).1.mantissa = m / 2 ^ k ∧
      (shiftToTargetExponent .binary64 m e .exact).2 = e + k := by
  unfold shiftToTargetExponent shiftToExponent
  rw [targetExponent_eq]
  exact ⟨mantissa_shiftRight _ _, rfl⟩

/-- A mantissa that fills its bits, or has the least exponent, keeps what its bits can hold. -/
private theorem shifted_bounds {m : Nat} {e : Int} (hm : 0 < m) (he : -1074 ≤ e)
    (hfull : 52 ≤ m.log2 ∨ e = -1074) :
    let t := max (m.log2 + e - 52) (-1074)
    0 < m / 2 ^ (t - e).toNat ∧ m / 2 ^ (t - e).toNat < 2 ^ 53 ∧ e + (t - e).toNat = t := by
  intro t
  obtain ⟨k, hk⟩ : ∃ k, k = (t - e).toNat := ⟨_, rfl⟩
  rw [← hk]
  have hle : k ≤ m.log2 := by omega
  have hge : m.log2 ≤ 52 + k := by omega
  refine ⟨Nat.div_pos ?_ (Nat.two_pow_pos k), ?_, by omega⟩
  · exact (Nat.pow_le_pow_right two_pos hle).trans (Nat.log2_self_le hm.ne')
  · rw [Nat.div_lt_iff_lt_mul (Nat.two_pow_pos k), ← Nat.pow_add]
    exact Nat.lt_log2_self.trans_le (Nat.pow_le_pow_right two_pos (by omega))

/-- Rounding up may need one more bit, which the second shift takes away again. -/
private theorem shift_rounded {r : Nat} {e : Int} (hr : 0 < r) (hle : r ≤ 2 ^ 53)
    (he : -1074 ≤ e) :
    let (em, e') := shiftToTargetExponent .binary64 r e .exact
    0 < em.mantissa ∧ em.mantissa < 2 ^ 53 ∧ e ≤ e' ∧ e' ≤ e + 1 := by
  obtain ⟨hmantissa, hexponent⟩ := shift_exact r e
  dsimp only
  rw [hmantissa, hexponent]
  obtain ⟨k, hk⟩ : ∃ k, k = (max (r.log2 + e - 52) (-1074) - e).toNat := ⟨_, rfl⟩
  rw [← hk]
  obtain hlt | rfl := hle.lt_or_eq
  · have hlog : r.log2 < 53 := (Nat.log2_lt hr.ne').mpr hlt
    obtain rfl : k = 0 := by omega
    exact ⟨by simpa using hr, by simpa using hlt, by omega, by omega⟩
  · have hlog : (2 ^ 53 : Nat).log2 = 53 := Nat.log2_two_pow
    obtain rfl : k = 1 := by omega
    exact ⟨by norm_num, by norm_num, by omega, by omega⟩

private theorem log2_shiftLeft {m : Nat} (hm : 0 < m) (k : Nat) : (m <<< k).log2 = m.log2 + k := by
  have hpos : m <<< k ≠ 0 := by
    rw [Nat.shiftLeft_eq]
    exact (Nat.mul_pos hm (Nat.two_pow_pos k)).ne'
  rw [Nat.log2_eq_iff hpos, Nat.shiftLeft_eq, Nat.add_right_comm, Nat.pow_add, Nat.pow_add]
  exact ⟨Nat.mul_le_mul_right _ (Nat.log2_self_le hm.ne'),
    Nat.mul_lt_mul_of_pos_right Nat.lt_log2_self (Nat.two_pow_pos k)⟩

/-- No positive number is rounded to zero that is a multiple of the least one. -/
theorem round_eq_finite (s : Sign) {m : Nat} {e : Int} (hm : 0 < m) (he : -1074 ≤ e) :
    ∃ m' e' h, UnpackedFloat.round .binary64 s m e = .finite s m' e' h ∧ m' < 2 ^ 53 ∧
      -1074 ≤ e' ∧ e' ≤ max (m.log2 + e - 51) (-1073) := by
  obtain ⟨k, hk⟩ : ∃ k, k = (e - max (m.log2 + e - 52) (-1074)).toNat := ⟨_, rfl⟩
  have hround : UnpackedFloat.round .binary64 s m e =
      roundWithAccuracy .binary64 s (m <<< k) (e - k) .exact := by
    unfold UnpackedFloat.round decreaseExponent
    rw [targetExponent_eq, hk]
  have hlog := log2_shiftLeft hm k
  have hpos : 0 < m <<< k := by
    rw [Nat.shiftLeft_eq]
    exact Nat.mul_pos hm (Nat.two_pow_pos k)
  obtain ⟨hmantissa, hexponent⟩ := shift_exact (m <<< k) (e - k)
  obtain ⟨hlow, hhigh, htarget⟩ :=
    shifted_bounds hpos (e := e - k) (by omega) (by omega)
  rw [hround]
  unfold roundWithAccuracy
  generalize shiftToTargetExponent .binary64 (m <<< k) (e - k) .exact = first at *
  obtain ⟨em, e₁⟩ := first
  dsimp only at *
  obtain ⟨hge, hle⟩ := roundedMantissa_bounds em
  rw [← hmantissa] at hlow hhigh
  have hsecond := shift_rounded (r := em.roundedMantissa) (e := e₁) (by omega) (by omega) (by omega)
  generalize shiftToTargetExponent .binary64 em.roundedMantissa e₁ .exact = second at *
  obtain ⟨em', e₂⟩ := second
  dsimp only at *
  rw [dif_neg hsecond.1.ne']
  exact ⟨em'.mantissa, e₂, hsecond.1, rfl, hsecond.2.1, by omega, by omega⟩

/-! ## Packing -/

private theorem unpack_packComponents (s : Sign) {x : BitVec 11} (y : BitVec 52) (hx : x ≠ -1#11) :
    (x = 0#11 ∧ y = 0#52 ∧
      UnpackedFloat.unpack .binary64 (packComponents .binary64 s x y) = .zero s) ∨
    ∃ m e h, UnpackedFloat.unpack .binary64 (packComponents .binary64 s x y) = .finite s m e h := by
  have hsign : Sign.ofBitVec s.toBitVec = s := by cases s <;> rfl
  unfold UnpackedFloat.unpack
  simp only [unpackExponent_packComponents, unpackMantissa_packComponents,
    unpackSign_packComponents, hsign]
  rw [if_neg hx]
  split_ifs with hzero hsub
  · exact .inl ⟨hzero, hsub, rfl⟩
  · exact .inr ⟨_, _, Nat.pos_of_ne_zero fun h => hsub (BitVec.eq_of_toNat_eq h), rfl⟩
  · exact .inr ⟨_, _, by rw [toNat_implicit]; omega, rfl⟩

private theorem repack_infinity (s : Sign) :
    (Float.Model.pack (.infinity s)).unpack = .infinity s := by
  cases s <;> rfl

private theorem repack_zero (s : Sign) : (Float.Model.pack (.zero s)).unpack = .zero s := by
  cases s <;> rfl

/-- Packing keeps the sign, and whether it is a number at all. -/
private theorem repack_finite (s : Sign) (m : Nat) (e : Int) (h : 0 < m) :
    let u := (Float.Model.pack (.finite s m e h)).unpack
    (u = .zero s ∧ (2 ^ 53 ≤ m ∨ e < -1074)) ∨ (u = .infinity s ∧ 971 < e) ∨
      ∃ m' e' h', u = .finite s m' e' h' := by
  have hpack : UnpackedFloat.pack .binary64 (.finite s m e h) =
      if 2 ^ 11 ≤ (e + 1023 + 52).toNat + 1 then packedInfinity .binary64 s
      else if m.log2 + 1 = 53 then packComponents .binary64 s
        (BitVec.ofNat 11 (e + 1023 + 52).toNat) (BitVec.ofNat 52 m)
      else packComponents .binary64 s 0#11 (BitVec.ofNat 52 m) := rfl
  show (let u := UnpackedFloat.unpack .binary64 (UnpackedFloat.pack .binary64 (.finite s m e h))
    (u = _ ∧ _) ∨ (u = _ ∧ _) ∨ ∃ m' e' h', u = _)
  dsimp only
  rw [hpack]
  split_ifs with hlarge hnormal
  · exact .inr (.inl ⟨repack_infinity s, by omega⟩)
  · have hx : BitVec.ofNat 11 (e + 1023 + 52).toNat ≠ -1#11 := fun hx => by
      have := congrArg BitVec.toNat hx
      simp only [BitVec.toNat_ofNat, BitVec.toNat_neg] at this
      omega
    obtain ⟨hzero, -, hu⟩ | hu := unpack_packComponents s (BitVec.ofNat 52 m) hx
    · have := congrArg BitVec.toNat hzero
      simp only [BitVec.toNat_ofNat] at this
      exact .inl ⟨hu, .inr (by omega)⟩
    · exact .inr (.inr hu)
  · obtain ⟨-, hzero, hu⟩ | hu :=
      unpack_packComponents s (x := 0#11) (BitVec.ofNat 52 m) (by decide)
    · have hdvd := congrArg BitVec.toNat hzero
      simp only [BitVec.toNat_ofNat] at hdvd
      refine .inl ⟨hu, ?_⟩
      by_contra hsmall
      have hlog : m.log2 = 52 := (Nat.log2_eq_iff h.ne').mpr (by omega)
      exact hnormal (by rw [hlog])
    · exact .inr (.inr hu)

theorem Magnitude.repack {u : UnpackedFloat} (h : Magnitude u) :
    Magnitude (Float.Model.pack u).unpack := by
  cases h with
  | zero => exact repack_zero .positive ▸ .zero
  | positive h =>
    cases h with
    | infinity => exact repack_infinity .positive ▸ .positive .infinity
    | finite m e h =>
      obtain ⟨hu, -⟩ | ⟨hu, -⟩ | ⟨m', e', h', hu⟩ := repack_finite .positive m e h
      · exact hu ▸ .zero
      · exact hu ▸ .positive .infinity
      · exact hu ▸ .positive (.finite m' e' h')

private theorem positive_repack_finite {m : Nat} {e : Int} (h : 0 < m) (hm : m < 2 ^ 53)
    (he : -1074 ≤ e) : Positive (Float.Model.pack (.finite .positive m e h)).unpack := by
  obtain ⟨-, hlarge⟩ | ⟨hu, -⟩ | ⟨m', e', h', hu⟩ := repack_finite .positive m e h
  · omega
  · exact hu ▸ .infinity
  · exact hu ▸ .finite m' e' h'

/-- A number that was packed has a mantissa of 53 bits, and unless its exponent is the least, it
fills them. -/
theorem unpack_bounds {x : Float} {s : Sign} {m : Nat} {e : Int} {h : 0 < m}
    (hx : x.toModel.unpack = .finite s m e h) :
    m < 2 ^ 53 ∧ -1074 ≤ e ∧ (2 ^ 52 ≤ m ∨ e = -1074) := by
  have hbias : (Format.binary64.exponentBias : Int) = 1023 := rfl
  have hwidth : (Format.binary64.mantissaBitsWithoutImplicit : Int) = 52 := rfl
  unfold Float.Model.unpack UnpackedFloat.unpack at hx
  dsimp only at hx
  have hlt := (@unpackMantissa .binary64 x.toModel.toBits.toBitVec).isLt
  split_ifs at hx with hones hinf hzero hsub
  · obtain ⟨-, rfl, rfl⟩ := UnpackedFloat.finite.inj hx
    rw [hzero, hbias, hwidth]
    exact ⟨hlt.trans (by decide), le_rfl, .inr rfl⟩
  · obtain ⟨-, rfl, rfl⟩ := UnpackedFloat.finite.inj hx
    rw [toNat_implicit, hbias, hwidth]
    have hpos : (@unpackExponent .binary64 x.toModel.toBits.toBitVec).toNat ≠ 0 :=
      fun h0 => hzero (BitVec.eq_of_toNat_eq h0)
    change _ < 2 ^ 52 at hlt
    omega

/-! ## Arithmetic -/

/-- Zero, a positive number or infinity. -/
def Amount (x : Float) : Prop :=
  Magnitude x.toModel.unpack

/-- A finite positive number. -/
def PositiveFinite (p : Float) : Prop :=
  ∃ m e h, p.toModel.unpack = .finite .positive m e h

theorem PositiveFinite.positive {p : Float} (h : PositiveFinite p) : Positive p.toModel.unpack := by
  obtain ⟨m, e, h, hp⟩ := h
  exact hp ▸ .finite m e h

theorem PositiveFinite.amount {p : Float} (h : PositiveFinite p) : Amount p :=
  .positive h.positive

theorem less_iff {x y : Float} :
    Scalar.less x y = true ↔ x.toModel.unpack.lt y.toModel.unpack = true :=
  ⟨fun h => of_decide_eq_true (of_decide_eq_true h),
    fun h => decide_eq_true (decide_eq_true h)⟩

theorem amount_zero : Amount 0 :=
  .zero

theorem unpack_one : (1 : Float).toModel.unpack = .finite .positive (2 ^ 52) (-52) (by decide) := by
  rfl

theorem positiveFinite_one : PositiveFinite 1 :=
  ⟨_, _, _, unpack_one⟩

private theorem roundWithAccuracy_magnitude (m : Nat) (e : Int) (a : Accuracy) :
    Magnitude (roundWithAccuracy .binary64 .positive m e a) := by
  unfold roundWithAccuracy
  dsimp only
  split_ifs
  · exact .zero
  · exact .positive (.finite _ _ _)

theorem Magnitude.mul {u : UnpackedFloat} (hu : Magnitude u) (m : Nat) (e : Int) (h : 0 < m) :
    Magnitude (UnpackedFloat.mul .binary64 (.finite .positive m e h) u) := by
  cases hu with
  | zero => exact .zero
  | positive hu =>
    cases hu with
    | infinity => exact .positive .infinity
    | finite => exact roundWithAccuracy_magnitude _ _ _

theorem Magnitude.div {u : UnpackedFloat} (hu : Magnitude u) (m : Nat) (e : Int) (h : 0 < m) :
    Magnitude (UnpackedFloat.div .binary64 u (.finite .positive m e h)) := by
  cases hu with
  | zero => exact .zero
  | positive hu =>
    cases hu with
    | infinity => exact .positive .infinity
    | finite => exact roundWithAccuracy_magnitude _ _ _

theorem PositiveFinite.mul {p x : Float} (hp : PositiveFinite p) (hx : Amount x) :
    Amount (p * x) := by
  obtain ⟨m, e, h, hp⟩ := hp
  show Magnitude (Float.Model.pack (UnpackedFloat.mul .binary64 p.toModel.unpack _)).unpack
  rw [hp]
  exact (Magnitude.mul hx m e h).repack

theorem Amount.div {x d : Float} (hx : Amount x) (hd : PositiveFinite d) : Amount (x / d) := by
  obtain ⟨m, e, h, hd⟩ := hd
  show Magnitude (Float.Model.pack (UnpackedFloat.div .binary64 _ d.toModel.unpack)).unpack
  rw [hd]
  exact (Magnitude.div hx m e h).repack

private theorem shiftLeft_pos {m : Nat} (h : 0 < m) (k : Nat) : 0 < m <<< k := by
  rw [Nat.shiftLeft_eq]
  exact Nat.mul_pos h (Nat.two_pow_pos k)

private theorem normalize_of_pos {n : Int} (hn : 0 < n) (e : Int) :
    UnpackedFloat.normalize .binary64 n e .positive =
      UnpackedFloat.round .binary64 .positive n.toNat e := by
  unfold UnpackedFloat.normalize
  rw [Int.compare_eq_gt.mpr hn]

private theorem positive_normalize {n e : Int} (hn : 0 < n) (he : -1074 ≤ e) :
    Positive (Float.Model.pack (UnpackedFloat.normalize .binary64 n e .positive)).unpack := by
  obtain ⟨m', e', h', hround, hm', he', -⟩ :=
    round_eq_finite .positive (m := n.toNat) (e := e) (by omega) he
  rw [normalize_of_pos hn, hround]
  exact positive_repack_finite h' hm' he'

/-- Sums of positive numbers are positive. -/
theorem positive_add {x y : Float} (hx : Positive x.toModel.unpack)
    (hy : Positive y.toModel.unpack) : Positive (x + y).toModel.unpack := by
  show Positive (Float.Model.pack (UnpackedFloat.add .binary64 x.toModel.unpack _)).unpack
  have hbounds := @unpack_bounds x .positive
  have hbounds' := @unpack_bounds y .positive
  generalize x.toModel.unpack = u at hx hbounds
  generalize y.toModel.unpack = v at hy hbounds'
  cases hx with
  | infinity => cases hy <;> exact repack_infinity .positive ▸ .infinity
  | finite m e h =>
    cases hy with
    | infinity => exact repack_infinity .positive ▸ .infinity
    | finite m' e' h' =>
      have hpos := shiftLeft_pos h (e - min e e').toNat
      have hpos' := shiftLeft_pos h' (e' - min e e').toNat
      obtain ⟨-, he, -⟩ := hbounds rfl
      obtain ⟨-, he', -⟩ := hbounds' rfl
      exact positive_normalize (n := (m <<< (e - min e e').toNat : Nat) +
        (m' <<< (e' - min e e').toNat : Nat)) (by omega) (by omega)

theorem Magnitude.add {u v : UnpackedFloat} (hu : Magnitude u) (hv : Magnitude v) :
    Magnitude (UnpackedFloat.add .binary64 u v) := by
  cases hu with
  | zero =>
    cases hv with
    | zero => exact .zero
    | positive hv => cases hv <;> exact .positive (by constructor)
  | positive hu =>
    cases hu with
    | infinity =>
      cases hv with
      | zero => exact .positive .infinity
      | positive hv => cases hv <;> exact .positive .infinity
    | finite m e h =>
      cases hv with
      | zero => exact .positive (.finite m e h)
      | positive hv =>
        cases hv with
        | infinity => exact .positive .infinity
        | finite m' e' h' =>
          have hpos := shiftLeft_pos h (e - min e e').toNat
          show Magnitude (UnpackedFloat.normalize .binary64 ((m <<< (e - min e e').toNat : Nat) +
            (m' <<< (e' - min e e').toNat : Nat)) (min e e') .positive)
          rw [normalize_of_pos (Int.add_pos_of_pos_of_nonneg (Int.natCast_pos.mpr hpos)
            (Int.natCast_nonneg _))]
          exact roundWithAccuracy_magnitude _ _ _

theorem Amount.add {x y : Float} (hx : Amount x) (hy : Amount y) : Amount (x + y) :=
  (Magnitude.add hx hy).repack

/-- What a positive number leaves of one, before it is rounded. -/
private theorem one_sub_eq {p : Float} {m : Nat} {e : Int} {h : 0 < m}
    (hp : p.toModel.unpack = .finite .positive m e h) :
    (1 - p).toModel.unpack = (Float.Model.pack (UnpackedFloat.normalize .binary64
      ((2 ^ 52 <<< (-52 - min (-52) e).toNat : Nat) - (m <<< (e - min (-52) e).toNat : Nat))
      (min (-52) e) .positive)).unpack := by
  show (Float.Model.pack (UnpackedFloat.sub .binary64 (1 : Float).toModel.unpack
    p.toModel.unpack)).unpack = _
  rw [hp, unpack_one]
  rfl

/-- A positive difference from one is not rounded to infinity. -/
private theorem positiveFinite_one_sub {p : Float} {m : Nat} {e : Int} {h : 0 < m}
    (hp : p.toModel.unpack = .finite .positive m e h)
    (hpos : (m <<< (e - min (-52) e).toNat : Nat) < (2 ^ 52 <<< (-52 - min (-52) e).toNat : Nat)) :
    PositiveFinite (1 - p) := by
  obtain ⟨-, he, -⟩ := unpack_bounds hp
  have hsub := one_sub_eq hp
  obtain ⟨k, hk⟩ : ∃ k, k = (-52 - min (-52) e).toNat := ⟨_, rfl⟩
  rw [← hk] at hsub hpos
  generalize (m <<< (e - min (-52) e).toNat : Nat) = b at hsub hpos
  have hfull : (2 ^ 52 <<< k : Nat) < 2 ^ (52 + k + 1) := by
    rw [Nat.shiftLeft_eq, ← Nat.pow_add]
    exact Nat.pow_lt_pow_right one_lt_two (Nat.lt_succ_self _)
  generalize (2 ^ 52 <<< k : Nat) = a at hsub hpos hfull
  have hlog : (a - b : Int).toNat.log2 < 52 + k + 1 := (Nat.log2_lt (by omega)).mpr (by omega)
  obtain ⟨m', e', h', hround, hm', he', hle'⟩ :=
    round_eq_finite .positive (m := (a - b : Int).toNat) (e := min (-52) e) (by omega) (by omega)
  rw [normalize_of_pos (by omega), hround] at hsub
  obtain ⟨-, hlarge⟩ | ⟨-, hlarge⟩ | ⟨m'', e'', h'', hu⟩ := repack_finite .positive m' e' h'
  · omega
  · omega
  · exact ⟨m'', e'', h'', hsub.trans hu⟩

/-- What is not positive is not rounded to a positive number. -/
private theorem not_pos_normalize {n : Int} (hn : n ≤ 0) (e : Int) :
    (UnpackedFloat.zero .positive).lt
      (Float.Model.pack (UnpackedFloat.normalize .binary64 n e .positive)).unpack = false := by
  obtain hneg | rfl := hn.lt_or_eq
  · unfold UnpackedFloat.normalize UnpackedFloat.round roundWithAccuracy
    rw [Int.compare_eq_lt.mpr hneg]
    dsimp only
    split_ifs with hzero
    · rw [repack_zero]
      rfl
    · obtain ⟨hu, -⟩ | ⟨hu, -⟩ | ⟨m', e', h', hu⟩ :=
        repack_finite .negative _ _ (Nat.pos_of_ne_zero hzero) <;>
      · rw [hu]
        rfl
  · have hzero : UnpackedFloat.normalize .binary64 0 e .positive = .zero .positive := by
      unfold UnpackedFloat.normalize
      rw [Int.compare_eq_eq.mpr rfl]
    rw [hzero, repack_zero]
    rfl

/-- What a positive number leaves of one is finite, if it is positive. -/
theorem PositiveFinite.rest {p : Float} (hp : PositiveFinite p)
    (hless : Scalar.less 0 (1 - p) = true) : PositiveFinite (1 - p) := by
  obtain ⟨m, e, h, hp⟩ := hp
  refine positiveFinite_one_sub hp ?_
  by_contra hneg
  rw [less_iff, one_sub_eq hp] at hless
  exact Bool.false_ne_true ((not_pos_normalize (by omega) _).symm.trans hless)

/-- A number between zero and one leaves a positive part of one: the difference of two doubles is
never rounded to zero. -/
theorem positiveFinite_of_between {w : Float} (hpos : Scalar.less 0 w = true)
    (hlt : Scalar.less w 1 = true) : PositiveFinite w ∧ PositiveFinite (1 - w) := by
  rw [less_iff, show (0 : Float).toModel.unpack = .zero .positive from rfl] at hpos
  rw [less_iff, unpack_one] at hlt
  obtain ⟨m, e, h, hw⟩ : PositiveFinite w := by
    unfold PositiveFinite
    generalize w.toModel.unpack = u at hpos hlt
    match u, hpos, hlt with
    | .finite .positive m e h, _, _ => exact ⟨m, e, h, rfl⟩
  refine ⟨⟨m, e, h, hw⟩, positiveFinite_one_sub hw ?_⟩
  obtain ⟨hm, -, hfull⟩ := unpack_bounds hw
  rw [hw] at hlt
  have hcompare : (compare e (-52)).then (compare m (2 ^ 52)) = .lt :=
    Option.some.inj (eq_of_beq hlt)
  have hsmall : e < -52 := by
    obtain he | ⟨he, hm'⟩ := Ordering.then_eq_lt.mp hcompare
    · exact Int.compare_eq_lt.mp he
    · rw [Int.compare_eq_eq] at he
      rw [Nat.compare_eq_lt] at hm'
      omega
  obtain ⟨k, hk⟩ : ∃ k, (-52 - min (-52) e).toNat = k + 1 :=
    Nat.exists_eq_add_one_of_ne_zero (by omega)
  have hexact : (e - min (-52) e).toNat = 0 := by omega
  rw [hk, hexact, Nat.shiftLeft_zero, Nat.shiftLeft_eq, Nat.pow_succ]
  have := Nat.two_pow_pos k
  omega

/-- Every amount is the same as itself and above minus infinity. -/
theorem Amount.ordered {x : Float} (hx : Amount x) :
    Scalar.same x x = true ∧ Scalar.less Scalar.negInfinity x = true := by
  have hbottom : (Scalar.negInfinity : Float).toModel.unpack = .infinity .negative := by rfl
  rw [less_iff, hbottom]
  show x.toModel.unpack.beq x.toModel.unpack = true ∧ _
  unfold Amount at hx
  generalize x.toModel.unpack = u at hx
  cases hx with
  | zero => exact ⟨rfl, rfl⟩
  | positive hu =>
    cases hu with
    | infinity => exact ⟨rfl, rfl⟩
    | finite m e h => exact ⟨by simp [UnpackedFloat.beq, UnpackedFloat.compare], rfl⟩

/-! ## Probabilities -/

/-- What can be added to an entry is positive unless it is zero. -/
theorem positiveFinite_of_admissible {p : Float} (hfinite : Scalar.isFinite p = true)
    (hless : Scalar.less p 0 = false) (hsame : Scalar.same p 0 = false) : PositiveFinite p := by
  have hadmissible := admissible_unpack hfinite hless
  have hzero : ¬∃ s, p.toModel.unpack = .zero s := fun h =>
    Bool.false_ne_true (hsame.symm.trans (same_zero_iff.mpr h))
  unfold PositiveFinite
  generalize p.toModel.unpack = u at hadmissible hzero
  cases hadmissible with
  | zero s => exact absurd ⟨s, rfl⟩ hzero
  | finite m e h => exact ⟨m, e, h, rfl⟩

theorem zero_add_of_positiveFinite {p : Float} (hp : PositiveFinite p) : 0 + p = p := by
  obtain ⟨m, e, h, hp⟩ := hp
  show Float.ofModel (Float.Model.pack (UnpackedFloat.add .binary64 _ p.toModel.unpack)) = p
  have hadd : UnpackedFloat.add .binary64 (0 : Float).toModel.unpack p.toModel.unpack =
      p.toModel.unpack := by
    rw [hp]
    rfl
  rw [hadd, pack_unpack]

private theorem infinity_add {x y : Float} (hx : x.toModel.unpack = .infinity .positive)
    (hy : Amount y) : (x + y).toModel.unpack = .infinity .positive := by
  show (Float.Model.pack (UnpackedFloat.add .binary64 x.toModel.unpack _)).unpack = _
  have hadd : UnpackedFloat.add .binary64 (.infinity .positive) y.toModel.unpack =
      .infinity .positive := by
    unfold Amount at hy
    generalize y.toModel.unpack = v at hy
    cases hy with
    | zero => rfl
    | positive hv => cases hv <;> rfl
  rw [hx, hadd, repack_infinity]

private theorem add_infinity {x y : Float} (hx : Amount x)
    (hy : y.toModel.unpack = .infinity .positive) :
    (x + y).toModel.unpack = .infinity .positive := by
  show (Float.Model.pack (UnpackedFloat.add .binary64 _ y.toModel.unpack)).unpack = _
  have hadd : UnpackedFloat.add .binary64 x.toModel.unpack (.infinity .positive) =
      .infinity .positive := by
    unfold Amount at hx
    generalize x.toModel.unpack = u at hx
    cases hx with
    | zero => rfl
    | positive hu => cases hu <;> rfl
  rw [hy, hadd, repack_infinity]

theorem amount_sum {ps : List Float} (h : ∀ p ∈ ps, Amount p) : Amount (Scalar.sum ps) := by
  induction ps using List.reverseRecOn with
  | nil => exact amount_zero
  | append_singleton ps p ih =>
    rw [sum_concat]
    exact (ih fun q hq => h q (List.mem_append_left _ hq)).add (h p (by simp))

/-- An infinite summand is not made up for. -/
theorem sum_eq_infinity {ps : List Float} (h : ∀ p ∈ ps, Amount p) {p : Float} (hp : p ∈ ps)
    (hinf : p.toModel.unpack = .infinity .positive) :
    (Scalar.sum ps).toModel.unpack = .infinity .positive := by
  induction ps using List.reverseRecOn with
  | nil => exact absurd hp List.not_mem_nil
  | append_singleton ps q ih =>
    have hinit := fun r hr => h r (List.mem_append_left _ hr)
    rw [sum_concat]
    obtain hp | hp := List.mem_append.mp hp
    · exact infinity_add (ih hinit hp) (h q (by simp))
    · exact add_infinity (amount_sum hinit) (List.mem_singleton.mp hp ▸ hinf)

/-- Infinity is further from one than any tolerance. -/
theorem not_close_infinity {x : Float} (hx : x.toModel.unpack = .infinity .positive) :
    Scalar.less Scalar.sumTolerance (Scalar.abs (x - 1)) = true := by
  have hsub : (x - 1).toModel.unpack = .infinity .positive := by
    show (Float.Model.pack (UnpackedFloat.sub .binary64 x.toModel.unpack
      (1 : Float).toModel.unpack)).unpack = _
    rw [hx, unpack_one]
    exact repack_infinity .positive
  have habs : (Scalar.abs (x - 1)).toModel.unpack = .infinity .positive := by
    show (Float.Model.pack (x - 1).toModel.unpack.abs).unpack = _
    rw [hsub]
    exact repack_infinity .positive
  rw [less_iff, habs]
  decide +kernel

end StochasticGames.Numeric.Doubles
