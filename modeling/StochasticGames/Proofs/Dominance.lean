import Mathlib.Data.Prod.Lex
import StochasticGames.Proofs.JointPasses

/-! How profiles of payoffs compare: which one dominates another, which one is fairer, and where the
payoffs of two coalitions even out. -/
namespace StochasticGames.Analysis
open StochasticGames.Numeric StochasticGames.Arena

theorem close_refl (x : EReal) : Scalar.close x x := by
  simp [Scalar.close, Scalar.same]

theorem larger_coe (x y : ℝ) : Scalar.larger (x : EReal) y = ((max x y : ℝ) : EReal) :=
  (larger_eq _ _).trans (EReal.coe_strictMono.monotone.map_max).symm

theorem smaller_coe (x y : ℝ) : Scalar.smaller (x : EReal) y = ((min x y : ℝ) : EReal) :=
  (smaller_eq _ _).trans (EReal.coe_strictMono.monotone.map_min).symm

/-- Payoffs up to one tie where they differ by no more than the tolerance. -/
theorem close_coe_iff {x y : ℝ} (hx : |x| ≤ 1) (hy : |y| ≤ 1) :
    Scalar.close (x : EReal) y ↔ |x - y| ≤ 1e-12 := by
  have hscale : (Scalar.tieTolerance : EReal) * Scalar.larger (Scalar.larger (Scalar.abs (x : EReal))
      (Scalar.abs (y : EReal))) 1 = ((1e-12 : ℝ) : EReal) := by
    rw [abs_coe, abs_coe, larger_coe, ← EReal.coe_one, larger_coe, max_eq_right (max_le hx hy),
      EReal.coe_one, mul_one]
    rfl
  rw [Scalar.close, hscale, ← EReal.coe_sub, abs_coe]
  simp only [Scalar.isFinite, Scalar.atMost, Scalar.less, Scalar.same, EReal.coe_ne_top,
    EReal.coe_ne_bot, ne_eq, not_false_eq_true, and_self, decide_true, Bool.true_and,
    Bool.or_eq_true, decide_eq_true_eq, EReal.coe_lt_coe_iff, EReal.coe_eq_coe_iff,
    ← le_iff_lt_or_eq]
  refine or_iff_right_of_imp fun he => ?_
  rw [he, sub_self, abs_zero]
  norm_num

theorem coe_mean (v x y : ℝ) :
    (v : EReal) * x + (1 - v) * y = ((v * x + (1 - v) * y : ℝ) : EReal) := by
  rw [EReal.coe_add, EReal.coe_mul, EReal.coe_mul, EReal.coe_sub, EReal.coe_one]

namespace Profile
variable {p q : Profile EReal}

/-- The payoff of each coalition, and none for those there are not. -/
noncomputable def entries (p : Profile EReal) (k : Nat) : EReal :=
  p.getD k 0

private theorem forall_mem_zip (hlen : p.length = q.length) (P : EReal × EReal → Prop) :
    (∀ x ∈ p.zip q, P x) ↔ ∀ k < p.length, P (p.entries k, q.entries k) := by
  have hat : ∀ k < p.length, (p.zip q)[k]? = some (p.entries k, q.entries k) := fun k hk => by
    rw [List.zip, List.getElem?_zipWith, List.getElem?_eq_getElem hk,
      List.getElem?_eq_getElem (hlen ▸ hk), entries, entries, List.getD_eq_getElem _ _ hk,
      List.getD_eq_getElem _ _ (hlen ▸ hk)]
  constructor
  · intro h k hk
    exact h _ (List.mem_of_getElem? (hat k hk))
  · intro h x hx
    obtain ⟨k, hxk⟩ := List.mem_iff_getElem?.mp hx
    have hk : k < p.length := by
      simpa [← hlen] using (List.getElem?_eq_some_iff.mp hxk).1
    obtain rfl := Option.some.inj ((hat k hk).symm.trans hxk)
    exact h k hk

theorem dominates_iff_zip (p q : Profile EReal) : dominates p q ↔
    (¬ ∀ x ∈ p.zip q, Scalar.close x.1 x.2) ∧
      ∀ x ∈ p.zip q, Scalar.close x.1 x.2 ∨ ¬ x.1 < x.2 := by
  simp only [dominates, Bool.and_eq_true, Bool.not_eq_true', List.isEmpty_eq_false_iff, ne_eq,
    List.filter_eq_nil_iff, List.all_filter, List.all_eq_true, Bool.or_eq_true, Bool.not_not,
    Bool.not_eq_false]
  simp [Scalar.less]

theorem dominates_self (p : Profile EReal) : dominates p p = false := by
  rw [← Bool.not_eq_true, dominates_iff_zip, forall_mem_zip rfl]
  exact fun h => h.1 fun k _ => close_refl _

/-- Where only equal payoffs tie, to dominate is to be larger in the order of payoffs. -/
theorem dominates_iff (hlen : p.length = q.length)
    (hexact : ∀ k, Scalar.close (p.getD k 0) (q.getD k 0) → p.getD k 0 = q.getD k 0) :
    dominates p q ↔ q.entries < p.entries := by
  have hclose : ∀ k, Scalar.close (p.entries k) (q.entries k) ↔ p.entries k = q.entries k :=
    fun k => ⟨hexact k, fun he => he ▸ close_refl _⟩
  have hbeyond : ∀ k, ¬ k < p.length → p.entries k = q.entries k := fun k hk => by
    rw [entries, entries, List.getD_eq_default _ _ (not_lt.mp hk),
      List.getD_eq_default _ _ (hlen ▸ not_lt.mp hk)]
  rw [dominates_iff_zip, forall_mem_zip hlen, forall_mem_zip hlen, lt_iff_le_and_ne, and_comm, Ne,
    funext_iff]
  refine and_congr (forall_congr' fun k => ?_) (not_congr (forall_congr' fun k => ?_))
  · by_cases hk : k < p.length
    · simp only [hclose, hk, true_imp_iff, not_lt]
      exact ⟨fun h => h.elim (fun he => he.ge) id, .inr⟩
    · exact iff_of_true (fun h => absurd h hk) (hbeyond k hk).ge
  · by_cases hk : k < p.length
    · simp only [hclose, hk, true_imp_iff, eq_comm]
    · exact iff_of_true (fun h => absurd h hk) (hbeyond k hk).symm

theorem entries_mix {w : EReal} (hlen : p.length = q.length) (k : Nat) :
    (mix w p q).entries k = w * p.entries k + (1 - w) * q.entries k := by
  by_cases hk : k < p.length
  · exact mix_getD hk (hlen ▸ hk)
  · have hmix : (mix w p q).length ≤ k := by
      rw [mix, List.length_zipWith]
      omega
    rw [entries, entries, entries, List.getD_eq_default _ _ hmix,
      List.getD_eq_default _ _ (not_lt.mp hk), List.getD_eq_default _ _ (hlen ▸ not_lt.mp hk)]
    simp

theorem isPayoff_entries (hp : ∀ x ∈ p, IsPayoff x) (k : Nat) : IsPayoff (p.entries k) := by
  rw [entries, List.getD_eq_getElem?_getD]
  cases hx : p[k]? with
  | none => exact isPayoff_zero
  | some x => exact hp x (List.mem_of_getElem? hx)

/-- A mean lies between what it is taken of. -/
private theorem mean_le {w x y : EReal} (hw : 0 < w) (hw' : w < 1) (hx : IsPayoff x)
    (hy : IsPayoff y) :
    ((w * x + (1 - w) * y ≤ x ↔ y ≤ x) ∧ (x ≤ w * x + (1 - w) * y ↔ x ≤ y)) ∧
      (w * x + (1 - w) * y ≤ y ↔ x ≤ y) ∧ (y ≤ w * x + (1 - w) * y ↔ y ≤ x) := by
  have hmean := mix_eq hw hw' hx hy
  obtain ⟨hpos, hlt⟩ := toReal_odds hw hw'
  rw [hmean]
  obtain ⟨x, -, rfl⟩ := hx
  obtain ⟨y, -, rfl⟩ := hy
  generalize w.toReal = v at hpos hlt
  have hlt := sub_pos.mpr hlt
  simp only [EReal.toReal_coe, EReal.coe_le_coe_iff]
  have hleft : v * x + (1 - v) * y = x + (1 - v) * (y - x) := by ring
  have hright : v * x + (1 - v) * y = y + v * (x - y) := by ring
  refine ⟨⟨?_, ?_⟩, ?_, ?_⟩
  · rw [hleft, add_le_iff_nonpos_right, mul_nonpos_iff_pos_imp_nonpos]
    exact ⟨fun h => sub_nonpos.mp (h.1 hlt), fun h => ⟨fun _ => sub_nonpos.mpr h, fun _ => hlt.le⟩⟩
  · rw [hleft, le_add_iff_nonneg_right, mul_nonneg_iff_of_pos_left hlt, sub_nonneg]
  · rw [hright, add_le_iff_nonpos_right, mul_nonpos_iff_pos_imp_nonpos]
    exact ⟨fun h => sub_nonpos.mp (h.1 hpos), fun h => ⟨fun _ => sub_nonpos.mpr h, fun _ => hpos.le⟩⟩
  · rw [hright, le_add_iff_nonneg_right, mul_nonneg_iff_of_pos_left hpos, sub_nonneg]

/-- Whoever is better than a mixture of itself is better than the other. -/
theorem entries_mix_lt {w : EReal} (hw : 0 < w) (hw' : w < 1) (hlen : p.length = q.length)
    (hp : ∀ x ∈ p, IsPayoff x) (hq : ∀ x ∈ q, IsPayoff x) :
    ((mix w p q).entries < p.entries ↔ q.entries < p.entries) ∧
      ((mix w p q).entries < q.entries ↔ p.entries < q.entries) := by
  have hmean := fun k => mean_le hw hw' (isPayoff_entries hp k) (isPayoff_entries hq k)
  simp only [lt_iff_le_not_ge, Pi.le_def, entries_mix hlen, fun k => (hmean k).1.1,
    fun k => (hmean k).1.2, fun k => (hmean k).2.1, fun k => (hmean k).2.2, and_self]

/-- The order of fairness: by spread first, by sum among the same spreads. -/
noncomputable def fairKey (p : Profile EReal) : EReal ×ₗ ERealᵒᵈ :=
  toLex (p.spread, OrderDual.toDual (Scalar.sum p))

theorem socialBetter_iff
    (hsum : Scalar.close (Scalar.sum p) (Scalar.sum q) → Scalar.sum p = Scalar.sum q) :
    socialBetter p q ↔ Scalar.sum q < Scalar.sum p := by
  have hclose : Scalar.close (Scalar.sum p) (Scalar.sum q) ↔ Scalar.sum p = Scalar.sum q :=
    ⟨hsum, fun he => he ▸ close_refl _⟩
  simp only [socialBetter, Bool.and_eq_true, Bool.not_eq_true', ← Bool.not_eq_true, hclose]
  simp only [Scalar.less, decide_eq_true_eq]
  exact and_iff_right_of_imp fun hlt he => (he ▸ hlt).false

theorem fairBetter_iff (hspread : Scalar.close p.spread q.spread → p.spread = q.spread)
    (hsum : Scalar.close (Scalar.sum p) (Scalar.sum q) → Scalar.sum p = Scalar.sum q) :
    fairBetter p q ↔ p.fairKey < q.fairKey := by
  rw [fairKey, fairKey, Prod.Lex.toLex_lt_toLex, OrderDual.toDual_lt_toDual,
    ← socialBetter_iff hsum]
  unfold fairBetter
  by_cases hs : p.spread = q.spread
  · simp only [hs, close_refl, if_true, lt_irrefl, false_or, true_and]
  · have hcs : ¬ Scalar.close p.spread q.spread := fun hc => hs (hspread hc)
    simp only [hs, hcs, false_and, or_false, Bool.false_eq_true, if_false]
    simp [Scalar.less]

/-- Spreads and sums of these profiles tie only where they are equal. -/
def ExactlyRanked (P : Set (Profile EReal)) : Prop :=
  ∀ p ∈ P, ∀ q ∈ P, (Scalar.close p.spread q.spread → p.spread = q.spread) ∧
    (Scalar.close (Scalar.sum p) (Scalar.sum q) → Scalar.sum p = Scalar.sum q)

theorem ExactlyRanked.mono {P Q : Set (Profile EReal)} (h : ExactlyRanked Q) (hsub : P ⊆ Q) :
    ExactlyRanked P :=
  fun p hp q hq => h p (hsub hp) q (hsub hq)

theorem ExactlyRanked.fairBetter_iff {P : Set (Profile EReal)} (h : ExactlyRanked P) (hp : p ∈ P)
    (hq : q ∈ P) : fairBetter p q ↔ p.fairKey < q.fairKey :=
  Profile.fairBetter_iff (h p hp q hq).1 (h p hp q hq).2

theorem ExactlyRanked.socialBetter_iff {P : Set (Profile EReal)} (h : ExactlyRanked P)
    (hp : p ∈ P) (hq : q ∈ P) : socialBetter p q ↔ Scalar.sum q < Scalar.sum p :=
  Profile.socialBetter_iff (h p hp q hq).2

end Profile

/-- Mixed in some proportion, the payoffs `a` and `b` of two coalitions give `x` to both. -/
def Evens (a b : ℝ × ℝ) (x : ℝ) : Prop :=
  ∃ v, 0 < v ∧ v < 1 ∧ v * a.1 + (1 - v) * b.1 = x ∧ v * a.2 + (1 - v) * b.2 = x

namespace Evens
variable {a b c u : ℝ × ℝ} {x y : ℝ}

theorem symm (h : Evens a b x) : Evens b a x := by
  obtain ⟨v, hv, hv', h₁, h₂⟩ := h
  exact ⟨1 - v, sub_pos.mpr hv', sub_lt_self 1 hv, by linarith, by linarith⟩

theorem swap (h : Evens a b x) : Evens a.swap b.swap x := by
  obtain ⟨v, hv, hv', h₁, h₂⟩ := h
  exact ⟨v, hv, hv', h₂, h₁⟩

theorem le_of_le (h : Evens a b x) (hab : a ≤ b) : a ≤ (x, x) := by
  obtain ⟨v, -, hv', rfl, he⟩ := h
  have h₁ := mul_le_mul_of_nonneg_left hab.1 (sub_pos.mpr hv').le
  have h₂ := mul_le_mul_of_nonneg_left hab.2 (sub_pos.mpr hv').le
  exact ⟨by linarith, by linarith⟩

theorem between (h : Evens a b x) (h₁ : b.1 < a.1) (h₂ : a.2 < b.2) :
    (b.1 < x ∧ x < b.2) ∧ a.2 < x ∧ x < a.1 := by
  obtain ⟨v, hv, hv', rfl, he⟩ := h
  have hgain : 0 < v * (a.1 - b.1) := mul_pos hv (sub_pos.mpr h₁)
  have hgain' : 0 < (1 - v) * (a.1 - b.1) := mul_pos (sub_pos.mpr hv') (sub_pos.mpr h₁)
  have hloss : 0 < v * (b.2 - a.2) := mul_pos hv (sub_pos.mpr h₂)
  have hloss' : 0 < (1 - v) * (b.2 - a.2) := mul_pos (sub_pos.mpr hv') (sub_pos.mpr h₂)
  refine ⟨⟨?_, ?_⟩, ?_, ?_⟩ <;> linarith

/-- What evens out beyond a point of the diagonal gives more than that to both. -/
theorem lt (h : Evens u c y) (hu : u.1 < x) (hu' : x < u.2) (hc : (x, x) < c) : x < y := by
  obtain ⟨v, hv, hv', h₁, h₂⟩ := h
  obtain ⟨hc₁, hc₂⟩ := Prod.mk_le_mk.mp (show ((x, x) : ℝ × ℝ) ≤ (c.1, c.2) from hc.le)
  have hne : x < c.1 ∨ x < c.2 := by
    by_contra! hno
    exact hc.ne (Prod.ext (hc₁.antisymm hno.1) (hc₂.antisymm hno.2))
  -- the line from `u` through the point of the diagonal has its normal in both directions
  have hout : 0 < (u.2 - x) * (c.1 - x) + (x - u.1) * (c.2 - x) := by
    rcases hne with hlt | hlt
    · exact add_pos_of_pos_of_nonneg (mul_pos (sub_pos.mpr hu') (sub_pos.mpr hlt))
        (mul_nonneg (sub_pos.mpr hu).le (sub_nonneg.mpr hc₂))
    · exact add_pos_of_nonneg_of_pos (mul_nonneg (sub_pos.mpr hu').le (sub_nonneg.mpr hc₁))
        (mul_pos (sub_pos.mpr hu) (sub_pos.mpr hlt))
  have hrise : (u.2 - u.1) * (y - x) =
      (1 - v) * ((u.2 - x) * (c.1 - x) + (x - u.1) * (c.2 - x)) := by
    calc (u.2 - u.1) * (y - x) = (u.2 - x) * (y - x) + (x - u.1) * (y - x) := by ring
      _ = (u.2 - x) * (v * u.1 + (1 - v) * c.1 - x) +
          (x - u.1) * (v * u.2 + (1 - v) * c.2 - x) := by rw [h₁, h₂]
      _ = _ := by ring
  have hpos : 0 < (u.2 - u.1) * (y - x) := hrise ▸ mul_pos (sub_pos.mpr hv') hout
  exact sub_pos.mp ((mul_pos_iff_of_pos_left (sub_pos.mpr (hu.trans hu'))).mp hpos)

/-- Above a mixture of incomparable payoffs there are either even ones, or such as even out with
one of the two for more. -/
theorem exists_fairer (h : Evens a b x) (hab : ¬ a ≤ b) (hba : ¬ b ≤ a) (hc : (x, x) < c) :
    c.1 = c.2 ∨ ∃ u, (u = a ∨ u = b) ∧ (u.1 - u.2) * (c.1 - c.2) < 0 ∧
      ∀ y, Evens u c y → x < y := by
  obtain ⟨u, u', hu, hu', hbelow, habove⟩ : ∃ u u', (u = a ∨ u = b) ∧ (u' = a ∨ u' = b) ∧
      (u.1 < x ∧ x < u.2) ∧ u'.2 < x ∧ x < u'.1 := by
    rcases lt_or_ge b.1 a.1 with h₁ | h₁
    · have h₂ : a.2 < b.2 := not_le.mp fun h₂ => hba ⟨h₁.le, h₂⟩
      exact ⟨b, a, .inr rfl, .inl rfl, h.between h₁ h₂⟩
    · have h₂ : b.2 < a.2 := not_le.mp fun h₂ => hab ⟨h₁, h₂⟩
      have h₁ : a.1 < b.1 := h₁.lt_of_ne fun he =>
        (hba ⟨he.ge, h₂.le⟩)
      exact ⟨a, b, .inl rfl, .inr rfl, h.symm.between h₁ h₂⟩
  rcases lt_trichotomy c.1 c.2 with hlt | he | hlt
  · refine .inr ⟨u', hu', mul_neg_of_pos_of_neg (sub_pos.mpr (habove.1.trans habove.2))
      (sub_neg.mpr hlt), fun y hy => ?_⟩
    exact hy.swap.lt (x := x) habove.1 habove.2 (Prod.swap_lt_swap.mpr hc)
  · exact .inl he
  · refine .inr ⟨u, hu, mul_neg_of_neg_of_pos (sub_neg.mpr (hbelow.1.trans hbelow.2))
      (sub_pos.mpr hlt), fun y hy => ?_⟩
    exact hy.lt hbelow.1 hbelow.2 hc

end Evens

namespace Profile
variable {a b : ℝ × ℝ} {x y : ℝ} {w : EReal}

/-- The payoffs of two coalitions. -/
noncomputable def ofPair (a : ℝ × ℝ) : Profile EReal :=
  [(a.1 : EReal), (a.2 : EReal)]

theorem exists_ofPair {p : Profile EReal} (hlen : p.length = 2) (hreal : ∀ x ∈ p, IsPayoff x) :
    ∃ a, p = ofPair a := by
  obtain ⟨x, y, rfl⟩ := List.length_eq_two.mp hlen
  obtain ⟨u, -, rfl⟩ := hreal x (by simp)
  obtain ⟨v, -, rfl⟩ := hreal y (by simp)
  exact ⟨(u, v), rfl⟩

theorem entries_ofPair_le : (ofPair a).entries ≤ (ofPair b).entries ↔ a ≤ b := by
  constructor
  · intro h
    exact ⟨EReal.coe_le_coe_iff.mp (h 0), EReal.coe_le_coe_iff.mp (h 1)⟩
  · rintro ⟨h₁, h₂⟩ (_ | _ | k)
    · exact EReal.coe_le_coe_iff.mpr h₁
    · exact EReal.coe_le_coe_iff.mpr h₂
    · exact le_rfl

theorem entries_ofPair_lt : (ofPair a).entries < (ofPair b).entries ↔ a < b := by
  rw [lt_iff_le_not_ge, lt_iff_le_not_ge, entries_ofPair_le, entries_ofPair_le]

theorem spread_coe (x y z : ℝ) : spread [(x : EReal), (y : EReal), (z : EReal)] =
    ((max (max x y) z - min (min x y) z : ℝ) : EReal) := by
  have hlargest : largest [(x : EReal), (y : EReal), (z : EReal)] =
      ((max (max x y) z : ℝ) : EReal) := by
    have hfirst : Scalar.larger (Scalar.negInfinity : EReal) x = x := by
      simp [Scalar.larger, Scalar.same, Scalar.less, Scalar.negInfinity]
    simp only [largest, List.foldl_cons, List.foldl_nil, hfirst, larger_coe]
  have hsmallest : smallest [(x : EReal), (y : EReal), (z : EReal)] =
      ((min (min x y) z : ℝ) : EReal) := by
    have hfirst : Scalar.smaller (Scalar.infinity : EReal) x = x := by
      simp [Scalar.smaller, Scalar.same, Scalar.less, Scalar.infinity]
    simp only [smallest, List.foldl_cons, List.foldl_nil, hfirst, smaller_coe]
  rw [spread, hlargest, hsmallest, EReal.coe_sub]

/-- Among even payoffs the larger ones are fairer. -/
theorem fairKey_even_lt (h : x < y) : (ofPair (y, y)).fairKey < (ofPair (x, x)).fairKey := by
  have hspread : ∀ z : ℝ, (ofPair (z, z)).spread = 0 := fun z => by
    simp [ofPair, spread, largest, smallest, Scalar.larger, Scalar.smaller, Scalar.same, Scalar.less,
      Scalar.negInfinity, Scalar.infinity]
  have hsum : ∀ z : ℝ, Scalar.sum (ofPair (z, z)) = ((z + z : ℝ) : EReal) := fun z => by
    simp [ofPair, Scalar.sum]
  rw [fairKey, fairKey, hspread, hspread, hsum, hsum]
  refine Prod.Lex.toLex_lt_toLex.mpr (.inr ⟨rfl, OrderDual.toDual_lt_toDual.mpr ?_⟩)
  exact EReal.coe_lt_coe_iff.mpr (add_lt_add h h)

/-- Real payoffs cross where the mixture closes the gap between them. -/
theorem crossing?_eq {p q : Profile EReal} {c d : Nat} {g h : ℝ}
    (hg : p.getD c 0 - p.getD d 0 = (g : EReal)) (hh : q.getD c 0 - q.getD d 0 = (h : EReal)) :
    crossing? p q c d = if h = g then none
      else if 0 < h / (h - g) ∧ h / (h - g) < 1 then some ((h / (h - g) : ℝ) : EReal)
      else none := by
  have hdenom : ((h : EReal) - g = 0) ↔ h = g := by
    rw [← EReal.coe_sub, EReal.coe_eq_zero, sub_eq_zero]
  have hratio : (h : EReal) / (h - g) = ((h / (h - g) : ℝ) : EReal) := by
    rw [EReal.coe_div, EReal.coe_sub]
  have hone : ∀ v : ℝ, ((v : EReal) < 1) ↔ v < 1 := fun v => EReal.coe_lt_coe_iff
  simp only [crossing?, hg, hh, hratio, Scalar.same, Scalar.less, hdenom, EReal.coe_pos, hone,
    decide_eq_true_eq, Bool.and_eq_true]

theorem crossing?_eq_none {p q : Profile EReal} {c d : Nat} {g h : ℝ}
    (hg : p.getD c 0 - p.getD d 0 = (g : EReal)) (hh : q.getD c 0 - q.getD d 0 = (h : EReal))
    (hside : 0 ≤ g * h) : crossing? p q c d = none := by
  rw [crossing?_eq hg hh]
  split_ifs with hne hv
  · rfl
  · exfalso
    obtain ⟨hpos, hlt⟩ := hv
    rcases div_pos_iff.mp hpos with ⟨hh, hdenom⟩ | ⟨hh, hdenom⟩
    · have hg : g < 0 := by linarith [(div_lt_one hdenom).mp hlt]
      exact hside.not_gt (mul_neg_of_neg_of_pos hg hh)
    · have hg : 0 < g := by linarith [(div_lt_one_of_neg hdenom).mp hlt]
      exact hside.not_gt (mul_neg_of_pos_of_neg hg hh)
  · rfl

theorem fairestMixture?_none {p q : Profile EReal}
    (h : ∀ x ∈ positionPairs p.length, crossing? p q x.1 x.2 = none) :
    fairestMixture? p q = none := by
  unfold fairestMixture?
  refine List.foldlRecOn (motive := fun found => found = none) _ _ rfl ?_
  rintro found rfl x hx
  dsimp only
  rw [h x hx]

theorem crossing?_ofPair : crossing? (ofPair a) (ofPair b) 0 1 =
    let v := (b.1 - b.2) / (b.1 - b.2 - (a.1 - a.2))
    if b.1 - b.2 = a.1 - a.2 then none else if 0 < v ∧ v < 1 then some (v : EReal) else none :=
  crossing?_eq (EReal.coe_sub a.1 a.2).symm (EReal.coe_sub b.1 b.2).symm

theorem evens_of_crossing (h : crossing? (ofPair a) (ofPair b) 0 1 = some w) :
    ∃ x, Evens a b x ∧ mix w (ofPair a) (ofPair b) = ofPair (x, x) := by
  rw [crossing?_ofPair] at h
  dsimp only at h
  split_ifs at h with hne hv
  obtain rfl := Option.some.inj h
  have hne : b.1 - b.2 - (a.1 - a.2) ≠ 0 := sub_ne_zero.mpr hne
  generalize hdef : (b.1 - b.2) / (b.1 - b.2 - (a.1 - a.2)) = v at hv ⊢
  have heven : v * a.2 + (1 - v) * b.2 = v * a.1 + (1 - v) * b.1 := by
    have := (div_eq_iff hne).mp hdef
    linarith
  refine ⟨v * a.1 + (1 - v) * b.1, ⟨v, hv.1, hv.2, rfl, heven⟩, ?_⟩
  have hpair : mix (v : EReal) (ofPair a) (ofPair b) = [(v : EReal) * a.1 + (1 - v) * b.1,
      (v : EReal) * a.2 + (1 - v) * b.2] := rfl
  rw [hpair, coe_mean, coe_mean, heven]
  rfl

theorem exists_crossing (h : (a.1 - a.2) * (b.1 - b.2) < 0) :
    ∃ w, crossing? (ofPair a) (ofPair b) 0 1 = some w := by
  have hsides : 0 < (b.1 - b.2) / (b.1 - b.2 - (a.1 - a.2)) ∧
      (b.1 - b.2) / (b.1 - b.2 - (a.1 - a.2)) < 1 := by
    rcases mul_neg_iff.mp h with ⟨hpos, hneg⟩ | ⟨hneg, hpos⟩
    · have hdenom : b.1 - b.2 - (a.1 - a.2) < 0 := by linarith
      exact ⟨div_pos_of_neg_of_neg hneg hdenom, (div_lt_one_of_neg hdenom).mpr (by linarith)⟩
    · have hdenom : 0 < b.1 - b.2 - (a.1 - a.2) := by linarith
      exact ⟨div_pos hpos hdenom, (div_lt_one hdenom).mpr (by linarith)⟩
  have hne : b.1 - b.2 ≠ a.1 - a.2 := fun he => (he ▸ h).not_ge (mul_self_nonneg _)
  rw [crossing?_ofPair]
  exact ⟨_, by rw [if_neg hne, if_pos hsides]⟩

theorem fairestMixture?_ofPair : fairestMixture? (ofPair a) (ofPair b) =
    (crossing? (ofPair a) (ofPair b) 0 1).map fun w => (w, mix w (ofPair a) (ofPair b)) := by
  have hpairs : positionPairs (ofPair a).length = [(0, 1)] := rfl
  rw [fairestMixture?, hpairs]
  cases h : crossing? (ofPair a) (ofPair b) 0 1 <;> simp [h]

/-- There is nothing to even out for a single coalition. -/
theorem fairestMixture?_eq_none {p q : Profile EReal} (h : p.length < 2) :
    fairestMixture? p q = none := by
  have hpairs : positionPairs p.length = [] := by
    have hsmall : p.length = 0 ∨ p.length = 1 := by omega
    rcases hsmall with he | he <;> rw [he] <;> rfl
  refine fairestMixture?_none fun x hx => ?_
  rw [hpairs] at hx
  exact absurd hx List.not_mem_nil

end Profile

end StochasticGames.Analysis
