import Mathlib.Order.Preorder.Finite
import StochasticGames.Proofs.Dominance

/-! Whether an admitted choice dominates the play that is selected instead. -/
namespace StochasticGames.Analysis
open StochasticGames.Numeric StochasticGames.Arena

/-- The profiles between which a selection decides: those of the choices, and mixtures of two of
them in which some gap closes. -/
inductive Compared (profiles : Array (Profile EReal)) : Profile EReal → Prop where
  | pure {i : Nat} (hi : i < profiles.size) : Compared profiles (profiles.getD i [])
  | mixed {i j c d : Nat} {w : EReal} (hi : i < profiles.size) (hj : j < profiles.size)
      (hcd : (c, d) ∈ Profile.positionPairs (profiles.getD i []).length)
      (hw : Profile.crossing? (profiles.getD i []) (profiles.getD j []) c d = some w) :
      Compared profiles (Profile.mix w (profiles.getD i []) (profiles.getD j []))

/-- Spreads, sums and payoffs of the profiles that are compared tie only where they are equal. -/
structure TiesExact (profiles : Array (Profile EReal)) : Prop where
  spread : ∀ p q : Profile EReal, Compared profiles p → Compared profiles q →
    Scalar.close p.spread q.spread → p.spread = q.spread
  sum : ∀ p q : Profile EReal, Compared profiles p → Compared profiles q →
    Scalar.close (Scalar.sum p) (Scalar.sum q) → Scalar.sum p = Scalar.sum q
  payoff : ∀ p q : Profile EReal, Compared profiles p → Compared profiles q →
    ∀ k, Scalar.close (p.getD k 0) (q.getD k 0) → p.getD k 0 = q.getD k 0

namespace Selector
variable {sel : Selector EReal} {owner : Option Nat} {secure : EReal}
  {profiles : Array (Profile EReal)} {i j k n : Nat} {l : List Nat} {w : EReal}
  {p : Profile EReal} {play : EquilibriumChoice EReal × Profile EReal}

theorem mem_undominated : i ∈ undominated l profiles ↔ i ∈ l ∧ ∀ k ∈ l,
    ¬ Profile.dominates (profiles.getD k []) (profiles.getD i []) := by
  rw [undominated, List.mem_filter, Bool.not_eq_true', List.any_eq_false]
  refine and_congr_right fun _ => forall₂_congr fun k _ => ?_
  by_cases hk : k = i
  · simp [hk, Profile.dominates_self]
  · simp [hk]

theorem mem_pairs_of_ne (hi : i ∈ l) (hj : j ∈ l) (hne : i ≠ j) :
    (i, j) ∈ pairs l ∨ (j, i) ∈ pairs l := by
  induction l with
  | nil => exact absurd hi List.not_mem_nil
  | cons k l ih =>
    have hfirst : ∀ {m}, m ∈ l → (k, m) ∈ pairs (k :: l) := fun hm =>
      List.mem_append_left _ (List.mem_map_of_mem hm)
    rcases List.mem_cons.mp hi with rfl | hil <;> rcases List.mem_cons.mp hj with rfl | hjl
    · exact absurd rfl hne
    · exact .inl (hfirst hjl)
    · exact .inr (hfirst hil)
    · exact (ih hil hjl).imp (List.mem_append_right _) (List.mem_append_right _)

section Eligible
variable (hund : undominated (sel.candidates owner secure profiles) profiles ≠ [])
include hund

theorem eligible_eq : sel.eligible owner secure profiles =
    undominated (sel.candidates owner secure profiles) profiles :=
  if_neg fun hempty => hund (List.isEmpty_iff.mp hempty)

/-- No admitted choice dominates an eligible one. -/
theorem not_dominates_eligible (hi : i ∈ sel.eligible owner secure profiles)
    (hk : k ∈ sel.candidates owner secure profiles) :
    ¬ Profile.dominates (profiles.getD k []) (profiles.getD i []) := by
  rw [eligible_eq hund] at hi
  exact (mem_undominated.mp hi).2 k hk

end Eligible

theorem compared_of_mem_plays
    (h : play ∈ sel.plays profiles (sel.eligible owner secure profiles)) :
    Compared profiles play.2 := by
  obtain ⟨i, hi, rfl⟩ | ⟨-, i, j, hij, q, hq, rfl⟩ := mem_plays.mp h
  · exact .pure (lt_of_mem_eligible hi)
  · obtain ⟨⟨c, d, hcd, hcrossing⟩, hmix⟩ := Profile.fairestMixture?_spec q hq
    obtain ⟨hi, hj⟩ := mem_of_mem_pairs hij
    dsimp only
    rw [hmix]
    exact .mixed (lt_of_mem_eligible hi) (lt_of_mem_eligible hj) hcd hcrossing

theorem length_getD (hlen : ∀ p ∈ profiles, p.length = n) (hi : i < profiles.size) :
    (profiles.getD i []).length = n := by
  rw [Array.getD_eq_getD_getElem?, Array.getElem?_eq_getElem hi]
  exact hlen _ (Array.getElem_mem hi)

theorem isPayoff_getD (hpay : ∀ p ∈ profiles, ∀ x ∈ p, IsPayoff x) (hi : i < profiles.size) :
    ∀ x ∈ profiles.getD i [], IsPayoff x := by
  rw [Array.getD_eq_getD_getElem?, Array.getElem?_eq_getElem hi]
  exact hpay _ (Array.getElem_mem hi)

theorem exists_ofPair_of_two (hlen : ∀ p ∈ profiles, p.length = n)
    (hpay : ∀ p ∈ profiles, ∀ x ∈ p, IsPayoff x) (htwo : n = 2) (hi : i < profiles.size) :
    ∃ a, profiles.getD i [] = Profile.ofPair a :=
  Profile.exists_ofPair ((length_getD hlen hi).trans htwo) (isPayoff_getD hpay hi)

theorem length_of_compared (hlen : ∀ p ∈ profiles, p.length = n) (hp : Compared profiles p) :
    p.length = n := by
  cases hp with
  | pure hi => exact length_getD hlen hi
  | mixed hi hj _ _ =>
    rw [Profile.mix, List.length_zipWith, length_getD hlen hi, length_getD hlen hj, min_self]

/-- Where two coalitions lean to different sides, some play makes them even. -/
theorem exists_even_play {a c : ℝ × ℝ} (hmixes : sel.mixes) (hi : i ∈ l) (hk : k ∈ l)
    (ha : profiles.getD i [] = Profile.ofPair a) (hc : profiles.getD k [] = Profile.ofPair c)
    (hgap : (a.1 - a.2) * (c.1 - c.2) < 0) :
    ∃ y choice, Evens a c y ∧ (choice, Profile.ofPair (y, y)) ∈ sel.plays profiles l := by
  have hplay : ∀ {i j : Nat} {a b : ℝ × ℝ}, (i, j) ∈ pairs l →
      profiles.getD i [] = Profile.ofPair a → profiles.getD j [] = Profile.ofPair b →
      (a.1 - a.2) * (b.1 - b.2) < 0 →
      ∃ y choice, Evens a b y ∧ (choice, Profile.ofPair (y, y)) ∈ sel.plays profiles l := by
    intro i j a b hij ha hb hgap
    obtain ⟨w, hw⟩ := Profile.exists_crossing hgap
    obtain ⟨y, heven, hmix⟩ := Profile.evens_of_crossing hw
    refine ⟨y, .mixed i j w, heven, mem_plays.mpr (.inr ⟨hmixes, i, j, hij, (w, _), ?_, rfl⟩)⟩
    rw [ha, hb, Profile.fairestMixture?_ofPair, hw, Option.map_some, hmix]
    rfl
  have hne : i ≠ k := by
    rintro rfl
    have he := ha.symm.trans hc
    obtain rfl : a = c := le_antisymm (Profile.entries_ofPair_le.mp (he ▸ le_rfl))
      (Profile.entries_ofPair_le.mp (he ▸ le_rfl))
    exact hgap.not_ge (mul_self_nonneg _)
  rcases mem_pairs_of_ne hi hk hne with h | h
  · exact hplay h ha hc hgap
  · obtain ⟨y, choice, heven, hmem⟩ := hplay h hc ha (by rwa [mul_comm])
    exact ⟨y, choice, heven.symm, hmem⟩

/-- Where the criterion goes by a key, no play has a smaller one than the play that is selected. -/
theorem key_select?_le {γ : Type} [LinearOrder γ] (key : Profile EReal → γ) (hne : 0 < profiles.size)
    (hbetter : ∀ x ∈ sel.plays profiles (sel.eligible owner secure profiles),
      ∀ y ∈ sel.plays profiles (sel.eligible owner secure profiles),
        Profile.better sel.criterion y.2 x.2 ↔ key y.2 < key x.2)
    (hselect : sel.select? owner secure profiles = some play) :
    ∀ x ∈ sel.plays profiles (sel.eligible owner secure profiles), key play.2 ≤ key x.2 := by
  obtain ⟨first, rest, hplays, hfold⟩ := select?_eq_foldl sel owner secure hne
  obtain rfl := Option.some.inj (hselect.symm.trans hfold)
  rw [hplays] at hbetter ⊢
  exact key_foldl_le (fun x : EquilibriumChoice EReal × Profile EReal => key x.2)
    fun x hx y hy => if_congr (hbetter x hx y hy) rfl rfl

/-- No play is fairer than the one that is selected for fairness. -/
theorem fairKey_select?_le (hne : 0 < profiles.size) (hfair : sel.criterion = .fair)
    (hexact : Profile.ExactlyRanked
      {p | ∃ x ∈ sel.plays profiles (sel.eligible owner secure profiles), x.2 = p})
    (hselect : sel.select? owner secure profiles = some play) :
    ∀ x ∈ sel.plays profiles (sel.eligible owner secure profiles),
      play.2.fairKey ≤ x.2.fairKey := by
  refine key_select?_le Profile.fairKey hne (fun x hx y hy => ?_) hselect
  rw [hfair]
  exact hexact.fairBetter_iff ⟨y, hy, rfl⟩ ⟨x, hx, rfl⟩

section Exact
variable (hexact : TiesExact profiles)
include hexact

theorem exactlyRanked_plays : Profile.ExactlyRanked
    {p | ∃ x ∈ sel.plays profiles (sel.eligible owner secure profiles), x.2 = p} := by
  rintro _ ⟨x, hx, rfl⟩ _ ⟨y, hy, rfl⟩
  have hx := compared_of_mem_plays hx
  have hy := compared_of_mem_plays hy
  exact ⟨hexact.spread _ _ hx hy, hexact.sum _ _ hx hy⟩

variable (hlen : ∀ p ∈ profiles, p.length = n)
include hlen

theorem dominates_iff_of_compared {q : Profile EReal} (hp : Compared profiles p)
    (hq : Compared profiles q) : Profile.dominates p q ↔ q.entries < p.entries :=
  Profile.dominates_iff
    ((length_of_compared hlen hp).trans (length_of_compared hlen hq).symm)
    (hexact.payoff p q hp hq)

/-- Every admitted choice has an eligible one that is at least as good for all coalitions. -/
theorem exists_eligible_ge
    (hund : undominated (sel.candidates owner secure profiles) profiles ≠ [])
    (hk : k ∈ sel.candidates owner secure profiles) :
    ∃ m ∈ sel.eligible owner secure profiles,
      (profiles.getD k []).entries ≤ (profiles.getD m []).entries := by
  have hfinite : {x | ∃ i ∈ sel.candidates owner secure profiles,
      (profiles.getD i []).entries = x}.Finite :=
    (List.finite_toSet _).image fun i => (profiles.getD i []).entries
  obtain ⟨_, hle, ⟨m, hm, rfl⟩, hmax⟩ := hfinite.exists_le_maximal ⟨k, hk, rfl⟩
  refine ⟨m, ?_, hle⟩
  rw [eligible_eq hund, mem_undominated]
  refine ⟨hm, fun i hi hdom => ?_⟩
  have hlt := (dominates_iff_of_compared hexact hlen (.pure (lt_of_mem_candidates hi))
    (.pure (lt_of_mem_candidates hm))).mp hdom
  exact hlt.not_ge (hmax ⟨i, hi, rfl⟩ hlt.le)

end Exact

section Coin
variable (hexact : TiesExact profiles) (hlen : ∀ p ∈ profiles, p.length = n)
  (hpay : ∀ p ∈ profiles, ∀ x ∈ p, IsPayoff x)
  (hund : undominated (sel.candidates owner secure profiles) profiles ≠ [])
  (hselect : sel.select? owner secure profiles = some (.mixed i j w, p))
  (hk : k ∈ sel.candidates owner secure profiles)
include hselect hk

/-- A coin is the fairest mixture of two eligible choices. -/
theorem mixed_spec : sel.mixes ∧ (i, j) ∈ pairs (sel.eligible owner secure profiles) ∧
    Profile.fairestMixture? (profiles.getD i []) (profiles.getD j []) = some (w, p) := by
  have hne : 0 < profiles.size := Nat.zero_lt_of_lt (lt_of_mem_candidates hk)
  obtain ⟨play, hplay, hmem⟩ := select?_mem sel owner secure hne
  obtain rfl := Option.some.inj (hselect.symm.trans hplay)
  obtain ⟨i', -, he⟩ | ⟨hmixes, i', j', hij, q, hq, he⟩ := mem_plays.mp hmem
  · exact absurd (Prod.mk.inj he).1 nofun
  · obtain ⟨he, hp⟩ := Prod.mk.inj he
    obtain ⟨rfl, rfl, hw⟩ := EquilibriumChoice.mixed.inj he
    exact ⟨hmixes, hij, hq.trans (congrArg some (Prod.ext hw.symm hp.symm))⟩

theorem compared_coin : Compared profiles p := by
  obtain ⟨play, hplay, hmem⟩ := select?_mem sel owner secure
    (Nat.zero_lt_of_lt (lt_of_mem_candidates hk))
  obtain rfl := Option.some.inj (hselect.symm.trans hplay)
  exact compared_of_mem_plays hmem

include hexact hlen hpay

/-- Between two coalitions a coin gives the same to both, and no even play gives more. -/
theorem exists_even_coin (htwo : n = 2) : ∃ a b x,
    profiles.getD i [] = Profile.ofPair a ∧ profiles.getD j [] = Profile.ofPair b ∧
      Evens a b x ∧ p = Profile.ofPair (x, x) ∧
      ∀ y choice, (choice, Profile.ofPair (y, y)) ∈
        sel.plays profiles (sel.eligible owner secure profiles) → y ≤ x := by
  obtain ⟨hmixes, hij, hmix⟩ := mixed_spec hselect hk
  obtain ⟨hi, hj⟩ := mem_of_mem_pairs hij
  obtain ⟨a, ha⟩ := exists_ofPair_of_two hlen hpay htwo (lt_of_mem_eligible hi)
  obtain ⟨b, hb⟩ := exists_ofPair_of_two hlen hpay htwo (lt_of_mem_eligible hj)
  rw [ha, hb, Profile.fairestMixture?_ofPair] at hmix
  obtain ⟨w', hcrossing, he⟩ := Option.map_eq_some_iff.mp hmix
  obtain ⟨rfl, rfl⟩ := Prod.mk.inj he
  obtain ⟨x, heven, hp⟩ := Profile.evens_of_crossing hcrossing
  refine ⟨a, b, x, ha, hb, heven, hp, fun y choice hmem => not_lt.mp fun hlt => ?_⟩
  have hfair : sel.criterion = .fair := by
    simp only [mixes, Bool.and_eq_true, beq_iff_eq] at hmixes
    exact hmixes.2
  have hle := fairKey_select?_le (Nat.zero_lt_of_lt (lt_of_mem_candidates hk)) hfair
    (exactlyRanked_plays hexact) hselect _ hmem
  rw [hp] at hle
  exact hle.not_gt (Profile.fairKey_even_lt hlt)

include hund

/-- Neither of the choices between which a coin decides dominates it. -/
theorem ne_of_dominates_coin (hdom : Profile.dominates (profiles.getD k []) p) :
    k ≠ i ∧ k ≠ j := by
  obtain ⟨-, hij, hmix⟩ := mixed_spec hselect hk
  obtain ⟨hi, hj⟩ := mem_of_mem_pairs hij
  have hlti := lt_of_mem_eligible hi
  have hltj := lt_of_mem_eligible hj
  obtain ⟨⟨c, d, hcd, hcrossing⟩, hp⟩ := Profile.fairestMixture?_spec _ hmix
  dsimp only at hcrossing hp
  subst hp
  obtain ⟨hw, hw'⟩ := Profile.crossing?_spec hcrossing
  obtain ⟨hleft, hright⟩ := Profile.entries_mix_lt hw hw'
    ((length_getD hlen hlti).trans (length_getD hlen hltj).symm) (isPayoff_getD hpay hlti)
    (isPayoff_getD hpay hltj)
  have hlt := (dominates_iff_of_compared hexact hlen (.pure (lt_of_mem_candidates hk))
    (.mixed hlti hltj hcd hcrossing)).mp hdom
  refine ⟨fun he => ?_, fun he => ?_⟩ <;> subst he
  · exact not_dominates_eligible hund hj hk
      ((dominates_iff_of_compared hexact hlen (.pure hlti) (.pure hltj)).mpr (hleft.mp hlt))
  · exact not_dominates_eligible hund hi hk
      ((dominates_iff_of_compared hexact hlen (.pure hltj) (.pure hlti)).mpr (hright.mp hlt))

/-- Two coalitions leave nothing above a coin: a choice that is better for both would be fairer, or
make a fairer coin with one of the two. -/
theorem not_dominates_coin_of_two (htwo : n = 2) :
    ¬ Profile.dominates (profiles.getD k []) p := by
  intro hdom
  obtain ⟨hmixes, hij, -⟩ := mixed_spec hselect hk
  obtain ⟨hi, hj⟩ := mem_of_mem_pairs hij
  obtain ⟨a, b, x, ha, hb, heven, hp, hlargest⟩ :=
    exists_even_coin hexact hlen hpay hselect hk htwo
  obtain ⟨m, hm, hge⟩ := exists_eligible_ge hexact hlen hund hk
  obtain ⟨c, hc⟩ := exists_ofPair_of_two hlen hpay htwo (lt_of_mem_eligible hm)
  have habove : (x, x) < c := by
    have hlt := (dominates_iff_of_compared hexact hlen (.pure (lt_of_mem_candidates hk))
      (compared_coin hselect hk)).mp hdom
    exact Profile.entries_ofPair_lt.mp (hp ▸ hc ▸ hlt.trans_le hge)
  have hmaximal : ∀ {i a}, i ∈ sel.eligible owner secure profiles →
      profiles.getD i [] = Profile.ofPair a → ¬ a < c := fun hi ha hlt =>
    not_dominates_eligible hund hi (mem_undominated.mp (eligible_eq hund ▸ hm)).1
      ((dominates_iff_of_compared hexact hlen (.pure (lt_of_mem_eligible hm))
        (.pure (lt_of_mem_eligible hi))).mpr
          (by rw [ha, hc]; exact Profile.entries_ofPair_lt.mpr hlt))
  have hab : ¬ a ≤ b := fun hle => hmaximal hi ha ((heven.le_of_le hle).trans_lt habove)
  have hba : ¬ b ≤ a := fun hle => hmaximal hj hb ((heven.symm.le_of_le hle).trans_lt habove)
  rcases heven.exists_fairer hab hba habove with he | ⟨u, hu, hgap, hmore⟩
  · have hpure : (.pure m, Profile.ofPair (c.1, c.1)) ∈
        sel.plays profiles (sel.eligible owner secure profiles) := by
      refine mem_plays.mpr (.inl ⟨m, hm, ?_⟩)
      rw [hc, show (c.1, c.1) = c from Prod.ext rfl he]
    have hle := hlargest _ _ hpure
    exact habove.not_ge ⟨hle, he ▸ hle⟩
  · obtain ⟨y, choice, hy, hmem⟩ : ∃ y choice, Evens u c y ∧ (choice, Profile.ofPair (y, y)) ∈
        sel.plays profiles (sel.eligible owner secure profiles) := by
      rcases hu with rfl | rfl
      · exact exists_even_play hmixes hi hm ha hc hgap
      · exact exists_even_play hmixes hj hm hb hc hgap
    exact (hmore y hy).not_ge (hlargest y choice hmem)

end Coin

/-- No admitted choice dominates a pure play that is selected, where any is undominated. A coin may
be dominated, but with exact ties only by a third choice and with at least three coalitions. -/
theorem selection_undominated (sel : Selector EReal) (owner : Option Nat) (secure : EReal)
    (hne : 0 < profiles.size) (hlen : ∀ p ∈ profiles, p.length = n)
    (hpay : ∀ p ∈ profiles, ∀ x ∈ p, IsPayoff x)
    (hund : undominated (sel.candidates owner secure profiles) profiles ≠ []) :
    ∃ choice p, sel.select? owner secure profiles = some (choice, p) ∧
      (¬ sel.mixes → ∃ i, choice = .pure i) ∧
      (∀ i, choice = .pure i → ∀ k ∈ sel.candidates owner secure profiles,
        ¬ Profile.dominates (profiles.getD k []) p) ∧
      (TiesExact profiles → ∀ i j w, choice = .mixed i j w →
        ∀ k ∈ sel.candidates owner secure profiles, Profile.dominates (profiles.getD k []) p →
          k ≠ i ∧ k ≠ j ∧ 3 ≤ n) := by
  obtain ⟨⟨choice, p⟩, hselect, hmem⟩ := select?_mem sel owner secure hne
  refine ⟨choice, p, hselect, fun hpure => ?_, ?_, ?_⟩
  · obtain ⟨i, -, he⟩ | ⟨hmixes, -⟩ := mem_plays.mp hmem
    · exact ⟨i, (Prod.mk.inj he).1⟩
    · exact absurd hmixes hpure
  · rintro i rfl k hk
    obtain ⟨i', hi, he⟩ | ⟨-, i', j', -, q, -, he⟩ := mem_plays.mp hmem
    · obtain ⟨hi', rfl⟩ := Prod.mk.inj he
      exact not_dominates_eligible hund hi hk
    · exact absurd (Prod.mk.inj he).1 nofun
  · rintro hexact i j w rfl k hk hdom
    obtain ⟨hki, hkj⟩ := ne_of_dominates_coin hexact hlen hpay hund hselect hk hdom
    refine ⟨hki, hkj, ?_⟩
    by_contra hfew
    obtain htwo | hless : n = 2 ∨ n < 2 := by omega
    · exact not_dominates_coin_of_two hexact hlen hpay hund hselect hk htwo hdom
    · obtain ⟨-, hij, hmix⟩ := mixed_spec hselect hk
      have hlt := lt_of_mem_eligible (mem_of_mem_pairs hij).1
      rw [Profile.fairestMixture?_eq_none ((length_getD hlen hlt).trans_lt hless)] at hmix
      exact absurd hmix nofun

section Compromise

/-- Payoffs given in quarters. -/
noncomputable def quarters (l : List Nat) : Profile EReal :=
  l.map fun m : Nat => (((m : ℝ) / 4 : ℝ) : EReal)

private theorem quarters_getD (l : List Nat) (c : Nat) :
    (quarters l).getD c 0 = (((l.getD c 0 : ℝ) / 4 : ℝ) : EReal) := by
  have hzero : (0 : EReal) = ((((0 : Nat) : ℝ) / 4 : ℝ) : EReal) := by simp
  rw [hzero, quarters]
  exact List.getD_map l 0 fun m : Nat => (((m : ℝ) / 4 : ℝ) : EReal)

private theorem spread_quarters (x y z : Nat) : (quarters [x, y, z]).spread =
    (((max (max x y) z - min (min x y) z : Nat) / 4 : ℝ) : EReal) := by
  have hle : min (min x y) z ≤ max (max x y) z := by omega
  refine (Profile.spread_coe _ _ _).trans (congrArg _ ?_)
  rw [Nat.cast_sub hle]
  push_cast
  rw [max_div_div_right (by norm_num), max_div_div_right (by norm_num),
    min_div_div_right (by norm_num), min_div_div_right (by norm_num), sub_div]

private theorem close_quarters {m n : Nat} (hm : m ≤ 4) (hn : n ≤ 4) :
    Scalar.close (((m : ℝ) / 4 : ℝ) : EReal) (((n : ℝ) / 4 : ℝ) : EReal) = decide (m = n) := by
  have hunit : ∀ {i : Nat}, i ≤ 4 → |(i : ℝ) / 4| ≤ 1 := fun {i} hi => by
    rw [abs_of_nonneg (by positivity), div_le_one (by norm_num)]
    exact_mod_cast hi
  rw [Bool.eq_iff_iff, close_coe_iff (hunit hm) (hunit hn), decide_eq_true_eq]
  constructor
  · intro hle
    by_contra hne
    have hstep : (1 : ℝ) ≤ |(m : ℝ) - n| := by
      exact_mod_cast Int.one_le_abs (show (m : ℤ) - n ≠ 0 by omega)
    rw [← sub_div, abs_div, abs_of_pos (by norm_num : (0 : ℝ) < 4)] at hle
    linarith
  · rintro rfl
    rw [sub_self, abs_zero]
    norm_num

private theorem dominates_quarters {l l' : List Nat} (h : ∀ m ∈ l, m ≤ 4) (h' : ∀ m ∈ l', m ≤ 4) :
    Profile.dominates (quarters l) (quarters l') =
      ((l.zip l').any (fun x => x.1 != x.2) && (l.zip l').all fun x => x.2 ≤ x.1) := by
  have hclose : ∀ x ∈ l.zip l', Scalar.close (((x.1 : ℝ) / 4 : ℝ) : EReal)
      (((x.2 : ℝ) / 4 : ℝ) : EReal) = decide (x.1 = x.2) := fun x hx =>
    close_quarters (h _ (List.of_mem_zip hx).1) (h' _ (List.of_mem_zip hx).2)
  have hlt : ∀ x : Nat × Nat, ((((x.1 : ℝ) / 4 : ℝ) : EReal) < (((x.2 : ℝ) / 4 : ℝ) : EReal)) ↔
      x.1 < x.2 := fun x => by
    rw [EReal.coe_lt_coe_iff, div_lt_div_iff_of_pos_right (by norm_num), Nat.cast_lt]
  have hzip : (quarters l).zip (quarters l') = (l.zip l').map fun x =>
      ((((x.1 : ℝ) / 4 : ℝ) : EReal), (((x.2 : ℝ) / 4 : ℝ) : EReal)) := by
    rw [quarters, quarters, List.zip_map]
    rfl
  rw [Bool.eq_iff_iff, Profile.dominates_iff_zip, hzip]
  simp only [List.forall_mem_map, hlt, Bool.and_eq_true, List.any_eq_true, List.all_eq_true,
    bne_iff_ne, decide_eq_true_eq, not_forall, exists_prop]
  refine and_congr (exists_congr fun x => and_congr_right fun hx => ?_)
    (forall₂_congr fun x hx => ?_)
  · rw [hclose x hx, decide_eq_true_eq]
  · rw [hclose x hx, decide_eq_true_eq]
    omega

private theorem quarters_fairer {x y z x' y' z' : Nat}
    (hlt : max (max x y) z - min (min x y) z < max (max x' y') z' - min (min x' y') z')
    (hle : max (max x' y') z' ≤ 4) :
    Profile.fairBetter (quarters [x, y, z]) (quarters [x', y', z']) = true := by
  have hclose : Scalar.close (quarters [x, y, z]).spread (quarters [x', y', z']).spread = false := by
    rw [spread_quarters, spread_quarters, close_quarters (by omega) (by omega)]
    exact decide_eq_false hlt.ne
  rw [Profile.fairBetter]
  simp only [hclose, Bool.false_eq_true, if_false]
  rw [spread_quarters, spread_quarters]
  refine decide_eq_true (EReal.coe_lt_coe_iff.mpr ?_)
  rw [div_lt_div_iff_of_pos_right (by norm_num)]
  exact Nat.cast_lt.mpr hlt

/-- Gaps to the same side do not cross. -/
private theorem quarters_aside {l l' : List Nat} {c d : Nat}
    (h : (0 : Int) ≤ ((l.getD c 0 : Int) - l.getD d 0) * ((l'.getD c 0 : Int) - l'.getD d 0)) :
    Profile.crossing? (quarters l) (quarters l') c d = none := by
  refine Profile.crossing?_eq_none (g := ((l.getD c 0 : ℝ) - l.getD d 0) / 4)
    (h := ((l'.getD c 0 : ℝ) - l'.getD d 0) / 4) ?_ ?_ ?_
  · rw [quarters_getD, quarters_getD, ← EReal.coe_sub, sub_div]
  · rw [quarters_getD, quarters_getD, ← EReal.coe_sub, sub_div]
  · rw [div_mul_div_comm]
    refine div_nonneg ?_ (by norm_num)
    exact_mod_cast h

/-- Two coalitions that want their own ways, and one without any prospects. -/
noncomputable def opposed : Array (Profile EReal) :=
  #[quarters [4, 0, 0], quarters [0, 4, 0]]

/-- There is also a way that nearly suits both. -/
noncomputable def compromise : Array (Profile EReal) :=
  #[quarters [4, 0, 0], quarters [0, 4, 0], quarters [3, 3, 0]]

/-- Looks for a fair correlated equilibrium. -/
noncomputable def fairly : Selector EReal := ⟨.correlated, .fair, 0⟩

private theorem opposed_crossing :
    Profile.crossing? (quarters [4, 0, 0]) (quarters [0, 4, 0]) 0 1 =
        some ((1 / 2 : ℝ) : EReal) ∧
      Profile.crossing? (quarters [0, 4, 0]) (quarters [4, 0, 0]) 0 1 =
        some ((1 / 2 : ℝ) : EReal) := by
  constructor
  · rw [Profile.crossing?_eq (g := 1) (h := -1)]
    · norm_num
    · simp [quarters]
    · simp [quarters]
  · rw [Profile.crossing?_eq (g := -1) (h := 1)]
    · norm_num
    · simp [quarters]
    · simp [quarters]

private theorem opposed_mix :
    Profile.mix ((1 / 2 : ℝ) : EReal) (quarters [4, 0, 0]) (quarters [0, 4, 0]) =
        quarters [2, 2, 0] ∧
      Profile.mix ((1 / 2 : ℝ) : EReal) (quarters [0, 4, 0]) (quarters [4, 0, 0]) =
        quarters [2, 2, 0] := by
  constructor <;>
  · simp only [Profile.mix, quarters, List.map_cons, List.map_nil, List.zipWith_cons_cons,
      List.zipWith_nil_left, coe_mean]
    norm_num

theorem opposed_fairest :
    Profile.fairestMixture? (quarters [4, 0, 0]) (quarters [0, 4, 0]) =
      some (((1 / 2 : ℝ) : EReal), quarters [2, 2, 0]) := by
  have hpairs : Profile.positionPairs (quarters [4, 0, 0]).length = [(0, 1), (0, 2), (1, 2)] := rfl
  have h₀₂ : Profile.crossing? (quarters [4, 0, 0]) (quarters [0, 4, 0]) 0 2 = none :=
    quarters_aside (by decide)
  have h₁₂ : Profile.crossing? (quarters [4, 0, 0]) (quarters [0, 4, 0]) 1 2 = none :=
    quarters_aside (by decide)
  rw [Profile.fairestMixture?, hpairs]
  simp only [List.foldl_cons, List.foldl_nil, opposed_crossing.1, opposed_mix.1, h₀₂, h₁₂]

private theorem opposed_even :
    Profile.fairBetter (quarters [0, 4, 0]) (quarters [4, 0, 0]) = false := by
  have hsum : Scalar.sum (quarters [0, 4, 0]) = Scalar.sum (quarters [4, 0, 0]) := by
    simp [quarters, Scalar.sum]
  have hspread : (quarters [0, 4, 0]).spread = (quarters [4, 0, 0]).spread := by
    rw [spread_quarters, spread_quarters]
    rfl
  simp [Profile.fairBetter, Profile.socialBetter, hspread, hsum, close_refl]

/-- All crossings of the two are at equal odds. -/
private theorem opposed_odds {x : Nat × Nat} {w : EReal} (hx : x ∈ Profile.positionPairs 3)
    (hw : Profile.crossing? (quarters [4, 0, 0]) (quarters [0, 4, 0]) x.1 x.2 = some w ∨
      Profile.crossing? (quarters [0, 4, 0]) (quarters [4, 0, 0]) x.1 x.2 = some w) :
    w = ((1 / 2 : ℝ) : EReal) := by
  obtain rfl | rfl | rfl : x = (0, 1) ∨ x = (0, 2) ∨ x = (1, 2) := by
    simpa [show Profile.positionPairs 3 = [(0, 1), (0, 2), (1, 2)] from rfl] using hx
  · rw [opposed_crossing.1, opposed_crossing.2, or_self] at hw
    exact (Option.some.inj hw).symm
  · rw [quarters_aside (by decide), quarters_aside (by decide), or_self] at hw
    exact absurd hw nofun
  · rw [quarters_aside (by decide), quarters_aside (by decide), or_self] at hw
    exact absurd hw nofun

theorem compared_opposed (hp : Compared opposed p) :
    ∃ l ∈ ([[4, 0, 0], [0, 4, 0], [2, 2, 0]] : List (List Nat)), p = quarters l := by
  have htwo : ∀ {i}, i < opposed.size → i = 0 ∨ i = 1 := fun {i} hi => by
    have : i < 2 := hi
    omega
  have hsame : ∀ l ∈ ([[4, 0, 0], [0, 4, 0]] : List (List Nat)), ∀ x ∈ Profile.positionPairs 3,
      Profile.crossing? (quarters l) (quarters l) x.1 x.2 = none := by
    have haside : ∀ l ∈ ([[4, 0, 0], [0, 4, 0]] : List (List Nat)),
        ∀ x ∈ Profile.positionPairs 3,
          (0 : Int) ≤ ((l.getD x.1 0 : Int) - l.getD x.2 0) * (l.getD x.1 0 - l.getD x.2 0) := by
      decide
    exact fun l hl x hx => quarters_aside (haside l hl x hx)
  cases hp with
  | pure hi =>
    rcases htwo hi with rfl | rfl
    · exact ⟨[4, 0, 0], by decide, rfl⟩
    · exact ⟨[0, 4, 0], by decide, rfl⟩
  | mixed hi hj hcd hw =>
    rcases htwo hi with rfl | rfl <;> rcases htwo hj with rfl | rfl
    · exact absurd (hw.symm.trans (hsame [4, 0, 0] (by decide) _ hcd)) nofun
    · obtain rfl := opposed_odds hcd (.inl hw)
      exact ⟨[2, 2, 0], by decide, opposed_mix.1⟩
    · obtain rfl := opposed_odds hcd (.inr hw)
      exact ⟨[2, 2, 0], by decide, opposed_mix.2⟩
    · exact absurd (hw.symm.trans (hsame [0, 4, 0] (by decide) _ hcd)) nofun

theorem opposed_exact : TiesExact opposed := by
  have hties : ∀ {x y : EReal}, (∃ m : Nat, m ≤ 4 ∧ x = (((m : ℝ) / 4 : ℝ) : EReal)) →
      (∃ m : Nat, m ≤ 4 ∧ y = (((m : ℝ) / 4 : ℝ) : EReal)) → Scalar.close x y → x = y := by
    rintro _ _ ⟨m, hm, rfl⟩ ⟨n, hn, rfl⟩ hclose
    rw [close_quarters hm hn, decide_eq_true_eq] at hclose
    rw [hclose]
  have hspread : ∀ {p}, Compared opposed p →
      ∃ m : Nat, m ≤ 4 ∧ p.spread = (((m : ℝ) / 4 : ℝ) : EReal) := fun hp => by
    obtain ⟨l, hl, rfl⟩ := compared_opposed hp
    simp only [List.mem_cons, List.not_mem_nil, or_false] at hl
    rcases hl with rfl | rfl | rfl <;> exact ⟨_, by decide, spread_quarters _ _ _⟩
  have hsum : ∀ {p}, Compared opposed p →
      ∃ m : Nat, m ≤ 4 ∧ Scalar.sum p = (((m : ℝ) / 4 : ℝ) : EReal) := fun hp => by
    obtain ⟨l, hl, rfl⟩ := compared_opposed hp
    refine ⟨4, le_rfl, ?_⟩
    simp only [List.mem_cons, List.not_mem_nil, or_false] at hl
    rcases hl with rfl | rfl | rfl
    · simp [quarters, Scalar.sum]
    · simp [quarters, Scalar.sum]
    · simp only [quarters, Scalar.sum, List.map_cons, List.map_nil, List.foldl_cons,
        List.foldl_nil, zero_add, ← EReal.coe_add]
      norm_num
  have hpayoff : ∀ {p}, Compared opposed p →
      ∀ k, ∃ m : Nat, m ≤ 4 ∧ p.getD k 0 = (((m : ℝ) / 4 : ℝ) : EReal) := fun hp k => by
    obtain ⟨l, hl, rfl⟩ := compared_opposed hp
    refine ⟨l.getD k 0, ?_, quarters_getD l k⟩
    simp only [List.mem_cons, List.not_mem_nil, or_false] at hl
    rcases hl with rfl | rfl | rfl <;> rcases k with _ | _ | _ | k <;> simp
  exact ⟨fun p q hp hq => hties (hspread hp) (hspread hq),
    fun p q hp hq => hties (hsum hp) (hsum hq),
    fun p q hp hq k => hties (hpayoff hp k) (hpayoff hq k)⟩

theorem opposed_undominated :
    0 < opposed.size ∧ (∀ p ∈ opposed, p.length = 3) ∧ (∀ p ∈ opposed, ∀ x ∈ p, IsPayoff x) ∧
      undominated (fairly.candidates none 0 opposed) opposed ≠ [] ∧ TiesExact opposed ∧
      ∃ p, fairly.select? none 0 opposed =
          some (EquilibriumChoice.mixed 0 1 ((1 / 2 : ℝ) : EReal), p) ∧
        ∀ k ∈ fairly.candidates none 0 opposed, ¬ Profile.dominates (opposed.getD k []) p := by
  have hcand : fairly.candidates none 0 opposed = [0, 1] := rfl
  have hbest : undominated [0, 1] opposed = [0, 1] := by
    have hrow : ∀ i, opposed.getD i [] =
        quarters ([[4, 0, 0], [0, 4, 0]].getD i []) := fun i => by
      rcases i with _ | _ | i <;> rfl
    have hsmall : ∀ i, ∀ m ∈ [[4, 0, 0], [0, 4, 0]].getD i [], m ≤ 4 := fun i => by
      rcases i with _ | _ | i <;> simp
    simp only [undominated, hrow, dominates_quarters (hsmall _) (hsmall _)]
    decide
  have hund : undominated (fairly.candidates none 0 opposed) opposed ≠ [] := by
    rw [hcand, hbest]
    simp
  have hlen : ∀ p ∈ opposed, p.length = 3 := by
    intro p hp
    simp only [opposed, List.mem_toArray, List.mem_cons, List.not_mem_nil, or_false] at hp
    rcases hp with rfl | rfl <;> rfl
  have hpay : ∀ p ∈ opposed, ∀ x ∈ p, IsPayoff x := by
    intro p hp x hx
    simp only [opposed, List.mem_toArray, List.mem_cons, List.not_mem_nil, or_false] at hp
    have hquarter : ∀ l, x ∈ quarters l → IsPayoff x := fun l hx => by
      obtain ⟨m, -, rfl⟩ := List.mem_map.mp hx
      exact ⟨(m : ℝ) / 4, by positivity, rfl⟩
    rcases hp with rfl | rfl <;> exact hquarter _ hx
  have hcloser : Profile.fairBetter (quarters [2, 2, 0]) (quarters [4, 0, 0]) = true :=
    quarters_fairer (by decide) (by decide)
  have hcoin : fairly.select? none 0 opposed =
      some (EquilibriumChoice.mixed 0 1 ((1 / 2 : ℝ) : EReal), quarters [2, 2, 0]) := by
    rw [select?, eligible_eq hund, hcand, hbest]
    simp [fairly, mixes, pairs, opposed, opposed_fairest, improve, Profile.better, opposed_even,
      hcloser]
  obtain ⟨choice, p, hselect, -, -, hthird⟩ :=
    selection_undominated fairly none 0 (by decide) hlen hpay hund
  obtain ⟨rfl, rfl⟩ := Prod.mk.inj (Option.some.inj (hselect.symm.trans hcoin))
  refine ⟨by decide, hlen, hpay, hund, opposed_exact, _, hcoin, fun k hk hdom => ?_⟩
  obtain ⟨h₀, h₁, -⟩ := hthird opposed_exact 0 1 _ rfl k hk hdom
  rw [hcand] at hk
  simp only [List.mem_cons, List.not_mem_nil, or_false] at hk
  exact hk.elim h₀ h₁

/-- The fair coin is fairer than the compromise, and worse for both coalitions. -/
theorem compromise_dominates_coin :
    fairly.candidates none 0 compromise = [0, 1, 2] ∧
      undominated [0, 1, 2] compromise = [0, 1, 2] ∧
      fairly.select? none 0 compromise =
        some (EquilibriumChoice.mixed 0 1 ((1 / 2 : ℝ) : EReal), quarters [2, 2, 0]) ∧
      Profile.dominates (compromise.getD 2 []) (quarters [2, 2, 0]) := by
  have hcand : fairly.candidates none 0 compromise = [0, 1, 2] := rfl
  have hbest : undominated [0, 1, 2] compromise = [0, 1, 2] := by
    have hrow : ∀ i, compromise.getD i [] =
        quarters ([[4, 0, 0], [0, 4, 0], [3, 3, 0]].getD i []) := fun i => by
      rcases i with _ | _ | _ | i <;> rfl
    have hsmall : ∀ i, ∀ m ∈ [[4, 0, 0], [0, 4, 0], [3, 3, 0]].getD i [], m ≤ 4 := fun i => by
      rcases i with _ | _ | _ | i <;> simp
    simp only [undominated, hrow, dominates_quarters (hsmall _) (hsmall _)]
    decide
  have heligible : fairly.eligible none 0 compromise = [0, 1, 2] := by
    rw [eligible_eq (by rw [hcand, hbest]; simp), hcand, hbest]
  have hnone : ∀ l ∈ ([[4, 0, 0], [0, 4, 0]] : List (List Nat)),
      Profile.fairestMixture? (quarters l) (quarters [3, 3, 0]) = none := by
    have haside : ∀ l ∈ ([[4, 0, 0], [0, 4, 0]] : List (List Nat)), l.length = 3 ∧
        ∀ x ∈ Profile.positionPairs 3, (0 : Int) ≤ ((l.getD x.1 0 : Int) - l.getD x.2 0) *
          ((([3, 3, 0] : List Nat).getD x.1 0 : Int) - ([3, 3, 0] : List Nat).getD x.2 0) := by
      decide
    intro l hl
    obtain ⟨hlen, haside⟩ := haside l hl
    refine Profile.fairestMixture?_none fun x hx => quarters_aside (haside x ?_)
    rwa [quarters, List.length_map, hlen] at hx
  have h₀ := hnone [4, 0, 0] (by simp)
  have h₁ := hnone [0, 4, 0] (by simp)
  have hcloser : Profile.fairBetter (quarters [3, 3, 0]) (quarters [4, 0, 0]) = true :=
    quarters_fairer (by decide) (by decide)
  have hclosest : Profile.fairBetter (quarters [2, 2, 0]) (quarters [3, 3, 0]) = true :=
    quarters_fairer (by decide) (by decide)
  refine ⟨hcand, hbest, ?_, ?_⟩
  · rw [select?, heligible]
    simp [fairly, mixes, pairs, compromise, opposed_fairest, h₀, h₁, improve, Profile.better,
      opposed_even, hcloser, hclosest]
  · exact (dominates_quarters (by decide) (by decide)).trans (by decide)

end Compromise

end Selector

end StochasticGames.Analysis
