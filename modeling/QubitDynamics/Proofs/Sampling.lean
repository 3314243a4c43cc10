import Mathlib.Algebra.Order.BigOperators.Group.List
import Mathlib.Algebra.Order.Field.Basic
import Mathlib.Order.Interval.Set.Basic
import QubitDynamics.Proofs.ExactScalar
import QubitDynamics.Register.State

/-! Measurement outcomes. The uniform number picks the outcome on whose share of
the running sums it falls, so an outcome is as frequent as it is probable, and one
of probability zero is never picked. Beyond the total no share is left and the
last outcome is taken, be it possible or not: in a state that is normalised up to
rounding and ends in an impossible outcome, this outcome can be measured. -/

namespace QubitDynamics

/-! ### Running sums -/

section RunningSums

variable {R : Type} [AddCommMonoid R] [LinearOrder R] {r : R} {chances : List R}

theorem le_of_firstAbove_eq_some {sum : R} {i j : ℕ} (h : firstAbove r sum i chances = some j) : i ≤ j := by
  induction chances generalizing sum i with
  | nil => simp [firstAbove] at h
  | cons p chances ih =>
    rw [firstAbove] at h
    split at h
    · exact (Option.some.inj h).le
    · exact (Nat.le_succ i).trans (ih h)

variable [IsOrderedAddMonoid R]

theorem sum_take_nonneg (hnn : ∀ p ∈ chances, 0 ≤ p) (k : ℕ) : 0 ≤ (chances.take k).sum :=
  List.sum_nonneg fun p hp => hnn p (List.mem_of_mem_take hp)

/-- The search stops at the index whose share of the running sums holds `r`. -/
theorem firstAbove_eq_some_iff (hnn : ∀ p ∈ chances, 0 ≤ p) {sum : R} (hsum : sum ≤ r) (i k : ℕ) :
    firstAbove r sum i chances = some (i + k) ↔
      sum + (chances.take k).sum ≤ r ∧ r < sum + (chances.take (k + 1)).sum := by
  induction chances generalizing sum i k with
  | nil => simp [firstAbove]
  | cons p chances ih =>
    have hnn' : ∀ p ∈ chances, 0 ≤ p := fun p' hp' => hnn p' (List.mem_cons_of_mem p hp')
    rw [firstAbove]
    by_cases hp : r < sum + p
    · rw [if_pos hp]
      cases k with
      | zero => simp [hsum, hp]
      | succ k =>
        -- the running sum only grows, so no later share holds `r`
        have hgrow : sum + p ≤ sum + (p + (chances.take k).sum) :=
          add_le_add_right (le_add_of_nonneg_right (sum_take_nonneg hnn' k)) sum
        simp [(hp.trans_le hgrow).not_ge]
    · rw [if_neg hp]
      cases k with
      | zero =>
        have hlater : firstAbove r (sum + p) (i + 1) chances ≠ some i := fun h =>
          (le_of_firstAbove_eq_some h).not_gt (Nat.lt_succ_self i)
        simp [hlater, hp]
      | succ k =>
        rw [show i + (k + 1) = i + 1 + k by omega, ih hnn' (not_lt.1 hp)]
        simp [add_assoc]

theorem firstAbove_eq_none_iff (hnn : ∀ p ∈ chances, 0 ≤ p) {sum : R} (hsum : sum ≤ r) (i : ℕ) :
    firstAbove r sum i chances = none ↔ sum + chances.sum ≤ r := by
  induction chances generalizing sum i with
  | nil => simp [firstAbove, hsum]
  | cons p chances ih =>
    have hnn' : ∀ p ∈ chances, 0 ≤ p := fun p' hp' => hnn p' (List.mem_cons_of_mem p hp')
    rw [firstAbove, List.sum_cons, ← add_assoc]
    by_cases hp : r < sum + p
    · have hgrow : sum + p ≤ sum + p + chances.sum := le_add_of_nonneg_right (List.sum_nonneg hnn')
      simp [hp, (hp.trans_le hgrow).not_ge]
    · rw [if_neg hp, ih hnn' (not_lt.1 hp)]

theorem outcome_eq_iff (hnn : ∀ p ∈ chances, 0 ≤ p) (h0 : 0 ≤ r) (hr : r < chances.sum) (i : ℕ) :
    outcome chances r = i ↔ (chances.take i).sum ≤ r ∧ r < (chances.take (i + 1)).sum := by
  have hsome := firstAbove_eq_some_iff hnn h0 0 i
  simp only [zero_add] at hsome
  rw [← hsome, outcome]
  cases h : firstAbove r 0 0 chances with
  | none =>
    have hle := (firstAbove_eq_none_iff hnn h0 0).1 h
    rw [zero_add] at hle
    exact absurd hr hle.not_gt
  | some j => simp

theorem outcome_of_sum_le (hnn : ∀ p ∈ chances, 0 ≤ p) (h0 : 0 ≤ r) (hr : chances.sum ≤ r) :
    outcome chances r = chances.length - 1 := by
  rw [outcome, (firstAbove_eq_none_iff hnn h0 0).2 (by rwa [zero_add])]
  rfl

end RunningSums

namespace State

section Outcomes

variable {K R : Type} [Zero K] [Field R] [LinearOrder R] [IsStrictOrderedRing R] [ComplexScalar K R] {s : State K} {r : R}

/-- The number of outcomes: the dimension of a vector, and the length of the diagonal of a density matrix. -/
def outcomes : State K → ℕ
  | vector v => v.size
  | density m => min m.rows m.cols

def chance (s : State K) (i : ℕ) : R := s.probabilities.getD i 0

/-- The probability that the outcome is below `i`. -/
def chanceBelow (s : State K) (i : ℕ) : R := (s.probabilities.take i).sum

omit [LinearOrder R] [IsStrictOrderedRing R] [Field R] in
theorem length_probabilities (s : State K) : (s.probabilities : List R).length = s.outcomes := by
  cases s <;> simp [probabilities, outcomes]

omit [LinearOrder R] [IsStrictOrderedRing R] in
theorem chanceBelow_succ (s : State K) (i : ℕ) : (s.chanceBelow (i + 1) : R) = s.chanceBelow i + s.chance i := by
  rw [chanceBelow, chanceBelow, chance, List.take_add_one, List.sum_append, List.getD_eq_getElem?_getD]
  cases s.probabilities[i]? <;> simp

omit [LinearOrder R] [IsStrictOrderedRing R] in
theorem chanceBelow_outcomes (s : State K) : (s.chanceBelow s.outcomes : R) = s.probabilities.sum := by
  rw [chanceBelow, ← length_probabilities s, List.take_length]

theorem sample_eq_iff (hnn : ∀ p ∈ s.probabilities, 0 ≤ p) (h0 : 0 ≤ r) (hr : r < s.chanceBelow s.outcomes) (i : ℕ) :
    s.sample r = i ↔ s.chanceBelow i ≤ r ∧ r < s.chanceBelow (i + 1) :=
  outcome_eq_iff hnn h0 (by rwa [← chanceBelow_outcomes]) i

theorem sample_of_le (hnn : ∀ p ∈ s.probabilities, 0 ≤ p) (h0 : 0 ≤ r) (hr : s.chanceBelow s.outcomes ≤ r) :
    s.sample r = s.outcomes - 1 := by
  rw [← length_probabilities s]
  exact outcome_of_sum_le hnn h0 (by rwa [← chanceBelow_outcomes])

/-- Below the total only possible outcomes are picked. -/
theorem chance_sample_pos (hnn : ∀ p ∈ s.probabilities, 0 ≤ p) (h0 : 0 ≤ r) (hr : r < s.chanceBelow s.outcomes) :
    0 < s.chance (s.sample r) := by
  obtain ⟨hle, hlt⟩ := (sample_eq_iff hnn h0 hr _).1 rfl
  rw [chanceBelow_succ] at hlt
  exact lt_add_iff_pos_right _ |>.1 (hle.trans_lt hlt)

omit [LinearOrder R] [IsStrictOrderedRing R] in
theorem lt_outcomes_of_chance_ne_zero {i : ℕ} (h : (s.chance i : R) ≠ 0) : i < s.outcomes := by
  by_contra hi
  refine h ?_
  rw [chance, List.getD_eq_getElem?_getD, List.getElem?_eq_none (by rwa [length_probabilities, ← not_lt])]
  rfl

theorem chanceBelow_mono (hnn : ∀ p ∈ s.probabilities, (0 : R) ≤ p) {i j : ℕ} (hij : i ≤ j) :
    s.chanceBelow i ≤ (s.chanceBelow j : R) := by
  induction j, hij using Nat.le_induction with
  | base => exact le_rfl
  | succ j _ ih =>
    have hj : (0 : R) ≤ s.chance j := by
      rw [chance, List.getD_eq_getElem?_getD]
      cases h : (s.probabilities : List R)[j]? with
      | none => exact le_rfl
      | some p => exact hnn p (List.mem_of_getElem? h)
    rw [chanceBelow_succ]
    exact ih.trans (le_add_of_nonneg_right hj)

/-- Below the total, the uniform number picks the one outcome on whose share it falls, and an
impossible outcome is never picked. In a normalised state the numbers that pick an outcome form
a half-open interval as long as the outcome is probable. From the total on, the last outcome is
taken. -/
theorem sample_shares (s : State K) (hs : s.outcomes ≠ 0) (hnn : ∀ p ∈ s.probabilities, (0 : R) ≤ p) :
    (∀ r ∈ Set.Ico (0 : R) 1, r < s.probabilities.sum →
      (∀ i, s.sample r = i ↔ s.chanceBelow i ≤ r ∧ r < s.chanceBelow (i + 1)) ∧
        s.sample r < s.outcomes ∧ 0 < s.chance (s.sample r)) ∧
      (s.probabilities.sum = (1 : R) → ∀ i < s.outcomes,
        {r ∈ Set.Ico (0 : R) 1 | s.sample r = i} = Set.Ico (s.chanceBelow i) (s.chanceBelow (i + 1)) ∧
          s.chanceBelow (i + 1) - s.chanceBelow i = (s.chance i : R)) ∧
      ∀ r ∈ Set.Ico (0 : R) 1, s.probabilities.sum ≤ r → s.sample r + 1 = s.outcomes := by
  rw [← chanceBelow_outcomes]
  refine ⟨fun r hr hlt => ?_, fun htotal i hi => ⟨?_, ?_⟩, fun r hr hle => ?_⟩
  · have hpos := chance_sample_pos hnn hr.1 hlt
    exact ⟨sample_eq_iff hnn hr.1 hlt, lt_outcomes_of_chance_ne_zero hpos.ne', hpos⟩
  · have hlow : (0 : R) ≤ s.chanceBelow i := chanceBelow_mono hnn (Nat.zero_le i)
    have hhigh : s.chanceBelow (i + 1) ≤ (1 : R) := htotal ▸ chanceBelow_mono hnn hi
    ext r
    constructor
    · rintro ⟨hr, hsample⟩
      exact (sample_eq_iff hnn hr.1 (by rw [htotal]; exact hr.2) i).1 hsample
    · intro hr
      have hr' : r ∈ Set.Ico (0 : R) 1 := ⟨hlow.trans hr.1, hr.2.trans_le hhigh⟩
      exact ⟨hr', (sample_eq_iff hnn hr'.1 (by rw [htotal]; exact hr'.2) i).2 hr⟩
  · rw [chanceBelow_succ, add_sub_cancel_left]
  · rw [sample_of_le hnn hr.1 hle]
    omega

/-- A normalised vector with an impossible outcome in the middle. -/
theorem sample_shares_gap :
    let s : State ℂ := .vector #[3 / 5, 0, 4 / 5 * Complex.I]
    (∀ p ∈ s.probabilities, (0 : ℝ) ≤ p) ∧ s.probabilities.sum = (1 : ℝ) ∧
      {r ∈ Set.Ico (0 : ℝ) 1 | s.sample r = 0} = Set.Ico 0 (9 / 25) ∧
      {r ∈ Set.Ico (0 : ℝ) 1 | s.sample r = 1} = ∅ ∧
      {r ∈ Set.Ico (0 : ℝ) 1 | s.sample r = 2} = Set.Ico (9 / 25) 1 := by
  intro s
  have hp : (s.probabilities : List ℝ) = [9 / 25, 0, 16 / 25] := by
    norm_num [s, probabilities, ComplexScalar.normSq]
  have hnn : ∀ p ∈ s.probabilities, (0 : ℝ) ≤ p := by
    rw [hp]
    norm_num
  have htotal : s.probabilities.sum = (1 : ℝ) := by
    rw [hp]
    norm_num
  have hshare := (sample_shares s (by decide) hnn).2.1 htotal
  refine ⟨hnn, htotal, (hshare 0 (by decide)).1.trans ?_, (hshare 1 (by decide)).1.trans ?_,
    (hshare 2 (by decide)).1.trans ?_⟩ <;> norm_num [chanceBelow, hp]

/-- Which uniform numbers pick a possible outcome, and in which states all of them do: those
below the total, and in states whose last outcome is possible also the others. -/
theorem sample_possible_iff (s : State K) (hnn : ∀ p ∈ s.probabilities, (0 : R) ≤ p) :
    (∀ r ∈ Set.Ico (0 : R) 1,
      0 < (s.chance (s.sample r) : R) ↔ r < s.probabilities.sum ∨ 0 < (s.chance (s.outcomes - 1) : R)) ∧
      ((∀ r ∈ Set.Ico (0 : R) 1, 0 < (s.chance (s.sample r) : R)) ↔
        1 ≤ (s.probabilities.sum : R) ∨ 0 < (s.chance (s.outcomes - 1) : R)) := by
  rw [← chanceBelow_outcomes]
  have hpoint (r : R) (hr : r ∈ Set.Ico (0 : R) 1) :
      0 < (s.chance (s.sample r) : R) ↔ r < s.chanceBelow s.outcomes ∨ 0 < (s.chance (s.outcomes - 1) : R) := by
    by_cases hlt : r < s.chanceBelow s.outcomes
    · exact iff_of_true (chance_sample_pos hnn hr.1 hlt) (.inl hlt)
    · rw [sample_of_le hnn hr.1 (not_lt.1 hlt), or_iff_right hlt]
  refine ⟨hpoint, fun hall => ?_, fun h r hr => ?_⟩
  · by_contra! hno
    -- the total itself is the least number that falls through
    have htotal : s.chanceBelow s.outcomes ∈ Set.Ico (0 : R) 1 := ⟨chanceBelow_mono hnn (Nat.zero_le _), hno.1⟩
    exact ((hpoint _ htotal).1 (hall _ htotal)).elim (lt_irrefl _) hno.2.not_gt
  · exact (hpoint r hr).2 (h.imp_left hr.2.trans_le)

end Outcomes

/-- A density matrix of trace three quarters whose last outcome is possible. -/
theorem sample_possible_iff_lossy :
    let s : State ℂ := .density (.ofFn 2 2 fun r c => if r = c then (r + 1) / 4 else Complex.I)
    (∀ p ∈ s.probabilities, (0 : ℝ) ≤ p) ∧ ∀ r ∈ Set.Ico (0 : ℝ) 1, 0 < (s.chance (s.sample r) : ℝ) := by
  intro s
  have hp : (s.probabilities : List ℝ) = [1 / 4, 1 / 2] := by
    norm_num [s, probabilities, ComplexScalar.re, List.range_succ, Mat.entry_ofFn]
  have hnn : ∀ p ∈ s.probabilities, (0 : ℝ) ≤ p := by
    rw [hp]
    norm_num
  refine ⟨hnn, (sample_possible_iff s hnn).2.2 (.inr ?_)⟩
  norm_num [chance, hp, s, outcomes]

/-- A vector that falls short of norm one by a rounding error, as two Hadamard gates leave it of
the zero state: the largest uniform number of fifty-three bits picks the impossible outcome. -/
theorem sample_impossible :
    let s : State ℂ := .vector #[((1 - 1 / 2 ^ 52 : ℝ) : ℂ), 0]
    let r : ℝ := 1 - 1 / 2 ^ 53
    (∀ p ∈ s.probabilities, (0 : ℝ) ≤ p) ∧ 0 < (s.chance 0 : ℝ) ∧ r ∈ Set.Ico (0 : ℝ) 1 ∧
      s.sample r = 1 ∧ s.chance (s.sample r) = (0 : ℝ) := by
  intro s r
  have hp : (s.probabilities : List ℝ) = [(1 - 1 / 2 ^ 52) * (1 - 1 / 2 ^ 52), 0] := by
    simp only [s, probabilities, ComplexScalar.normSq, List.map_cons, List.map_nil, Complex.normSq_ofReal,
      Complex.normSq_zero]
  have hsample : s.sample r = 1 := by
    norm_num [sample, hp, outcome, firstAbove, r]
  refine ⟨?_, ?_, ?_, hsample, ?_⟩
  · rw [hp]
    norm_num
  · norm_num [chance, hp]
  · norm_num [r]
  · rw [hsample, chance, hp]
    rfl

end State

end QubitDynamics
