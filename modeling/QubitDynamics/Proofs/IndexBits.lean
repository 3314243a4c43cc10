import Mathlib.Algebra.Group.Nat.Defs
import Mathlib.Data.List.Perm.Basic
import QubitDynamics.Register.Index

/-! The bits of basis indices, qubit by qubit. Splitting an index into the
sub-index of some targets and the remaining spectators, and filling a sub-index
back in, are described by the bit of every qubit; an index is determined by these
bits, so each law about splitting and filling follows by comparing them.

Indices are exact here: a shift by any amount is a multiplication by a power of
two. The last section says that words are exact on registers of fewer than
sixty-four qubits, which is the only place where the width of a word matters. -/

namespace QubitDynamics.Register

/-- The bit of an index of `n` qubits that belongs to qubit `q`. -/
def place (n q : ℕ) : ℕ := n - 1 - q

/-- The bits of the targets in `index`, read as a number. -/
def subIndex (n : ℕ) : List ℕ → ℕ → ℕ
  | [], _ => 0
  | q :: targets, index => (index.testBit (place n q)).toNat * 2 ^ targets.length + subIndex n targets index

/-- The index that has the bits of `sub` at the targets and zeros elsewhere. -/
def offset (n : ℕ) : List ℕ → ℕ → ℕ
  | [], _ => 0
  | q :: targets, sub => (if sub.testBit targets.length then 2 ^ place n q else 0) ||| offset n targets sub

/-- The index with ones exactly at the targets. -/
def targetMask (n : ℕ) : List ℕ → ℕ
  | [] => 0
  | q :: targets => 2 ^ place n q ||| targetMask n targets

/-- The index with the bits of the targets cleared. -/
def spectators (n : ℕ) (targets : List ℕ) (index : ℕ) : ℕ :=
  (index ||| targetMask n targets) ^^^ targetMask n targets

variable {n : ℕ} {targets : List ℕ}

/-- The bit of qubit `q` in an index of `n` qubits. -/
def bit (n index q : ℕ) : Bool := index.testBit (place n q)

theorem eq_of_bit_eq {i j : ℕ} (hi : i < 2 ^ n) (hj : j < 2 ^ n) (h : ∀ q < n, bit n i q = bit n j q) :
    i = j := by
  apply Nat.eq_of_testBit_eq
  intro k
  by_cases hk : k < n
  · have hq := h (n - 1 - k) (by omega)
    simpa only [bit, place, show n - 1 - (n - 1 - k) = k by omega] using hq
  · have hpow : 2 ^ n ≤ 2 ^ k := Nat.pow_le_pow_right (by omega) (by omega)
    rw [Nat.testBit_lt_two_pow (by omega), Nat.testBit_lt_two_pow (by omega)]

theorem place_inj {q p : ℕ} (hq : q < n) (hp : p < n) : place n q = place n p ↔ q = p := by
  unfold place
  omega

theorem place_lt {q : ℕ} (hq : q < n) : place n q < n := by
  unfold place
  omega

/-- Targets that an operator on a register of `n` qubits can have. -/
structure Targets (n : ℕ) (targets : List ℕ) : Prop where
  lt : ∀ q ∈ targets, q < n
  nodup : targets.Nodup

theorem Targets.of_cons {q : ℕ} (h : Targets n (q :: targets)) : Targets n targets :=
  ⟨fun p hp => h.lt p (List.mem_cons_of_mem q hp), h.nodup.of_cons⟩

theorem Targets.getElem_lt (h : Targets n targets) {p : ℕ} (hp : p < targets.length) : targets[p] < n :=
  h.lt _ (List.getElem_mem hp)

/-! ### Sub-indices -/

theorem subIndex_cons (n q : ℕ) (targets : List ℕ) (i : ℕ) :
    subIndex n (q :: targets) i = (bit n i q).toNat * 2 ^ targets.length + subIndex n targets i := rfl

theorem subIndex_lt (n : ℕ) (targets : List ℕ) (i : ℕ) : subIndex n targets i < 2 ^ targets.length := by
  induction targets with
  | nil => simp [subIndex]
  | cons q targets ih =>
    have hb : (bit n i q).toNat ≤ 1 := Bool.toNat_le _
    have := Nat.mul_le_mul_right (2 ^ targets.length) hb
    rw [subIndex_cons, List.length_cons, Nat.pow_succ]
    omega

/-- Bit `p` of a sub-index is the bit of target `p`. -/
theorem bit_subIndex (n : ℕ) (targets : List ℕ) (i : ℕ) {p : ℕ} (hp : p < targets.length) :
    bit targets.length (subIndex n targets i) p = bit n i targets[p] := by
  induction targets generalizing p with
  | nil => simp at hp
  | cons q targets ih =>
    have hs := subIndex_lt n targets i
    rw [List.length_cons] at hp
    simp only [bit, place, subIndex_cons, List.length_cons]
    rw [Nat.mul_comm, Nat.testBit_two_pow_mul_add _ hs]
    cases p with
    | zero => cases h : i.testBit (n - 1 - q) <;> simp [h]
    | succ p =>
      have hp' : p < targets.length := by omega
      rw [if_pos (by omega)]
      simpa only [bit, place, List.getElem_cons_succ,
        show targets.length + 1 - 1 - (p + 1) = targets.length - 1 - p by omega] using ih hp'

/-! ### Spectators -/

theorem targetMask_cons (n q : ℕ) (targets : List ℕ) :
    targetMask n (q :: targets) = 2 ^ place n q ||| targetMask n targets := rfl

theorem bit_targetMask (ht : ∀ q ∈ targets, q < n) {q : ℕ} (hq : q < n) :
    bit n (targetMask n targets) q = decide (q ∈ targets) := by
  induction targets with
  | nil => simp [bit, targetMask]
  | cons p targets ih =>
    have hp : p < n := ht p List.mem_cons_self
    have hrest := ih fun q hq => ht q (List.mem_cons_of_mem p hq)
    simp only [bit] at hrest
    simp [bit, targetMask_cons, Nat.testBit_two_pow, hrest, place_inj hp hq, eq_comm]

theorem targetMask_lt (ht : ∀ q ∈ targets, q < n) : targetMask n targets < 2 ^ n := by
  induction targets with
  | nil => exact Nat.two_pow_pos n
  | cons p targets ih =>
    have hp := place_lt (ht p List.mem_cons_self)
    exact Nat.or_lt_two_pow (Nat.pow_lt_pow_right (by omega) hp)
      (ih fun q hq => ht q (List.mem_cons_of_mem p hq))

theorem spectators_lt (ht : ∀ q ∈ targets, q < n) {i : ℕ} (hi : i < 2 ^ n) :
    spectators n targets i < 2 ^ n :=
  Nat.xor_lt_two_pow (Nat.or_lt_two_pow hi (targetMask_lt ht)) (targetMask_lt ht)

theorem bit_spectators (ht : ∀ q ∈ targets, q < n) (i : ℕ) {q : ℕ} (hq : q < n) :
    bit n (spectators n targets i) q = (bit n i q && decide (q ∉ targets)) := by
  have hm := bit_targetMask ht hq
  simp only [bit] at hm
  simp only [bit, spectators, Nat.testBit_xor, Nat.testBit_or, hm]
  by_cases h : q ∈ targets <;> simp [h]

/-- Two indices have the same spectators when they agree at every qubit that is no target. -/
theorem spectators_eq_iff (ht : ∀ q ∈ targets, q < n) {i j : ℕ} (hi : i < 2 ^ n) (hj : j < 2 ^ n) :
    spectators n targets i = spectators n targets j ↔
      ∀ q < n, q ∉ targets → bit n i q = bit n j q := by
  constructor
  · intro h q hq hqt
    have hb := congrArg (fun k => bit n k q) h
    simpa [bit_spectators ht _ hq, hqt] using hb
  · intro h
    refine eq_of_bit_eq (spectators_lt ht hi) (spectators_lt ht hj) fun q hq => ?_
    rw [bit_spectators ht _ hq, bit_spectators ht _ hq]
    by_cases hqt : q ∈ targets
    · simp [hqt]
    · rw [h q hq hqt]

/-- An index without a bit at the targets is its own base. -/
theorem and_targetMask_eq_zero_iff (ht : ∀ q ∈ targets, q < n) {i : ℕ} (hi : i < 2 ^ n) :
    i &&& targetMask n targets = 0 ↔ spectators n targets i = i := by
  constructor
  · intro h
    refine eq_of_bit_eq (spectators_lt ht hi) hi fun q hq => ?_
    have hb := congrArg (fun k => bit n k q) h
    have hm := bit_targetMask ht hq
    simp only [bit, Nat.testBit_and, Nat.zero_testBit] at hb hm
    rw [bit_spectators ht i hq]
    rw [hm] at hb
    by_cases hqt : q ∈ targets <;> simp_all [bit]
  · intro h
    refine eq_of_bit_eq (Nat.and_lt_two_pow i (targetMask_lt ht)) (Nat.two_pow_pos n) fun q hq => ?_
    have hb := congrArg (fun k => bit n k q) h
    have hm := bit_targetMask ht hq
    simp only [bit_spectators ht i hq] at hb
    simp only [bit] at hb hm
    simp only [bit, Nat.testBit_and, hm, Nat.zero_testBit]
    by_cases hqt : q ∈ targets <;> simp_all

/-! ### Filling in a sub-index -/

theorem offset_cons (n q : ℕ) (targets : List ℕ) (s : ℕ) :
    offset n (q :: targets) s = (if s.testBit targets.length then 2 ^ place n q else 0) ||| offset n targets s := rfl

theorem offset_lt (ht : ∀ q ∈ targets, q < n) (s : ℕ) : offset n targets s < 2 ^ n := by
  induction targets with
  | nil => exact Nat.two_pow_pos n
  | cons p targets ih =>
    have hp := place_lt (ht p List.mem_cons_self)
    rw [offset_cons]
    refine Nat.or_lt_two_pow ?_ (ih fun q hq => ht q (List.mem_cons_of_mem p hq))
    split
    · exact Nat.pow_lt_pow_right (by omega) hp
    · exact Nat.two_pow_pos n

theorem bit_offset_of_notMem (ht : ∀ q ∈ targets, q < n) (s : ℕ) {q : ℕ} (hq : q < n)
    (h : q ∉ targets) : bit n (offset n targets s) q = false := by
  induction targets with
  | nil => simp [bit, offset]
  | cons p targets ih =>
    rw [List.mem_cons, not_or] at h
    have hp : p < n := ht p List.mem_cons_self
    have hrest := ih (fun q hq => ht q (List.mem_cons_of_mem p hq)) h.2
    have hne : place n p ≠ place n q := fun e => h.1 ((place_inj hp hq).1 e).symm
    simp only [bit] at hrest
    simp only [bit, offset_cons, Nat.testBit_or, hrest, Bool.or_false]
    split <;> simp [hne]

theorem bit_offset_getElem (ht : Targets n targets) (s : ℕ) {p : ℕ} (hp : p < targets.length) :
    bit n (offset n targets s) targets[p] = bit targets.length s p := by
  induction targets generalizing p with
  | nil => simp at hp
  | cons q targets ih =>
    have hq : q < n := ht.lt q List.mem_cons_self
    have hnd := List.nodup_cons.1 ht.nodup
    cases p with
    | zero =>
      have hrest := bit_offset_of_notMem ht.of_cons.lt s hq hnd.1
      simp only [bit] at hrest
      simp only [bit, offset_cons, List.getElem_cons_zero, Nat.testBit_or, hrest, Bool.or_false]
      simp only [place, List.length_cons, Nat.add_sub_cancel, Nat.sub_zero]
      split <;> rename_i h <;> simp [h]
    | succ p =>
      have hp' : p < targets.length := by simpa using hp
      have hrest := ih ht.of_cons hp'
      have hne : place n q ≠ place n targets[p] := fun e =>
        hnd.1 ((place_inj hq (ht.of_cons.getElem_lt hp')).1 e ▸ List.getElem_mem hp')
      have hplace : place (targets.length + 1) (p + 1) = place targets.length p := by
        unfold place
        omega
      simp only [bit] at hrest
      simp only [bit, offset_cons, List.getElem_cons_succ, List.length_cons, Nat.testBit_or, hplace, ← hrest]
      split <;> simp [hne]

/-- The index with the spectators of `i` and the bits of `s` at the targets. -/
def fill (n : ℕ) (targets : List ℕ) (i s : ℕ) : ℕ := spectators n targets i ||| offset n targets s

theorem fill_lt (ht : Targets n targets) {i : ℕ} (hi : i < 2 ^ n) (s : ℕ) : fill n targets i s < 2 ^ n :=
  Nat.or_lt_two_pow (spectators_lt ht.lt hi) (offset_lt ht.lt s)

theorem bit_fill_of_notMem (ht : Targets n targets) (i s : ℕ) {q : ℕ} (hq : q < n) (h : q ∉ targets) :
    bit n (fill n targets i s) q = bit n i q := by
  have ho := bit_offset_of_notMem ht.lt s hq h
  have hs := bit_spectators ht.lt i hq
  simp only [bit] at ho hs
  simp [bit, fill, ho, hs, h]

theorem bit_fill_getElem (ht : Targets n targets) (i s : ℕ) {p : ℕ} (hp : p < targets.length) :
    bit n (fill n targets i s) targets[p] = bit targets.length s p := by
  have ho := bit_offset_getElem ht s hp
  have hs := bit_spectators ht.lt i (ht.getElem_lt hp)
  simp only [bit] at ho hs
  simp [bit, fill, ho, hs, List.getElem_mem hp]

theorem subIndex_fill (ht : Targets n targets) (i : ℕ) {s : ℕ} (hs : s < 2 ^ targets.length) :
    subIndex n targets (fill n targets i s) = s := by
  refine eq_of_bit_eq (subIndex_lt n targets _) hs fun p hp => ?_
  rw [bit_subIndex n targets _ hp, bit_fill_getElem ht i s hp]

theorem spectators_fill (ht : Targets n targets) {i : ℕ} (hi : i < 2 ^ n) (s : ℕ) :
    spectators n targets (fill n targets i s) = spectators n targets i :=
  (spectators_eq_iff ht.lt (fill_lt ht hi s) hi).2 fun _ hq h => bit_fill_of_notMem ht i s hq h

/-- An index is recovered from any index with its spectators and from its own sub-index. -/
theorem fill_subIndex (ht : Targets n targets) {i j : ℕ} (hi : i < 2 ^ n) (hj : j < 2 ^ n)
    (h : spectators n targets i = spectators n targets j) :
    fill n targets i (subIndex n targets j) = j := by
  refine eq_of_bit_eq (fill_lt ht hi _) hj fun q hq => ?_
  by_cases hqt : q ∈ targets
  · obtain ⟨p, hp, rfl⟩ := List.getElem_of_mem hqt
    rw [bit_fill_getElem ht i _ hp, bit_subIndex n targets j hp]
  · rw [bit_fill_of_notMem ht i _ hq hqt]
    exact (spectators_eq_iff ht.lt hi hj).1 h q hq hqt

/-! ### Words -/

theorem Targets.length_le (ht : Targets n targets) : targets.length ≤ n := by
  have hsub : targets ⊆ List.range n := fun q hq => List.mem_range.2 (ht.lt q hq)
  simpa using (List.subperm_of_subset ht.nodup hsub).length_le

theorem dimension_eq (hn : n < 64) : dimension n = 2 ^ n := by
  rw [dimension, Word.power, Nat.mod_eq_of_lt hn]
  rfl

theorem power_place (hn : n ≤ 64) (q : ℕ) : Word.power (n - 1 - q) = 2 ^ place n q := by
  rw [Word.power, Nat.mod_eq_of_lt (by omega)]
  rfl

theorem testBit_place (hn : n ≤ 64) (i q : ℕ) : Word.testBit i (n - 1 - q) = bit n i q := by
  rw [Word.testBit, Nat.mod_eq_of_lt (by omega)]
  rfl

theorem mask_eq_targetMask (hn : n ≤ 64) (targets : List ℕ) : mask n targets = targetMask n targets := by
  induction targets with
  | nil => rfl
  | cons q targets ih => rw [mask, ih, power_place hn, targetMask]

theorem clear_eq_spectators (hn : n ≤ 64) (targets : List ℕ) (i : ℕ) : clear n targets i = spectators n targets i := by
  rw [clear, mask_eq_targetMask hn, spectators]

theorem scatter_eq_offset (hn : n ≤ 64) (hk : targets.length ≤ 64) (s : ℕ) :
    scatter n targets s = offset n targets s := by
  induction targets with
  | nil => rfl
  | cons q targets ih =>
    rw [List.length_cons] at hk
    rw [scatter, ih (by omega), power_place hn, Word.testBit, Nat.mod_eq_of_lt (by omega), offset]

/-- The bits that a sub-index is joined of do not overlap, so joining them adds them up. -/
theorem gather_eq_subIndex (hn : n ≤ 64) (hk : targets.length ≤ 64) (i : ℕ) :
    gather n targets i = subIndex n targets i := by
  induction targets with
  | nil => rfl
  | cons q targets ih =>
    rw [List.length_cons] at hk
    have hjoin := Nat.two_pow_add_eq_or_of_lt (subIndex_lt n targets i) (bit n i q).toNat
    rw [gather, ih (by omega), testBit_place hn, Word.power, Nat.mod_eq_of_lt (by omega), subIndex_cons, Nat.mul_comm,
      hjoin]
    cases bit n i q <;> simp

end QubitDynamics.Register
