import Mathlib.Data.Finset.Card
import QubitDynamics.Proofs.Embedding
import QubitDynamics.Term.Merge

/-! Widening the matrix of a child term to the qubits of its parent. The widened
matrix is read as a tensor with one axis of length two per bit of a row and of a
column index; permuting axes permutes these bits. The axes that bring a child
into the order of the parent send each child qubit to its position in the parent,
so that the widened matrix is the embedding of the child's matrix at these
positions. -/

namespace QubitDynamics

open Register

/-! ### Joining indices -/

namespace Register

/-- The bits of an index that is made of a high and a low part. -/
theorem bit_join {a b : ℕ} (x : ℕ) {y : ℕ} (hy : y < 2 ^ b) {q : ℕ} (hq : q < a + b) :
    bit (a + b) (x * 2 ^ b + y) q = if q < a then bit a x q else bit b y (q - a) := by
  simp only [bit, place]
  rw [Nat.mul_comm, Nat.testBit_two_pow_mul_add x hy]
  by_cases h : q < a
  · rw [if_neg (by omega), if_pos h, show a + b - 1 - q - b = a - 1 - q by omega]
  · rw [if_pos (by omega), if_neg h, show a + b - 1 - q = b - 1 - (q - a) by omega]

theorem bit_high {a b : ℕ} (i : ℕ) {q : ℕ} (hq : q < a) : bit a (i / 2 ^ b) q = bit (a + b) i q := by
  have h := bit_join (a := a) (i / 2 ^ b) (Nat.mod_lt i (Nat.two_pow_pos b)) (show q < a + b by omega)
  rw [if_pos hq, Nat.div_add_mod'] at h
  exact h.symm

theorem bit_low {a b : ℕ} (i : ℕ) {q : ℕ} (hq : q < b) : bit b (i % 2 ^ b) q = bit (a + b) i (a + q) := by
  have h := bit_join (a := a) (i / 2 ^ b) (Nat.mod_lt i (Nat.two_pow_pos b)) (show a + q < a + b by omega)
  rw [if_neg (by omega), Nat.div_add_mod', Nat.add_sub_cancel_left] at h
  exact h.symm

/-- As many distinct targets as the register has qubits are all its qubits. -/
theorem Targets.mem_of_length {n : ℕ} {targets : List ℕ} (h : Targets n targets) (hlen : targets.length = n)
    {q : ℕ} (hq : q < n) : q ∈ targets := by
  have hsub : targets.toFinset ⊆ Finset.range n := fun p hp =>
    Finset.mem_range.2 (h.lt p (List.mem_toFinset.1 hp))
  have hall := Finset.eq_of_subset_of_card_le hsub
    (by rw [List.toFinset_card_of_nodup h.nodup, hlen, Finset.card_range])
  exact List.mem_toFinset.1 (hall ▸ Finset.mem_range.2 hq)

end Register

/-! ### Permuting binary axes -/

namespace Tensor

variable {K : Type}

theorem volume_replicate_two (n : ℕ) : volume (List.replicate n 2) = 2 ^ n := List.prod_replicate n 2

theorem position_replicate_succ (n i : ℕ) :
    position (List.replicate (n + 1) 2) i = i / 2 ^ n :: position (List.replicate n 2) (i % 2 ^ n) := by
  rw [List.replicate_succ, position, volume_replicate_two]

theorem stride_replicate {n a : ℕ} (ha : a < n) :
    (strides (List.replicate n 2)).getD a 0 = 2 ^ place n a := by
  induction n generalizing a with
  | zero => omega
  | succ n ih =>
    rw [List.replicate_succ, strides, volume_replicate_two]
    cases a with
    | zero => simp [place]
    | succ a =>
      rw [List.getD_cons_succ, ih (by omega)]
      congr 1
      unfold place
      omega

/-- Setting a bit that is not set adds its value. -/
theorem two_pow_or_eq_add {a x : ℕ} (h : x.testBit a = false) : 2 ^ a ||| x = 2 ^ a + x := by
  have hlow : x % 2 ^ a < 2 ^ a := Nat.mod_lt x (Nat.two_pow_pos a)
  obtain ⟨k, hk⟩ : ∃ k, x / 2 ^ a = 2 * k := by
    rw [Nat.testBit_eq_decide_div_mod_eq, decide_eq_false_iff_not] at h
    exact ⟨x / 2 ^ a / 2, by omega⟩
  have hx : x = 2 ^ a * (2 * k) + x % 2 ^ a := by rw [← hk, Nat.div_add_mod]
  have hsum : 2 ^ a + x = 2 ^ a * (2 * k + 1) + x % 2 ^ a := by
    rw [Nat.mul_add, Nat.mul_one]
    omega
  apply Nat.eq_of_testBit_eq
  intro j
  rw [hsum, Nat.testBit_or, Nat.testBit_two_pow, Nat.testBit_two_pow_mul_add _ hlow]
  conv_lhs => rw [hx, Nat.testBit_two_pow_mul_add _ hlow]
  by_cases hj : j < a
  · have hne : a ≠ j := by omega
    simp [hj, hne]
  · rw [if_neg hj, if_neg hj]
    rcases Nat.eq_or_lt_of_le (Nat.not_lt.1 hj) with rfl | hlt
    · simp
    · obtain ⟨d, rfl⟩ : ∃ d, j = a + (d + 1) := ⟨j - a - 1, by omega⟩
      rw [Nat.add_sub_cancel_left, Nat.testBit_succ, Nat.testBit_succ]
      simp [show (2 * k + 1) / 2 = k by omega]

theorem offset_mod (n : ℕ) (targets : List ℕ) (s : ℕ) {k : ℕ} (hk : targets.length ≤ k) :
    offset n targets (s % 2 ^ k) = offset n targets s := by
  induction targets with
  | nil => rfl
  | cons q targets ih =>
    rw [List.length_cons] at hk
    rw [offset_cons, offset_cons, ih (by omega), Nat.testBit_mod_two_pow]
    simp [show targets.length < k by omega]

/-- The place in storage of the position that has the bits of `i` along the given axes. -/
theorem sum_position_eq_offset {n : ℕ} {axes : List ℕ} (ht : Targets n axes) {i : ℕ} (hi : i < 2 ^ axes.length) :
    (List.zipWith (· * ·) (position (List.replicate axes.length 2) i)
      (axes.map fun a => 2 ^ place n a)).foldr (· + ·) 0 = offset n axes i := by
  induction axes generalizing i with
  | nil => rfl
  | cons a axes ih =>
    have ha : a < n := ht.lt a List.mem_cons_self
    have hrest := bit_offset_of_notMem ht.of_cons.lt i ha (List.nodup_cons.1 ht.nodup).1
    have hmod : i % 2 ^ axes.length < 2 ^ axes.length := Nat.mod_lt i (Nat.two_pow_pos _)
    have hdiv : i / 2 ^ axes.length = (i.testBit axes.length).toNat := by
      rw [List.length_cons, Nat.pow_succ] at hi
      have : i / 2 ^ axes.length < 2 := Nat.div_lt_of_lt_mul (by omega)
      rw [Nat.toNat_testBit, Nat.mod_eq_of_lt this]
    rw [List.length_cons, position_replicate_succ, List.map_cons, List.zipWith_cons_cons, List.foldr_cons,
      ih ht.of_cons hmod, offset_mod n axes i le_rfl, hdiv, offset_cons]
    cases hbit : i.testBit axes.length with
    | false => simp
    | true => simpa using (two_pow_or_eq_add hrest).symm

/-- Permuting the axes of a tensor with `n` binary axes. -/
theorem permute?_replicate [Zero K] {n : ℕ} {t : Tensor K} (hshape : t.shape = List.replicate n 2) {axes : List ℕ}
    (ht : Targets n axes) (hlen : axes.length = n) :
    ∃ t', t.permute? axes = some t' ∧ t'.shape = List.replicate n 2 ∧
      ∀ i < 2 ^ n, t'.data.getD i 0 = t.data.getD (offset n axes i) 0 := by
  have hall : axes.length = t.shape.length ∧ (List.range t.shape.length).all (axes.contains ·) := by
    rw [hshape, List.length_replicate, List.all_eq_true]
    refine ⟨hlen, fun q hq => ?_⟩
    simpa using ht.mem_of_length hlen (List.mem_range.1 hq)
  have hdims : axes.map (t.shape.getD · 0) = List.replicate n 2 := by
    rw [hshape, ← hlen, ← List.map_const']
    refine List.map_congr_left fun a ha => ?_
    have := ht.lt a ha
    simp [List.getD_eq_getElem?_getD, hlen, this]
  have hsteps : axes.map ((strides t.shape).getD · 0) = axes.map fun a => 2 ^ place n a := by
    rw [hshape]
    exact List.map_congr_left fun a ha => stride_replicate (ht.lt a ha)
  refine ⟨_, if_pos hall, hdims, fun i hi => ?_⟩
  have hsum := sum_position_eq_offset ht (by rwa [hlen])
  rw [hlen] at hsum
  rw [Array.getD_eq_getD_getElem?, Array.getElem?_ofFn, dif_pos (by rwa [hdims, volume_replicate_two]),
    Option.getD_some]
  simp only [hdims, hsteps, hsum]

/-- A shape with room for as many entries as there are, and for at least one, can be taken. -/
theorem reshape?_eq_some {t : Tensor K} {shape : List ℕ} (h : volume t.shape = volume shape) (hpos : 0 < volume shape) :
    t.reshape? shape = some ⟨shape, t.data, t.size_eq.trans h⟩ := dif_pos ⟨h, fun hzero => by omega⟩

/-- A tensor with `2 n` binary axes as a matrix. -/
theorem toMat?_binary {n : ℕ} {t : Tensor K} (h : t.shape = List.replicate (n + n) 2) :
    ∃ m, (t.reshape? [2 ^ n, 2 ^ n]).bind toMat? = some m ∧ m.HasShape (2 ^ n) (2 ^ n) ∧ m.data = t.data := by
  have hvolume : volume t.shape = volume [2 ^ n, 2 ^ n] := by
    rw [h, volume_replicate_two, volume_pair, Nat.pow_add]
  have hpos : 0 < volume [2 ^ n, 2 ^ n] := by simp
  refine ⟨⟨2 ^ n, 2 ^ n, t.data, by rw [t.size_eq, hvolume, volume_pair]⟩, ?_, ⟨rfl, rfl⟩, rfl⟩
  rw [reshape?_eq_some hvolume hpos]
  rfl

end Tensor

namespace Mat.HasShape

variable {K : Type}

theorem getD_data [Zero K] {m : Mat K} {r c : ℕ} (h : m.HasShape r c) (i : ℕ) {j : ℕ} (hj : j < c) :
    m.data.getD (i * c + j) 0 = m.entry i j := by
  rw [entry, h.cols, if_pos hj]

/-- A matrix on `n` qubits as a tensor with `2 n` binary axes. -/
theorem reshape_binary {m : Mat K} {n : ℕ} (h : m.HasShape (2 ^ n) (2 ^ n)) :
    ∃ t, m.toTensor.reshape? (List.replicate (2 * n) 2) = some t ∧ t.shape = List.replicate (n + n) 2 ∧
      t.data = m.data := by
  have hvolume : volume m.toTensor.shape = volume (List.replicate (2 * n) 2) := by
    rw [Tensor.volume_replicate_two, Nat.two_mul, Nat.pow_add]
    simp [toTensor, h.rows, h.cols]
  have hpos : 0 < volume (List.replicate (2 * n) 2) := by simp [Tensor.volume_replicate_two]
  exact ⟨_, Tensor.reshape?_eq_some hvolume hpos, congrArg (List.replicate · 2) (Nat.two_mul n), rfl⟩

end Mat.HasShape

/-! ### The axes of a widened child -/

namespace Term

variable {K : Type} {child parent : List ℕ}

theorem idxOf?_of_mem {q : ℕ} (h : q ∈ child) : child.idxOf? q = some (child.idxOf q) := by
  induction child with
  | nil => simp at h
  | cons c child ih =>
    rw [List.idxOf?_cons, List.idxOf_cons]
    by_cases hc : c = q
    · simp [hc]
    · have hmem : q ∈ child := (List.mem_cons.1 h).resolve_left (Ne.symm hc)
      simp [hc, ih hmem, cond_eq_ite]

theorem axesFrom_cons_of_mem {q : ℕ} (h : q ∈ child) (next : ℕ) (parent : List ℕ) :
    axesFrom child next (q :: parent) = child.idxOf q :: axesFrom child next parent := by
  rw [axesFrom, idxOf?_of_mem h]

theorem axesFrom_cons_of_notMem {q : ℕ} (h : q ∉ child) (next : ℕ) (parent : List ℕ) :
    axesFrom child next (q :: parent) = next :: axesFrom child (next + 1) parent := by
  rw [axesFrom, List.idxOf?_eq_none_iff.2 h]

theorem length_axesFrom (child : List ℕ) (next : ℕ) (parent : List ℕ) :
    (axesFrom child next parent).length = parent.length := by
  induction parent generalizing next with
  | nil => rfl
  | cons q parent ih =>
    by_cases hq : q ∈ child
    · rw [axesFrom_cons_of_mem hq, List.length_cons, ih, List.length_cons]
    · rw [axesFrom_cons_of_notMem hq, List.length_cons, ih, List.length_cons]

/-- A child qubit keeps its axis, and another qubit gets one from `next` on. -/
theorem getElem_axesFrom (child : List ℕ) (next : ℕ) (parent : List ℕ) {p : ℕ} (hp : p < parent.length) :
    (parent[p] ∈ child → (axesFrom child next parent)[p]? = some (child.idxOf parent[p])) ∧
      (parent[p] ∉ child → ∃ a, next ≤ a ∧ (axesFrom child next parent)[p]? = some a) := by
  induction parent generalizing next p with
  | nil => simp at hp
  | cons q parent ih =>
    by_cases hq : q ∈ child
    · rw [axesFrom_cons_of_mem hq]
      cases p with
      | zero => simp [hq]
      | succ p => simpa using ih next (by simpa using hp)
    · rw [axesFrom_cons_of_notMem hq]
      cases p with
      | zero => simp [hq]
      | succ p =>
        obtain ⟨hin, hout⟩ := ih (next + 1) (show p < parent.length by simpa using hp)
        refine ⟨by simpa using hin, fun hmem => ?_⟩
        obtain ⟨a, ha, hget⟩ := hout (by simpa using hmem)
        exact ⟨a, by omega, by simpa using hget⟩

/-- An axis is that of a child qubit or one of the new ones. -/
theorem mem_axesFrom {next : ℕ} {x : ℕ} (h : x ∈ axesFrom child next parent) :
    (∃ q ∈ parent, q ∈ child ∧ child.idxOf q = x) ∨
      next ≤ x ∧ x < next + (parent.filter (· ∉ child)).length := by
  induction parent generalizing next with
  | nil => simp [axesFrom] at h
  | cons q parent ih =>
    by_cases hq : q ∈ child
    · rw [axesFrom_cons_of_mem hq, List.mem_cons] at h
      rw [List.filter_cons_of_neg (by simpa using hq)]
      rcases h with rfl | h
      · exact .inl ⟨q, List.mem_cons_self, hq, rfl⟩
      · rcases ih h with ⟨p, hp, hpc, rfl⟩ | hnew
        · exact .inl ⟨p, List.mem_cons_of_mem q hp, hpc, rfl⟩
        · exact .inr hnew
    · rw [axesFrom_cons_of_notMem hq, List.mem_cons] at h
      rw [List.filter_cons_of_pos (by simpa using hq), List.length_cons]
      rcases h with rfl | h
      · exact .inr (by omega)
      · rcases ih h with ⟨p, hp, hpc, rfl⟩ | hnew
        · exact .inl ⟨p, List.mem_cons_of_mem q hp, hpc, rfl⟩
        · exact .inr (by omega)

theorem nodup_axesFrom (hp : parent.Nodup) {next : ℕ} (hnext : child.length ≤ next) :
    (axesFrom child next parent).Nodup := by
  induction parent generalizing next with
  | nil => simp [axesFrom]
  | cons q parent ih =>
    obtain ⟨hq, hp⟩ := List.nodup_cons.1 hp
    by_cases hqc : q ∈ child
    · have hlt := List.idxOf_lt_length_of_mem hqc
      rw [axesFrom_cons_of_mem hqc, List.nodup_cons]
      refine ⟨fun hmem => ?_, ih hp hnext⟩
      rcases mem_axesFrom hmem with ⟨p, hpp, hpc, e⟩ | hnew
      · rw [List.idxOf_inj hpc] at e
        exact hq (e ▸ hpp)
      · omega
    · rw [axesFrom_cons_of_notMem hqc, List.nodup_cons]
      refine ⟨fun hmem => ?_, ih hp (by omega)⟩
      rcases mem_axesFrom hmem with ⟨p, _, hpc, e⟩ | hnew
      · have := List.idxOf_lt_length_of_mem hpc
        omega
      · omega

theorem length_filter_notMem (hp : parent.Nodup) (hc : child.Nodup) (hsub : child ⊆ parent) :
    child.length + (parent.filter (· ∉ child)).length = parent.length := by
  have hperm : (parent.filter (· ∈ child)).Perm child := by
    rw [List.perm_ext_iff_of_nodup (hp.filter _) hc]
    intro q
    simp only [List.mem_filter, decide_eq_true_eq]
    exact ⟨fun h => h.2, fun h => ⟨hsub h, h⟩⟩
  have hsplit := (List.filter_append_perm (· ∈ child) parent).length_eq
  rw [List.length_append, hperm.length_eq] at hsplit
  rw [← hsplit]
  congr 2
  exact List.filter_congr fun q _ => by simp

/-- The axes of a widened child are all axes of the parent, in some order. -/
theorem targets_axesFrom (hp : parent.Nodup) (hc : child.Nodup) (hsub : child ⊆ parent) :
    Targets parent.length (axesFrom child child.length parent) where
  lt x hx := by
    have hlen := length_filter_notMem hp hc hsub
    rcases mem_axesFrom hx with ⟨q, _, hq, rfl⟩ | hnew
    · have := List.idxOf_lt_length_of_mem hq
      omega
    · omega
  nodup := nodup_axesFrom hp le_rfl

/-! ### The widened matrix -/

/-- The same permutation of the bits of rows and of columns. -/
theorem targets_double {n : ℕ} {rows : List ℕ} (ht : Targets n rows) :
    Targets (n + n) (rows ++ rows.map (· + n)) where
  lt q hq := by
    rcases List.mem_append.1 hq with h | h
    · have := ht.lt q h
      omega
    · obtain ⟨p, hp, rfl⟩ := List.mem_map.1 h
      have := ht.lt p hp
      omega
  nodup := by
    refine ht.nodup.append (ht.nodup.map fun a b h => by simpa using h) fun q hq hq' => ?_
    obtain ⟨p, _, rfl⟩ := List.mem_map.1 hq'
    have := ht.lt _ hq
    omega

theorem offset_double {n : ℕ} {rows : List ℕ} (ht : Targets n rows) (hlen : rows.length = n) (r : ℕ) {c : ℕ}
    (hc : c < 2 ^ n) :
    offset (n + n) (rows ++ rows.map (· + n)) (r * 2 ^ n + c) = offset n rows r * 2 ^ n + offset n rows c := by
  have ht2 := targets_double ht
  have hlen2 : (rows ++ rows.map (· + n)).length = n + n := by simp [hlen]
  have hlt : offset n rows r * 2 ^ n + offset n rows c < 2 ^ (n + n) := by
    rw [Nat.pow_add]
    exact Mat.index_lt (offset_lt ht.lt r) (offset_lt ht.lt c)
  refine eq_of_bit_eq (offset_lt ht2.lt _) hlt fun q hq => ?_
  -- every bit is the image of one bit of the row or of the column
  obtain ⟨p, hp, rfl⟩ := List.getElem_of_mem (ht2.mem_of_length hlen2 hq)
  rw [bit_offset_getElem ht2 _ hp, bit_join _ (offset_lt ht.lt c) hq, hlen2, bit_join r hc (by omega)]
  by_cases hpn : p < n
  · have hpr : p < rows.length := by omega
    have hbit := bit_offset_getElem ht r hpr
    rw [hlen] at hbit
    rw [List.getElem_append_left hpr, if_pos hpn, if_pos (ht.getElem_lt hpr), hbit]
  · have hpr : p - rows.length < rows.length := by omega
    have hbit := bit_offset_getElem ht c hpr
    rw [List.getElem_append_right (by omega), List.getElem_map, if_neg hpn, if_neg (by omega),
      Nat.add_sub_cancel, hbit]
    rw [hlen]

/-- A child is widened to fewer than sixty-four qubits: each entry is that of the matrix beside an identity, at
the row and the column with permuted bits. -/
theorem exists_widen?_eq_some [Zero K] [One K] [Mul K] (hsmall : parent.length < 64) (hp : parent.Nodup)
    (hc : child.Nodup) (hsub : child ⊆ parent) {d : ℕ} (hd : child.length + d = parent.length) {m : Mat K}
    (hm : m.HasShape (2 ^ child.length) (2 ^ child.length)) :
    ∃ w, widen? m child parent = some w ∧ w.HasShape (2 ^ parent.length) (2 ^ parent.length) ∧
      ∀ r c, r < 2 ^ parent.length → c < 2 ^ parent.length →
        w.entry r c = (m.kron (.identity (2 ^ d))).entry
          (offset parent.length (axesFrom child child.length parent) r)
          (offset parent.length (axesFrom child child.length parent) c) := by
  have hdiff : parent.length - child.length = d := by omega
  have hrows := targets_axesFrom hp hc hsub
  have hlen := length_axesFrom child child.length parent
  have hwide : (m.kron (.identity (2 ^ d))).HasShape (2 ^ parent.length) (2 ^ parent.length) := by
    rw [← hd, Nat.pow_add]
    exact hm.kron (Mat.hasShape_identity _)
  obtain ⟨t, hreshape, hshape, hdata⟩ := hwide.reshape_binary
  obtain ⟨t', hpermute, hshape', hdata'⟩ := Tensor.permute?_replicate hshape (targets_double hrows)
    (by simp [hlen])
  obtain ⟨w, hread, hw, hwdata⟩ := Tensor.toMat?_binary hshape'
  refine ⟨w, ?_, hw, fun r c hr hcl => ?_⟩
  · simp only [widen?, mergeAxes, hdiff, dimension_eq hsmall, dimension_eq (show d < 64 by omega), Option.bind_eq_bind,
      hreshape, hpermute, Option.bind_some, hread]
  · rw [← hw.getD_data r hcl, hwdata, hdata' _ (by rw [Nat.pow_add]; exact Mat.index_lt hr hcl),
      offset_double hrows hlen r hcl, hdata, hwide.getD_data _ (offset_lt hrows.lt c)]

section Widened

variable [Semiring K]

/-- An entry of a matrix beside the identity on `d` further qubits. -/
theorem entry_kron_identity {m : Mat K} {k d : ℕ} (hm : m.HasShape (2 ^ k) (2 ^ k)) {i j : ℕ} (hi : i < 2 ^ (k + d))
    (hj : j < 2 ^ (k + d)) :
    (m.kron (.identity (2 ^ d))).entry i j =
      if i % 2 ^ d = j % 2 ^ d then m.entry (i / 2 ^ d) (j / 2 ^ d) else 0 := by
  rw [Nat.pow_add] at hi hj
  rw [Mat.entry_kron hm (Mat.hasShape_identity (2 ^ d)) hi hj, Mat.identity,
    Mat.entry_ofFn _ (Nat.mod_lt i (Nat.two_pow_pos d)) (Nat.mod_lt j (Nat.two_pow_pos d))]
  split <;> simp

/-- The bit of a parent qubit is found at its axis: that of the child if it is a child qubit. -/
theorem exists_axis (hp : parent.Nodup) (hc : child.Nodup) (hsub : child ⊆ parent) {p : ℕ}
    (hpn : p < parent.length) :
    ∃ a < parent.length, (parent[p] ∈ child → a = child.idxOf parent[p]) ∧
      (parent[p] ∉ child → child.length ≤ a) ∧
      ∀ i, bit parent.length (offset parent.length (axesFrom child child.length parent) i) a =
        bit parent.length i p := by
  have ht := targets_axesFrom hp hc hsub
  have hlen := length_axesFrom child child.length parent
  have hpa : p < (axesFrom child child.length parent).length := by rwa [hlen]
  obtain ⟨hin, hout⟩ := getElem_axesFrom child child.length parent hpn
  rw [List.getElem?_eq_getElem hpa] at hin hout
  refine ⟨_, ht.getElem_lt hpa, fun h => Option.some.inj (hin h), fun h => ?_, fun i => ?_⟩
  · obtain ⟨a, ha, e⟩ := hout h
    rwa [Option.some.inj e]
  · have hbit := bit_offset_getElem ht i hpa
    rwa [hlen] at hbit

/-- Every axis after those of the child belongs to a parent qubit outside the child. -/
theorem exists_outside (hp : parent.Nodup) (hc : child.Nodup) (hsub : child ⊆ parent) {a : ℕ}
    (ha : a < parent.length) (hka : child.length ≤ a) :
    ∃ p < parent.length, p ∉ positions child parent ∧
      ∀ i, bit parent.length (offset parent.length (axesFrom child child.length parent) i) a =
        bit parent.length i p := by
  have ht := targets_axesFrom hp hc hsub
  have hlen := length_axesFrom child child.length parent
  obtain ⟨p, hpa, rfl⟩ := List.getElem_of_mem (ht.mem_of_length hlen ha)
  have hpn : p < parent.length := by rwa [← hlen]
  refine ⟨p, hpn, fun hmem => ?_, fun i => ?_⟩
  · rw [mem_positions_iff hp hpn] at hmem
    have hin := (getElem_axesFrom child child.length parent hpn).1 hmem
    rw [List.getElem?_eq_getElem hpa, Option.some.injEq] at hin
    have := List.idxOf_lt_length_of_mem hmem
    omega
  · have hbit := bit_offset_getElem ht i hpa
    rwa [hlen] at hbit

/-- The high bits of a permuted index are the bits of the child's qubits. -/
theorem offset_axesFrom_div (hp : parent.Nodup) (hc : child.Nodup) (hsub : child ⊆ parent) {d : ℕ}
    (hd : child.length + d = parent.length) (i : ℕ) :
    offset parent.length (axesFrom child child.length parent) i / 2 ^ d =
      subIndex parent.length (positions child parent) i := by
  have ht := targets_axesFrom hp hc hsub
  have hlt : offset parent.length (axesFrom child child.length parent) i / 2 ^ d < 2 ^ child.length := by
    apply Nat.div_lt_of_lt_mul
    rw [← Nat.pow_add, Nat.add_comm, hd]
    exact offset_lt ht.lt i
  have hsub_lt := subIndex_lt parent.length (positions child parent) i
  rw [length_positions] at hsub_lt
  refine eq_of_bit_eq hlt hsub_lt fun j hj => ?_
  have hmem : child[j] ∈ parent := hsub (List.getElem_mem hj)
  have hidx := List.idxOf_lt_length_of_mem hmem
  obtain ⟨a, _, hain, -, hbit⟩ := exists_axis hp hc hsub hidx
  rw [List.getElem_idxOf] at hain
  have haj : a = j := (hain (List.getElem_mem hj)).trans (hc.idxOf_getElem j hj)
  have hsubbit := bit_subIndex parent.length (positions child parent) i (p := j) (by simpa using hj)
  simp only [length_positions] at hsubbit
  rw [haj] at hbit
  rw [bit_high _ hj, hd, hbit, hsubbit]
  simp only [positions, List.getElem_map]

/-- The low bits of two permuted indices agree when the indices agree outside the child. -/
theorem offset_axesFrom_mod_iff (hp : parent.Nodup) (hc : child.Nodup) (hsub : child ⊆ parent) {d : ℕ}
    (hd : child.length + d = parent.length) {r c : ℕ} (hr : r < 2 ^ parent.length) (hcl : c < 2 ^ parent.length) :
    offset parent.length (axesFrom child child.length parent) r % 2 ^ d =
        offset parent.length (axesFrom child child.length parent) c % 2 ^ d ↔
      spectators parent.length (positions child parent) r =
        spectators parent.length (positions child parent) c := by
  rw [spectators_eq_iff (targets_positions hc hsub).lt hr hcl]
  constructor
  · intro h q hq hqp
    rw [mem_positions_iff hp hq] at hqp
    obtain ⟨a, ha, -, hout, hbit⟩ := exists_axis hp hc hsub hq
    obtain ⟨j, rfl⟩ := Nat.exists_eq_add_of_le (hout hqp)
    have hb := congrArg (fun i => bit d i j) h
    simp only [bit_low (a := child.length) _ (show j < d by omega), hd, hbit] at hb
    exact hb
  · intro h
    have hpow := Nat.two_pow_pos d
    refine eq_of_bit_eq (Nat.mod_lt _ hpow) (Nat.mod_lt _ hpow) fun j hj => ?_
    obtain ⟨p, hpn, hpp, hbit⟩ := exists_outside hp hc hsub (show child.length + j < parent.length by omega)
      (Nat.le_add_right _ _)
    rw [bit_low (a := child.length) _ hj, bit_low (a := child.length) _ hj, hd, hbit, hbit]
    exact h p hpn hpp

/-- Widening a child to the qubits of its parent is embedding it at its positions there. -/
theorem widen?_eq (hsmall : parent.length < 64) (hp : parent.Nodup) (hc : child.Nodup) (hsub : child ⊆ parent)
    {m : Mat K} (hm : m.HasShape (2 ^ child.length) (2 ^ child.length)) :
    widen? m child parent = some (embedding m (positions child parent) parent.length) := by
  obtain ⟨d, hd⟩ : ∃ d, child.length + d = parent.length := ⟨_, length_filter_notMem hp hc hsub⟩
  have hrows := targets_axesFrom hp hc hsub
  obtain ⟨w, hwiden, hw, hentry⟩ := exists_widen?_eq_some hsmall hp hc hsub hd hm
  rw [hwiden, Option.some.injEq]
  refine Mat.ext hw.rows hw.cols fun r c hr hcl => ?_
  rw [hw.rows] at hr
  rw [hw.cols] at hcl
  rw [hentry r c hr hcl, entry_kron_identity hm (hd ▸ offset_lt hrows.lt r) (hd ▸ offset_lt hrows.lt c),
    offset_axesFrom_div hp hc hsub hd, offset_axesFrom_div hp hc hsub hd, entry_embedding _ _ hr hcl]
  exact if_congr (offset_axesFrom_mod_iff hp hc hsub hd hr hcl) rfl rfl

end Widened

end Term

end QubitDynamics
