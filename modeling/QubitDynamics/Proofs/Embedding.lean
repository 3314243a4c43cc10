import Mathlib.Algebra.BigOperators.Ring.Finset
import Mathlib.Tactic.IntervalCases
import QubitDynamics.Proofs.IndexBits
import QubitDynamics.Proofs.MatrixView
import QubitDynamics.Register.Operator

/-! The algebra of embedded operators. Embedding a matrix on distinct targets is
compatible with sums, multiples, products and identities. A Kronecker product on
two lists of targets is the product of the embedded factors, so operators on
disjoint targets commute, and an embedding into some qubits of a register that
are themselves embedded is an embedding again. All of this rests on one change of
variables: the indices with given spectators are numbered by their sub-index. -/

namespace QubitDynamics.Register

variable {K : Type} {n : ℕ} {targets : List ℕ}

/-- The matrix on all `n` qubits, with exact indices. An entry whose row and column differ in a
spectator is zero. -/
def embedding [Zero K] (m : Mat K) (targets : List ℕ) (n : ℕ) : Mat K :=
  Mat.ofFn (2 ^ n) (2 ^ n) fun row col =>
    if spectators n targets row = spectators n targets col then
      m.entry (subIndex n targets row) (subIndex n targets col)
    else 0

/-- The operator on a whole register that a matrix on some targets gives. -/
def operator [Zero K] (n : ℕ) (targets : List ℕ) (m : Mat K) : Matrix (Fin (2 ^ n)) (Fin (2 ^ n)) K :=
  (embedding m targets n).toMatrix (2 ^ n) (2 ^ n)

theorem hasShape_embedding [Zero K] (m : Mat K) (targets : List ℕ) (n : ℕ) :
    (embedding m targets n).HasShape (2 ^ n) (2 ^ n) := Mat.hasShape_ofFn _ _ _

theorem entry_embedding [Zero K] (m : Mat K) (targets : List ℕ) {r c : ℕ} (hr : r < 2 ^ n) (hc : c < 2 ^ n) :
    (embedding m targets n).entry r c =
      if spectators n targets r = spectators n targets c then
        m.entry (subIndex n targets r) (subIndex n targets c)
      else 0 := Mat.entry_ofFn _ hr hc

theorem operator_apply [Zero K] (m : Mat K) (targets : List ℕ) (r c : Fin (2 ^ n)) :
    operator n targets m r c =
      if spectators n targets r = spectators n targets c then
        m.entry (subIndex n targets r) (subIndex n targets c)
      else 0 := entry_embedding m targets r.isLt c.isLt

theorem fullMatrix_eq_embedding [Zero K] (hn : n < 64) (hk : targets.length ≤ 64) (m : Mat K) :
    fullMatrix m targets n = embedding m targets n := by
  simp only [fullMatrix, embedding, dimension_eq hn, clear_eq_spectators hn.le, gather_eq_subIndex hn.le hk]

/-- A sum over the indices with the spectators of `r` is a sum over sub-indices. -/
theorem sum_spectators_eq [AddCommMonoid K] (ht : Targets n targets) {r : ℕ} (hr : r < 2 ^ n) (f : ℕ → K) :
    (∑ c : Fin (2 ^ n), if spectators n targets r = spectators n targets c then f c else 0) =
      ∑ s : Fin (2 ^ targets.length), f (fill n targets r s) := by
  rw [← Finset.sum_filter]
  symm
  refine Finset.sum_bij' (fun s _ => ⟨fill n targets r s, fill_lt ht hr s⟩)
    (fun c _ => ⟨subIndex n targets c, subIndex_lt n targets c⟩) ?_ ?_ ?_ ?_ ?_
  · intro s _
    simp only [Finset.mem_filter, Finset.mem_univ, true_and]
    exact (spectators_fill ht hr s).symm
  · intro c _
    exact Finset.mem_univ _
  · intro s _
    exact Fin.ext (subIndex_fill ht r s.isLt)
  · intro c hc
    exact Fin.ext (fill_subIndex ht hr c.isLt (Finset.mem_filter.1 hc).2)
  · intro s _
    rfl

/-! ### Sums, products and the identity -/

theorem operator_add [AddCommMonoid K] {a : Mat K} (ha : a.HasShape (2 ^ targets.length) (2 ^ targets.length))
    (b : Mat K) : operator n targets (a.add b) = operator n targets a + operator n targets b := by
  funext r c
  have hab : (a.add b).entry (subIndex n targets r) (subIndex n targets c) =
      a.entry (subIndex n targets r) (subIndex n targets c) +
        b.entry (subIndex n targets r) (subIndex n targets c) :=
    congrFun (congrFun (Mat.toMatrix_add ha b) ⟨_, subIndex_lt n targets r⟩) ⟨_, subIndex_lt n targets c⟩
  simp only [Matrix.add_apply, operator_apply, hab]
  split <;> simp

theorem operator_scale [CommSemiring K] {a : Mat K}
    (ha : a.HasShape (2 ^ targets.length) (2 ^ targets.length)) (k : K) :
    operator n targets (a.scale k) = k • operator n targets a := by
  funext r c
  have hk : (a.scale k).entry (subIndex n targets r) (subIndex n targets c) =
      k * a.entry (subIndex n targets r) (subIndex n targets c) :=
    congrFun (congrFun (Mat.toMatrix_scale ha k) ⟨_, subIndex_lt n targets r⟩) ⟨_, subIndex_lt n targets c⟩
  simp only [Matrix.smul_apply, operator_apply, hk, smul_eq_mul]
  split <;> simp

theorem operator_mul [Semiring K] (ht : Targets n targets) {a b : Mat K}
    (ha : a.HasShape (2 ^ targets.length) (2 ^ targets.length))
    (hb : b.HasShape (2 ^ targets.length) (2 ^ targets.length)) :
    operator n targets (a.mul b) = operator n targets a * operator n targets b := by
  funext r c
  have hab : (a.mul b).entry (subIndex n targets r) (subIndex n targets c) =
      ∑ s : Fin (2 ^ targets.length), a.entry (subIndex n targets r) s * b.entry s (subIndex n targets c) :=
    congrFun (congrFun (Mat.toMatrix_mul ha hb) ⟨_, subIndex_lt n targets r⟩) ⟨_, subIndex_lt n targets c⟩
  simp only [Matrix.mul_apply, operator_apply, ite_mul, zero_mul]
  rw [sum_spectators_eq ht r.isLt fun x => a.entry (subIndex n targets r) (subIndex n targets x) *
    if spectators n targets x = spectators n targets c then
      b.entry (subIndex n targets x) (subIndex n targets c) else 0]
  simp only [spectators_fill ht r.isLt, subIndex_fill ht _ (Fin.isLt _), hab]
  split <;> simp

theorem operator_identity [NonAssocSemiring K] (ht : Targets n targets) :
    operator n targets (Mat.identity (2 ^ targets.length) : Mat K) = 1 := by
  funext r c
  have hid : (Mat.identity (2 ^ targets.length) : Mat K).entry (subIndex n targets r) (subIndex n targets c) =
      if subIndex n targets r = subIndex n targets c then 1 else 0 :=
    Mat.entry_ofFn _ (subIndex_lt n targets r) (subIndex_lt n targets c)
  rw [operator_apply, hid, Matrix.one_apply]
  by_cases hrc : r = c
  · simp [hrc]
  · rw [if_neg hrc]
    split
    · rename_i hs
      refine if_neg fun hsub => hrc (Fin.ext ?_)
      -- equal spectators and equal sub-indices make equal indices
      rw [← fill_subIndex ht r.isLt r.isLt rfl, hsub, fill_subIndex ht r.isLt c.isLt hs]
    · rfl

/-- An operator determines the matrix on the targets. -/
theorem operator_injective [Zero K] (ht : Targets n targets) {a b : Mat K}
    (ha : a.HasShape (2 ^ targets.length) (2 ^ targets.length))
    (hb : b.HasShape (2 ^ targets.length) (2 ^ targets.length))
    (h : operator n targets a = operator n targets b) : a = b := by
  refine ha.ext hb ?_
  funext r c
  have hpos : 0 < 2 ^ n := Nat.two_pow_pos n
  -- the entry stands in the block whose spectators are all zero
  have hentry := congrFun (congrFun h ⟨fill n targets 0 r, fill_lt ht hpos r⟩) ⟨fill n targets 0 c, fill_lt ht hpos c⟩
  simpa only [operator_apply, spectators_fill ht hpos, subIndex_fill ht 0 r.isLt, subIndex_fill ht 0 c.isLt,
    if_true, Mat.toMatrix_apply] using hentry

/-- On no targets an operator is a multiple of the identity. -/
theorem operator_nil [Semiring K] (n : ℕ) (m : Mat K) : operator n [] m = m.entry 0 0 • 1 := by
  funext r c
  simp [operator_apply, spectators, targetMask, subIndex, Matrix.one_apply, Fin.ext_iff]

/-! ### Kronecker products -/

theorem subIndex_append (n : ℕ) (ts us : List ℕ) (i : ℕ) :
    subIndex n (ts ++ us) i = subIndex n ts i * 2 ^ us.length + subIndex n us i := by
  induction ts with
  | nil => simp [subIndex]
  | cons q ts ih =>
    rw [List.cons_append, subIndex_cons, ih, subIndex_cons, List.length_append]
    ring

section Disjoint

variable {ts us : List ℕ}

theorem Targets.append_left (h : Targets n (ts ++ us)) : Targets n ts :=
  ⟨fun q hq => h.lt q (List.mem_append_left us hq), h.nodup.of_append_left⟩

theorem Targets.append_right (h : Targets n (ts ++ us)) : Targets n us :=
  ⟨fun q hq => h.lt q (List.mem_append_right ts hq), h.nodup.of_append_right⟩

theorem Targets.append_comm (h : Targets n (ts ++ us)) : Targets n (us ++ ts) :=
  ⟨fun q hq => h.lt q (List.mem_append.2 (List.mem_append.1 hq).symm), List.nodup_append_comm.1 h.nodup⟩

theorem Targets.notMem_right (h : Targets n (ts ++ us)) {q : ℕ} (hq : q ∈ ts) : q ∉ us := fun hu =>
  List.disjoint_of_nodup_append h.nodup hq hu

/-- Filling in at `ts` is not seen by the disjoint targets `us`. -/
theorem subIndex_fill_of_disjoint (h : Targets n (ts ++ us)) (i s : ℕ) :
    subIndex n us (fill n ts i s) = subIndex n us i := by
  refine eq_of_bit_eq (subIndex_lt n us _) (subIndex_lt n us _) fun p hp => ?_
  rw [bit_subIndex n us _ hp, bit_subIndex n us _ hp]
  exact bit_fill_of_notMem h.append_left i s (h.append_right.getElem_lt hp)
    (h.append_comm.notMem_right (List.getElem_mem hp))

/-- The only sub-index that leads from `r` to the spectators of `c` at `us` is that of `c`. -/
theorem spectators_fill_eq_iff (h : Targets n (ts ++ us)) {r c s : ℕ} (hr : r < 2 ^ n) (hc : c < 2 ^ n)
    (hs : s < 2 ^ ts.length) :
    spectators n us (fill n ts r s) = spectators n us c ↔
      subIndex n ts c = s ∧ spectators n (ts ++ us) r = spectators n (ts ++ us) c := by
  have ht := h.append_left
  rw [spectators_eq_iff h.append_right.lt (fill_lt ht hr s) hc, spectators_eq_iff h.lt hr hc]
  constructor
  · intro hagree
    constructor
    · refine eq_of_bit_eq (subIndex_lt n ts c) hs fun p hp => ?_
      rw [bit_subIndex n ts c hp, ← bit_fill_getElem ht r s hp]
      exact (hagree _ (ht.getElem_lt hp) (h.notMem_right (List.getElem_mem hp))).symm
    · intro q hq hqn
      rw [List.mem_append, not_or] at hqn
      rw [← hagree q hq hqn.2, bit_fill_of_notMem ht r s hq hqn.1]
  · rintro ⟨rfl, hagree⟩ q hq hqu
    by_cases hqt : q ∈ ts
    · obtain ⟨p, hp, rfl⟩ := List.getElem_of_mem hqt
      rw [bit_fill_getElem ht r _ hp, bit_subIndex n ts c hp]
    · rw [bit_fill_of_notMem ht r _ hq hqt]
      exact hagree q hq (by simp [hqt, hqu])

/-- An entry of a Kronecker product on two lists of targets. -/
theorem operator_kron_apply [MulZeroClass K] {a b : Mat K} (ha : a.HasShape (2 ^ ts.length) (2 ^ ts.length))
    (hb : b.HasShape (2 ^ us.length) (2 ^ us.length)) (r c : Fin (2 ^ n)) :
    operator n (ts ++ us) (a.kron b) r c =
      if spectators n (ts ++ us) r = spectators n (ts ++ us) c then
        a.entry (subIndex n ts r) (subIndex n ts c) * b.entry (subIndex n us r) (subIndex n us c)
      else 0 := by
  have hpos : 0 < 2 ^ us.length := Nat.two_pow_pos _
  have hsub (i : ℕ) : subIndex n (ts ++ us) i < 2 ^ ts.length * 2 ^ us.length := by
    rw [← Nat.pow_add, ← List.length_append]
    exact subIndex_lt n (ts ++ us) i
  have hdiv (i : ℕ) : subIndex n (ts ++ us) i / 2 ^ us.length = subIndex n ts i := by
    rw [subIndex_append, Nat.mul_comm, Nat.mul_add_div hpos, Nat.div_eq_of_lt (subIndex_lt n us i), Nat.add_zero]
  have hmod (i : ℕ) : subIndex n (ts ++ us) i % 2 ^ us.length = subIndex n us i := by
    rw [subIndex_append, Nat.mul_comm, Nat.mul_add_mod, Nat.mod_eq_of_lt (subIndex_lt n us i)]
  rw [operator_apply, Mat.entry_kron ha hb (hsub r) (hsub c), hdiv, hdiv, hmod, hmod]

theorem operator_kron [Semiring K] (h : Targets n (ts ++ us)) {a b : Mat K}
    (ha : a.HasShape (2 ^ ts.length) (2 ^ ts.length)) (hb : b.HasShape (2 ^ us.length) (2 ^ us.length)) :
    operator n (ts ++ us) (a.kron b) = operator n ts a * operator n us b := by
  funext r c
  have ht := h.append_left
  rw [operator_kron_apply ha hb]
  simp only [Matrix.mul_apply, operator_apply, ite_mul, zero_mul]
  rw [sum_spectators_eq ht r.isLt fun x => a.entry (subIndex n ts r) (subIndex n ts x) *
    if spectators n us x = spectators n us c then b.entry (subIndex n us x) (subIndex n us c) else 0]
  simp only [subIndex_fill ht _ (Fin.isLt _), subIndex_fill_of_disjoint h,
    spectators_fill_eq_iff h r.isLt c.isLt (Fin.isLt _)]
  rw [Finset.sum_eq_single ⟨subIndex n ts c, subIndex_lt n ts c⟩]
  · split <;> simp_all
  · intro s _ hs
    have hne : subIndex n ts c ≠ s := fun e => hs (Fin.ext e.symm)
    simp [hne]
  · intro hs
    exact absurd (Finset.mem_univ _) hs

/-- Operators on disjoint targets commute. -/
theorem operator_commute [CommSemiring K] (h : Targets n (ts ++ us)) {a b : Mat K}
    (ha : a.HasShape (2 ^ ts.length) (2 ^ ts.length)) (hb : b.HasShape (2 ^ us.length) (2 ^ us.length)) :
    Commute (operator n ts a) (operator n us b) := by
  have hspec (r c : Fin (2 ^ n)) : spectators n (ts ++ us) r = spectators n (ts ++ us) c ↔
      spectators n (us ++ ts) r = spectators n (us ++ ts) c := by
    rw [spectators_eq_iff h.lt r.isLt c.isLt, spectators_eq_iff h.append_comm.lt r.isLt c.isLt]
    simp only [List.mem_append, or_comm]
  rw [Commute, SemiconjBy, ← operator_kron h ha hb, ← operator_kron h.append_comm hb ha]
  funext r c
  rw [operator_kron_apply ha hb, operator_kron_apply hb ha]
  simp only [hspec, mul_comm]

end Disjoint

/-! ### Embeddings of embeddings -/

/-- The positions of the qubits `child` among the qubits `parent`. -/
def positions (child parent : List ℕ) : List ℕ := child.map parent.idxOf

section Nested

variable {child parent : List ℕ}

@[simp] theorem length_positions (child parent : List ℕ) : (positions child parent).length = child.length :=
  List.length_map _

theorem mem_positions_iff (hp : parent.Nodup) {p : ℕ} (h : p < parent.length) :
    p ∈ positions child parent ↔ parent[p] ∈ child := by
  unfold positions
  rw [List.mem_map]
  constructor
  · rintro ⟨q, hq, rfl⟩
    rwa [List.getElem_idxOf]
  · intro hmem
    exact ⟨parent[p], hmem, hp.idxOf_getElem p h⟩

theorem targets_positions (hc : child.Nodup) (hsub : child ⊆ parent) :
    Targets parent.length (positions child parent) where
  lt q hq := by
    obtain ⟨c, hc, rfl⟩ := List.mem_map.1 hq
    exact List.idxOf_lt_length_of_mem (hsub hc)
  nodup := hc.map_on fun a ha b _ hab => (List.idxOf_inj (hsub ha)).1 hab

theorem subIndex_positions (hsub : child ⊆ parent) (n i : ℕ) :
    subIndex parent.length (positions child parent) (subIndex n parent i) = subIndex n child i := by
  induction child with
  | nil => rfl
  | cons q child ih =>
    have hq : q ∈ parent := hsub List.mem_cons_self
    have hbit := bit_subIndex n parent i (List.idxOf_lt_length_of_mem hq)
    rw [List.getElem_idxOf] at hbit
    have hrest := ih fun p hp => hsub (List.mem_cons_of_mem q hp)
    simp only [positions, List.map_cons, subIndex_cons, List.length_map, hbit] at hrest ⊢
    rw [hrest]

theorem spectators_positions_iff (hp : Targets n parent) (hc : child.Nodup) (hsub : child ⊆ parent)
    {r c : ℕ} (hr : r < 2 ^ n) (hc' : c < 2 ^ n) :
    spectators n child r = spectators n child c ↔
      spectators n parent r = spectators n parent c ∧
        spectators parent.length (positions child parent) (subIndex n parent r) =
          spectators parent.length (positions child parent) (subIndex n parent c) := by
  rw [spectators_eq_iff (fun q hq => hp.lt q (hsub hq)) hr hc', spectators_eq_iff hp.lt hr hc',
    spectators_eq_iff (targets_positions hc hsub).lt (subIndex_lt n parent r) (subIndex_lt n parent c)]
  constructor
  · intro h
    constructor
    · intro q hq hqp
      exact h q hq fun hqc => hqp (hsub hqc)
    · intro p hp' hpn
      rw [mem_positions_iff hp.nodup hp'] at hpn
      rw [bit_subIndex n parent r hp', bit_subIndex n parent c hp']
      exact h _ (hp.getElem_lt hp') hpn
  · rintro ⟨hout, hin⟩ q hq hqc
    by_cases hqp : q ∈ parent
    · obtain ⟨p, hp', rfl⟩ := List.getElem_of_mem hqp
      have hb := hin p hp' fun hmem => hqc ((mem_positions_iff hp.nodup hp').1 hmem)
      rwa [bit_subIndex n parent r hp', bit_subIndex n parent c hp'] at hb
    · exact hout q hq hqp

/-- Embedding first into the parent qubits and then into the register is embedding at once. -/
theorem operator_embedding [Zero K] (hp : Targets n parent) (hc : child.Nodup) (hsub : child ⊆ parent)
    (m : Mat K) :
    operator n parent (embedding m (positions child parent) parent.length) = operator n child m := by
  funext r c
  rw [operator_apply, operator_apply, entry_embedding m _ (subIndex_lt n parent r) (subIndex_lt n parent c),
    subIndex_positions hsub, subIndex_positions hsub]
  simp only [spectators_positions_iff hp hc hsub r.isLt c.isLt, ite_and]

end Nested

end QubitDynamics.Register
