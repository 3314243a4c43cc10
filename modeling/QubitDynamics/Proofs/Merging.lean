import QubitDynamics.Proofs.Clustering
import QubitDynamics.Proofs.Loops
import QubitDynamics.Proofs.PauliTerms
import QubitDynamics.Proofs.TermSum
import QubitDynamics.Proofs.Widening

/-! Merging terms keeps their sum. Merging a child into its parent adds the
operators of the two on every register that holds the parent, so a cluster
collapses to the sum of its members. The clusters of a Hamiltonian hold each term
once, and therefore the merged terms, embedded one by one, add up to the matrix of
the Hamiltonian. -/

namespace QubitDynamics

open Register

variable {ι K R : Type}

namespace Term

/-! ### Merging two terms -/

section

variable [Semiring K] {parent child : Term K}

/-- Merging a term into one that acts on all its qubits adds its matrix at the positions of its qubits. -/
theorem merge_of_subset (hsmall : parent.arity < 64) (hp : parent.WellFormed) (hc : child.WellFormed)
    (hsub : child.qubits ⊆ parent.qubits) :
    parent.merge child = .ok ⟨.dense parent.qubits (parent.matrix.add
      (embedding child.matrix (positions child.qubits parent.qubits) parent.qubits.length)), none⟩ := by
  have hall : child.qubits.all (parent.qubits.contains ·) = true :=
    List.all_eq_true.2 fun q hq => by simpa using hsub hq
  rw [merge, hall, widen?_eq hsmall hp.nodup hc.nodup hsub hc.shape]
  rfl

/-- Merging a term into one that acts on all its qubits adds their operators. -/
theorem merge_eq_ok (hsmall : parent.arity < 64) (hp : parent.WellFormed) (hc : child.WellFormed)
    (hsub : child.qubits ⊆ parent.qubits) :
    ∃ t, parent.merge child = .ok t ∧ t.qubits = parent.qubits ∧ t.WellFormed ∧
      ∀ n, parent.Fits n → t.operator n = parent.operator n + child.operator n := by
  refine ⟨_, merge_of_subset hsmall hp hc hsub, rfl, ⟨hp.nodup, hp.shape.add _⟩, fun n hn => ?_⟩
  calc Register.operator n parent.qubits (parent.matrix.add _)
      = parent.operator n + Register.operator n parent.qubits
          (embedding child.matrix (positions child.qubits parent.qubits) parent.qubits.length) :=
        operator_add hp.shape _
    _ = parent.operator n + child.operator n := by
        rw [operator_embedding hn.targets hc.nodup hsub]
        rfl

/-- Merging a list of terms, one after the other, adds all their operators. -/
theorem foldlM_merge_eq_ok (ts : List (Term K)) {acc : Term K} (hsmall : acc.arity < 64) (hacc : acc.WellFormed)
    (hts : ∀ t ∈ ts, t.WellFormed ∧ t.qubits ⊆ acc.qubits) :
    ∃ t, ts.foldlM merge acc = .ok t ∧ t.qubits = acc.qubits ∧ t.WellFormed ∧
      ∀ n, acc.Fits n → t.operator n = acc.operator n + (ts.map (operator n)).sum := by
  induction ts generalizing acc with
  | nil => exact ⟨acc, rfl, rfl, hacc, by simp⟩
  | cons t ts ih =>
    obtain ⟨ht, hsub⟩ := hts t List.mem_cons_self
    obtain ⟨next, hmerge, hqubits, hnext, hsum⟩ := merge_eq_ok hsmall hacc ht hsub
    have hsmall' : next.arity < 64 := by rwa [arity, hqubits]
    obtain ⟨last, hfold, hlast, hwf, hrest⟩ := ih hsmall' hnext fun s hs => by
      rw [hqubits]
      exact hts s (List.mem_cons_of_mem t hs)
    refine ⟨last, ?_, hlast.trans hqubits, hwf, fun n hn => ?_⟩
    · rw [List.foldlM_cons, hmerge]
      exact hfold
    · have hfits : next.Fits n := ⟨hnext, by rw [hqubits]; exact hn.lt⟩
      rw [hrest n hfits, hsum n hn, List.map_cons, List.sum_cons, add_assoc]

end

/-- A merged term is dense, on the qubits of the parent. -/
theorem merge_cases [Zero K] [One K] [Add K] [Mul K] {parent child t : Term K} (h : parent.merge child = .ok t) :
    ∃ w, widen? child.matrix child.qubits parent.qubits = some w ∧
      t = ⟨.dense parent.qubits (parent.matrix.add w), none⟩ := by
  unfold merge at h
  split_ifs at h
  split at h
  · cases h
  · cases h
    exact ⟨_, by assumption, rfl⟩

/-- The owners of two terms play no part in merging them. -/
theorem merge_congr [Zero K] [One K] [Add K] [Mul K] {parent parent' child child' : Term K}
    (hp : parent.action = parent'.action) (hc : child.action = child'.action) :
    parent.merge child = parent'.merge child' := by
  cases parent
  cases child
  cases hp
  cases hc
  rfl

end Term

/-! ### Collapsing a cluster -/

namespace Cluster

theorem qubits_weighted [Zero K] [Mul K] (w : Weights K) (t : Term K) : (weighted w t).qubits = t.qubits := by
  unfold weighted
  split
  · exact Term.qubits_scaled _ t
  · rfl

theorem wellFormed_weighted [Zero K] [Mul K] {t : Term K} (h : t.WellFormed) (w : Weights K) :
    (weighted w t).WellFormed := by
  unfold weighted
  split
  · exact h.scaled _
  · exact h

theorem weighted_none [Zero K] [Mul K] (t : Term K) : weighted Weights.none t = t := by
  unfold weighted
  cases t.owner <;> rfl

/-- The clusters of a partition have not been collapsed. -/
theorem memo_partition (ms : List (Member ι K)) : ∀ c ∈ partition ms, c.memo = none :=
  forall_mem_partition (fun _ => rfl) (fun _ _ _ => rfl) ms

theorem Nested.qubits_subset {c : Cluster ι K} (h : c.Nested) {m : Member ι K} (hm : m ∈ c.rest) :
    m.term.qubits ⊆ c.parent.term.qubits := fun _ hq =>
  List.mem_toFinset.1 (h.rest m hm (List.mem_toFinset.2 hq))

theorem fst_merged [Zero K] [One K] [Add K] [Mul K] {c : Cluster ι K} (hmemo : c.memo = none) :
    c.merged.1 = c.collapse Weights.none := by
  unfold merged
  rw [hmemo]
  cases h : c.collapse Weights.none <;> rfl

/-- Clusters of a partition are merged by collapsing them without weights. -/
theorem mapM_merged_partition [Zero K] [One K] [Add K] [Mul K] (ms : List (Member ι K)) :
    (partition ms).mapM (fun c => c.merged.1) = (partition ms).mapM fun c => c.collapse Weights.none :=
  mapM_congr fun c hc => fst_merged (memo_partition ms c hc)

/-- A cluster with weights collapses to the same action as one whose members are weighted already. -/
theorem map_action_collapse [Zero K] [One K] [Add K] [Mul K] {κ : Type} {f : Member ι K → Member κ K} {w : Weights K}
    (hf : ∀ m, (f m).term.action = (weighted w m.term).action) (c : Cluster ι K) :
    ((c.mapMembers f).collapse Weights.none).map Term.action = (c.collapse w).map Term.action := by
  have hfold (rest : List (Member ι K)) {acc acc' : Term K} (hacc : acc.action = acc'.action) :
      ((rest.map f).foldlM (fun (acc : Term K) m => acc.merge (weighted Weights.none m.term)) acc).map Term.action =
        (rest.foldlM (fun (acc : Term K) m => acc.merge (weighted w m.term)) acc').map Term.action := by
    induction rest generalizing acc acc' with
    | nil => exact congrArg Except.ok hacc
    | cons m rest ih =>
      rw [List.map_cons, List.foldlM_cons, List.foldlM_cons, weighted_none, Term.merge_congr hacc (hf m)]
      cases acc'.merge (weighted w m.term) with
      | error e => rfl
      | ok next => exact ih rfl
  refine hfold c.rest ?_
  rw [weighted_none]
  exact hf c.parent

section

variable [Semiring K] {c : Cluster ι K}

/-- The weighted sum of the operators of the members of a cluster. -/
def operatorSum (w : Weights K) (n : ℕ) (c : Cluster ι K) : Matrix (Fin (2 ^ n)) (Fin (2 ^ n)) K :=
  (c.members.map fun m => (weighted w m.term).operator n).sum

theorem sum_operatorSum (w : Weights K) (n : ℕ) (cs : List (Cluster ι K)) :
    (cs.map (operatorSum w n)).sum = ((cs.flatMap members).map fun m => (weighted w m.term).operator n).sum := by
  rw [List.map_flatMap, List.flatMap_def, List.sum_flatten, List.map_map]
  rfl

/-- A nested cluster collapses to the weighted sum of its members. -/
theorem collapse_eq_ok (w : Weights K) (hsmall : c.parent.term.arity < 64) (hnest : c.Nested)
    (h : ∀ m ∈ c.members, m.term.WellFormed) :
    ∃ t, c.collapse w = .ok t ∧ t.qubits = c.parent.term.qubits ∧ t.WellFormed ∧
      ∀ n, c.parent.term.Fits n → t.operator n = c.operatorSum w n := by
  have hparent := wellFormed_weighted (h c.parent List.mem_cons_self) w
  have hrest : ∀ t ∈ c.rest.map fun m => weighted w m.term,
      t.WellFormed ∧ t.qubits ⊆ (weighted w c.parent.term).qubits := by
    intro t ht
    obtain ⟨m, hm, rfl⟩ := List.mem_map.1 ht
    rw [qubits_weighted, qubits_weighted]
    exact ⟨wellFormed_weighted (h m (List.mem_cons_of_mem _ hm)) w, hnest.qubits_subset hm⟩
  have hsmall' : (weighted w c.parent.term).arity < 64 := by rwa [Term.arity, qubits_weighted]
  obtain ⟨t, hfold, hqubits, ht, hsum⟩ := Term.foldlM_merge_eq_ok _ hsmall' hparent hrest
  refine ⟨t, ?_, hqubits.trans (qubits_weighted w _), ht, fun n hn => ?_⟩
  · rw [collapse, ← hfold, List.foldlM_map]
  · rw [hsum n ⟨hparent, by rw [qubits_weighted]; exact hn.lt⟩, operatorSum, members, List.map_cons, List.sum_cons,
      List.map_map]
    rfl

/-- Some clusters collapse to terms that have their weighted operators. -/
theorem mapM_collapse_eq_ok {n : ℕ} (w : Weights K) (cs : List (Cluster ι K)) (hnest : ∀ c ∈ cs, c.Nested)
    (hsmall : ∀ m ∈ cs.flatMap members, m.term.arity < 64) (h : ∀ m ∈ cs.flatMap members, m.term.Fits n) :
    ∃ ts, cs.mapM (fun c => c.collapse w) = .ok ts ∧ ts.map Term.qubits = cs.map (·.parent.term.qubits) ∧
      (∀ t ∈ ts, t.Fits n) ∧ ts.map (Term.operator n) = cs.map (operatorSum w n) := by
  induction cs with
  | nil => exact ⟨[], rfl, rfl, by simp, rfl⟩
  | cons c cs ih =>
    have hc : ∀ m ∈ c.members, m.term.Fits n := fun m hm => h m (by simp [hm])
    have hparent := hc c.parent List.mem_cons_self
    obtain ⟨t, hcollapse, hqubits, ht, hsum⟩ := collapse_eq_ok w (hsmall c.parent (by simp [members]))
      (hnest c List.mem_cons_self) fun m hm => (hc m hm).toWellFormed
    obtain ⟨ts, hmap, hqs, hts, hsums⟩ := ih (fun d hd => hnest d (List.mem_cons_of_mem c hd))
      (fun m hm => hsmall m (by simp [List.mem_flatMap.1 hm])) fun m hm => h m (by simp [List.mem_flatMap.1 hm])
    refine ⟨t :: ts, ?_, by rw [List.map_cons, List.map_cons, hqubits, hqs], ?_, ?_⟩
    · rw [List.mapM_cons, hcollapse, hmap]
      rfl
    · exact List.forall_mem_cons.2 ⟨⟨ht, by rw [hqubits]; exact hparent.lt⟩, hts⟩
    · rw [List.map_cons, List.map_cons, hsum n hparent, hsums]

end

end Cluster

/-! ### The merged terms of a Hamiltonian -/

namespace Hamiltonian

/-- The clusters of a Hamiltonian arrange its terms. -/
theorem arranged_clusters (h : Hamiltonian K) (hnodup : ∀ t ∈ h.terms, t.qubits.Nodup) :
    ∃ ms : List (Member ℕ K), ms.map Member.term = h.terms ∧ Cluster.Arranged h.clusters ms := by
  have hterms : (h.terms.zipIdx.map fun p => (⟨p.2, p.1⟩ : Member ℕ K)).map Member.term = h.terms := by
    rw [List.map_map]
    exact List.zipIdx_map_fst 0 h.terms
  refine ⟨_, hterms, Cluster.arranged_partition _ fun m hm => hnodup m.term ?_⟩
  rw [← hterms]
  exact List.mem_map_of_mem hm

/-- If all terms act on equally many qubits, the operators of a cluster are those of all terms on its
qubits. -/
theorem operatorSum_eq_filter [Semiring K] (h : Hamiltonian K) (hnodup : ∀ t ∈ h.terms, t.qubits.Nodup) {k : ℕ}
    (hcard : ∀ t ∈ h.terms, t.qubitSet.card = k) {c : Cluster ℕ K} (hc : c ∈ h.clusters) (n : ℕ) :
    c.operatorSum Weights.none n = ((h.terms.filter (·.qubitSet = c.qubitSet)).map (Term.operator n)).sum := by
  obtain ⟨ms, hterms, harr⟩ := h.arranged_clusters hnodup
  have hperm := harr.members_perm_filter (fun m hm => hcard m.term (hterms ▸ List.mem_map_of_mem hm)) hc
  have hfilter : (ms.filter (·.term.qubitSet = c.qubitSet)).map Member.term =
      h.terms.filter (·.qubitSet = c.qubitSet) := by
    rw [← hterms, List.filter_map]
    rfl
  simp only [Cluster.operatorSum, Cluster.weighted_none]
  rw [(hperm.map _).sum_eq, ← hfilter, List.map_map]
  rfl

/-- Terms that fit a register merge into terms that fit it, one for each cluster with the operators
of its members. -/
theorem mergedTerms_eq_operatorSum [Semiring K] {n : ℕ} (h : Hamiltonian K) (hsmall : Term.Small h.terms)
    (hfits : ∀ t ∈ h.terms, t.Fits n) :
    ∃ merged, h.mergedTerms = (.ok merged : Except (DynamicsError R) _) ∧
      merged.map Term.qubits = h.clusters.map (·.parent.term.qubits) ∧ (∀ t ∈ merged, t.Fits n) ∧
      merged.map (Term.operator n) = h.clusters.map (Cluster.operatorSum Weights.none n) := by
  obtain ⟨ms, hterms, harr⟩ := h.arranged_clusters fun t ht => (hfits t ht).nodup
  have hmem : ∀ m ∈ h.clusters.flatMap Cluster.members, m.term ∈ h.terms := fun m hm =>
    hterms ▸ List.mem_map_of_mem (harr.perm.mem_iff.1 hm)
  obtain ⟨merged, hmap, hqubits, hmerged, hsums⟩ := Cluster.mapM_collapse_eq_ok Weights.none h.clusters harr.nested
    (fun m hm => hsmall m.term (hmem m hm)) fun m hm => hfits m.term (hmem m hm)
  refine ⟨merged, ?_, hqubits, hmerged, hsums⟩
  rw [mergedTerms, clusters, Cluster.mapM_merged_partition]
  exact congrArg _ hmap

/-- A merged term fits the register and has the sum of the operators of some given terms. -/
theorem operator_of_mem_mergedTerms [Semiring K] {n : ℕ} (h : Hamiltonian K) (hsmall : Term.Small h.terms)
    (hfits : ∀ t ∈ h.terms, t.Fits n) {merged : List (Term K)}
    (hmerged : h.mergedTerms = (.ok merged : Except (DynamicsError R) _)) {t : Term K} (ht : t ∈ merged) :
    t.Fits n ∧ ∃ parts ⊆ h.terms, t.operator n = (parts.map (Term.operator n)).sum := by
  obtain ⟨ms, hterms, harr⟩ := h.arranged_clusters fun t ht => (hfits t ht).nodup
  obtain ⟨merged', hmerged', -, hfits', hsums⟩ := h.mergedTerms_eq_operatorSum hsmall hfits (R := R)
  obtain rfl : merged = merged' := Except.ok.inj (hmerged.symm.trans hmerged')
  obtain ⟨c, hc, hsum⟩ := List.mem_map.1 (hsums ▸ List.mem_map_of_mem (f := Term.operator n) ht)
  refine ⟨hfits' t ht, c.members.map Member.term, fun u hu => ?_, ?_⟩
  · obtain ⟨m, hm, rfl⟩ := List.mem_map.1 hu
    rw [← hterms]
    exact List.mem_map_of_mem (harr.perm.mem_iff.1 (List.mem_flatMap.2 ⟨c, hc, hm⟩))
  · rw [← hsum, Cluster.operatorSum, List.map_map]
    simp only [Cluster.weighted_none]
    rfl

/-- The merged terms have the same sum as the given ones. -/
theorem mergedTerms_eq_ok [Semiring K] {n : ℕ} (h : Hamiltonian K) (hsmall : Term.Small h.terms)
    (hfits : ∀ t ∈ h.terms, t.Fits n) :
    ∃ merged, h.mergedTerms = (.ok merged : Except (DynamicsError R) _) ∧
      merged.map Term.qubits = h.clusters.map (·.parent.term.qubits) ∧ (∀ t ∈ merged, t.Fits n) ∧
      (merged.map (Term.operator n)).sum = (h.terms.map (Term.operator n)).sum := by
  obtain ⟨ms, hterms, harr⟩ := h.arranged_clusters fun t ht => (hfits t ht).nodup
  obtain ⟨merged, hmap, hqubits, hmerged, hsums⟩ := h.mergedTerms_eq_operatorSum hsmall hfits (R := R)
  refine ⟨merged, hmap, hqubits, hmerged, ?_⟩
  simp only [hsums, Cluster.sum_operatorSum, Cluster.weighted_none]
  rw [(harr.perm.map _).sum_eq, ← hterms, List.map_map]
  rfl

end Hamiltonian

end QubitDynamics
