import Mathlib.Algebra.GroupWithZero.Nat
import Mathlib.Order.Antichain
import QubitDynamics.Proofs.FirstFit

/-! Partitions of terms by first fit are optimal. Wide terms are placed before
narrow ones, so a term that opens a cluster is contained in no cluster before it
and contains none that is wider. The clusters therefore stand for the
inclusion-maximal qubit sets of the terms, one each, and no partition into nested
classes can have fewer classes than there are such sets. -/

namespace QubitDynamics

variable {ι K : Type}

namespace Cluster

/-! ### The arrangement of clusters -/

/-- A partition of terms into clusters: every cluster is nested, the members are the terms, and no
cluster is contained in an earlier one or larger than it. -/
structure Arranged (cs : List (Cluster ι K)) (done : List (Member ι K)) : Prop where
  nested : ∀ c ∈ cs, c.Nested
  perm : (cs.flatMap members).Perm done
  apart : cs.Pairwise fun c d => ¬ d.qubitSet ⊆ c.qubitSet ∧ d.qubitSet.card ≤ c.qubitSet.card

theorem Arranged.mem_done {cs : List (Cluster ι K)} {done : List (Member ι K)} (h : Arranged cs done)
    {c : Cluster ι K} (hc : c ∈ cs) {m : Member ι K} (hm : m ∈ c.members) : m ∈ done :=
  h.perm.mem_iff.1 (List.mem_flatMap.2 ⟨c, hc, hm⟩)

theorem card_qubitSet {t : Term K} (h : t.qubits.Nodup) : t.qubitSet.card = t.arity :=
  List.toFinset_card_of_nodup h

/-- The partition of terms whose qubits are distinct is arranged. -/
theorem arranged_partition (ms : List (Member ι K)) (h : ∀ m ∈ ms, m.term.qubits.Nodup) :
    Arranged (partition ms) ms := by
  have hfit := firstFit_partition ms
  have hperm := hfit.perm.trans (byArity_perm ms)
  have hcard : ∀ c ∈ partition ms, c.qubitSet.card = c.parent.term.arity := by
    intro c hc
    have hparent : c.parent ∈ ms := hperm.mem_iff.1 (List.mem_flatMap.2 ⟨c, hc, List.mem_cons_self⟩)
    rw [(hfit.nested c hc).support, card_qubitSet (h c.parent hparent)]
  have hwidth : (partition ms).Pairwise fun c d => d.parent.term.arity ≤ c.parent.term.arity :=
    List.pairwise_map.1 (inOrder_of_sublist hfit.parents).decreasing
  refine ⟨hfit.nested, hperm, (hfit.first.and hwidth).imp_of_mem fun {c d} hc hd hcd => ⟨fun hsub => ?_, ?_⟩⟩
  · -- the parent of the later cluster would have joined the earlier one
    rw [(hfit.nested d hd).support] at hsub
    exact hcd.1 d.parent List.mem_cons_self hsub
  · rw [hcard c hc, hcard d hd]
    exact hcd.2

/-! ### Other members on the same qubits -/

section MapMembers

variable {κ : Type} {f : Member ι K → Member κ K}

/-- The cluster with every member replaced, of which nothing has been merged yet. -/
def mapMembers (f : Member ι K → Member κ K) (c : Cluster ι K) : Cluster κ K :=
  ⟨f c.parent, c.rest.map f, c.support, none⟩

theorem byArity_map (hf : ∀ m, (f m).term.qubits = m.term.qubits) (ms : List (Member ι K)) :
    byArity (ms.map f) = (byArity ms).map f := by
  have harity (m : Member ι K) : (f m).term.arity = m.term.arity := congrArg List.length (hf m)
  simp only [byArity, List.map_map, List.map_flatMap, List.filter_map, Function.comp_def, harity]

theorem place_map (hf : ∀ m, (f m).term.qubits = m.term.qubits) (m : Member ι K) (cs : List (Cluster ι K)) :
    place (f m) (cs.map (mapMembers f)) = (place m cs).map (mapMembers f) := by
  induction cs with
  | nil => simp only [List.map_nil, place, List.map_cons, mapMembers, ofParent, hf]
  | cons c cs ih =>
    have hcovers : (mapMembers f c).covers (f m).term = c.covers m.term := by
      simp only [covers, mapMembers, hf]
    rw [List.map_cons, place, place, hcovers, ih]
    split
    · simp only [List.map_cons, append, mapMembers, hf, List.map_append, List.map_nil]
    · rfl

/-- Which clusters a partition has depends only on the qubits of the members. -/
theorem partition_map (hf : ∀ m, (f m).term.qubits = m.term.qubits) (ms : List (Member ι K)) :
    partition (ms.map f) = (partition ms).map (mapMembers f) := by
  have hfold (rest : List (Member ι K)) (cs : List (Cluster ι K)) :
      (rest.map f).foldl (fun cs m => place m cs) (cs.map (mapMembers f)) =
        (rest.foldl (fun cs m => place m cs) cs).map (mapMembers f) := by
    induction rest generalizing cs with
    | nil => rfl
    | cons m rest ih => rw [List.map_cons, List.foldl_cons, place_map hf, ih, List.foldl_cons]
  rw [partition, byArity_map hf]
  exact hfold (byArity ms) []

end MapMembers

/-! ### Maximal qubit sets -/

def qubitSets (ms : List (Member ι K)) : Finset (Finset ℕ) := (ms.map (·.term.qubitSet)).toFinset

/-- The qubit sets that lie in no larger qubit set. -/
def maximalSets (ms : List (Member ι K)) : Finset (Finset ℕ) :=
  (qubitSets ms).filter fun s => ∀ t ∈ qubitSets ms, s ⊆ t → s = t

theorem mem_qubitSets {ms : List (Member ι K)} {s : Finset ℕ} :
    s ∈ qubitSets ms ↔ ∃ m ∈ ms, m.term.qubitSet = s := by
  simp [qubitSets]

theorem mem_maximalSets {ms : List (Member ι K)} {s : Finset ℕ} :
    s ∈ maximalSets ms ↔ s ∈ qubitSets ms ∧ ∀ t ∈ qubitSets ms, s ⊆ t → s = t := Finset.mem_filter

theorem qubitSets_perm {ms ms' : List (Member ι K)} (h : ms'.Perm ms) : qubitSets ms' = qubitSets ms :=
  List.toFinset_eq_of_perm _ _ (h.map _)

namespace Arranged

variable {cs : List (Cluster ι K)} {ms : List (Member ι K)}

theorem qubitSet_mem (h : Arranged cs ms) {c : Cluster ι K} (hc : c ∈ cs) : c.qubitSet ∈ qubitSets ms :=
  mem_qubitSets.2 ⟨c.parent, h.mem_done hc List.mem_cons_self, ((h.nested c hc).support).symm⟩

/-- Every term lies inside some cluster. -/
theorem exists_cluster (h : Arranged cs ms) {s : Finset ℕ} (hs : s ∈ qubitSets ms) :
    ∃ c ∈ cs, s ⊆ c.qubitSet := by
  obtain ⟨m, hm, rfl⟩ := mem_qubitSets.1 hs
  obtain ⟨c, hc, hmc⟩ := List.mem_flatMap.1 (h.perm.mem_iff.2 hm)
  exact ⟨c, hc, (h.nested c hc).qubitSet_subset hmc⟩

/-- A cluster inside another one has the same qubits. -/
theorem eq_of_subset (h : Arranged cs ms) {c d : Cluster ι K} (hc : c ∈ cs) (hd : d ∈ cs)
    (hsub : c.qubitSet ⊆ d.qubitSet) : c.qubitSet = d.qubitSet := by
  by_contra hne
  obtain ⟨i, hi, rfl⟩ := List.getElem_of_mem hc
  obtain ⟨j, hj, rfl⟩ := List.getElem_of_mem hd
  have hpw := List.pairwise_iff_getElem.1 h.apart
  rcases Nat.lt_trichotomy i j with hij | rfl | hji
  · exact hne (Finset.eq_of_subset_of_card_le hsub (hpw i j hi hj hij).2)
  · exact hne rfl
  · exact (hpw j i hj hi hji).1 hsub

theorem nodup_qubitSets (h : Arranged cs ms) : (cs.map qubitSet).Nodup := by
  rw [List.nodup_iff_pairwise_ne, List.pairwise_map]
  exact h.apart.imp fun hcd e => hcd.1 e.symm.subset

/-- If all terms act on equally many qubits, a cluster holds exactly the terms on its qubits. -/
theorem members_perm_filter (h : Arranged cs ms) {k : ℕ} (hcard : ∀ m ∈ ms, m.term.qubitSet.card = k)
    {c : Cluster ι K} (hc : c ∈ cs) : c.members.Perm (ms.filter (·.term.qubitSet = c.qubitSet)) := by
  have hall : ∀ d ∈ cs, ∀ m ∈ d.members, m.term.qubitSet = d.qubitSet := by
    intro d hd m hm
    refine Finset.eq_of_subset_of_card_le ((h.nested d hd).qubitSet_subset hm) ?_
    rw [(h.nested d hd).support, hcard _ (h.mem_done hd List.mem_cons_self), hcard m (h.mem_done hd hm)]
  obtain ⟨before, after, rfl⟩ := List.append_of_mem hc
  have hnodup := h.nodup_qubitSets
  rw [List.map_append, List.map_cons, List.nodup_append, List.nodup_cons] at hnodup
  obtain ⟨-, ⟨hafter, -⟩, hbefore⟩ := hnodup
  have hfilter : ((before ++ c :: after).flatMap members).filter (·.term.qubitSet = c.qubitSet) = c.members := by
    rw [List.flatMap_append, List.flatMap_cons, List.filter_append, List.filter_append, List.filter_eq_nil_iff.2,
      List.filter_eq_self.2, List.filter_eq_nil_iff.2, List.nil_append, List.append_nil]
    · intro m hm
      obtain ⟨d, hd, hmd⟩ := List.mem_flatMap.1 hm
      rw [decide_eq_true_eq, hall d (by simp [hd]) m hmd]
      exact fun e => hafter (e ▸ List.mem_map_of_mem hd)
    · intro m hm
      rw [decide_eq_true_eq]
      exact hall c hc m hm
    · intro m hm
      obtain ⟨d, hd, hmd⟩ := List.mem_flatMap.1 hm
      rw [decide_eq_true_eq, hall d (by simp [hd]) m hmd]
      exact hbefore _ (List.mem_map_of_mem hd) _ List.mem_cons_self
  rw [← hfilter]
  exact h.perm.filter _

/-- The qubit sets of the clusters are the maximal ones. -/
theorem toFinset_qubitSets (h : Arranged cs ms) : (cs.map qubitSet).toFinset = maximalSets ms := by
  ext s
  rw [List.mem_toFinset, List.mem_map, mem_maximalSets]
  constructor
  · rintro ⟨c, hc, rfl⟩
    refine ⟨h.qubitSet_mem hc, fun t ht hct => ?_⟩
    obtain ⟨d, hd, htd⟩ := h.exists_cluster ht
    have hcd := h.eq_of_subset hc hd (hct.trans htd)
    exact hct.antisymm (hcd ▸ htd)
  · rintro ⟨hs, hmax⟩
    obtain ⟨c, hc, hsc⟩ := h.exists_cluster hs
    exact ⟨c, hc, (hmax _ (h.qubitSet_mem hc) hsc).symm⟩

theorem length_eq_card (h : Arranged cs ms) : cs.length = (maximalSets ms).card := by
  rw [← h.toFinset_qubitSets, List.toFinset_card_of_nodup h.nodup_qubitSets, List.length_map]

end Arranged

theorem maximalSets_antichain (ms : List (Member ι K)) :
    IsAntichain (· ⊆ ·) (maximalSets ms : Set (Finset ℕ)) := by
  intro s hs t ht hne hsub
  have hs' := mem_maximalSets.1 hs
  exact hne (hs'.2 t (mem_maximalSets.1 ht).1 hsub)

/-! ### Partitions into nested classes -/

/-- A partition of terms into classes, each with a member that contains all others. -/
structure Nesting (ms : List (Member ι K)) (classes : List (List (Member ι K))) : Prop where
  perm : classes.flatten.Perm ms
  top : ∀ cl ∈ classes, ∃ m ∈ cl, ∀ m' ∈ cl, m'.term.qubitSet ⊆ m.term.qubitSet

theorem Arranged.nesting {cs : List (Cluster ι K)} {ms : List (Member ι K)} (h : Arranged cs ms) :
    Nesting ms (cs.map members) where
  perm := by simpa [List.flatMap] using h.perm
  top cl hcl := by
    obtain ⟨c, hc, rfl⟩ := List.mem_map.1 hcl
    refine ⟨c.parent, List.mem_cons_self, fun m hm => ?_⟩
    rcases List.mem_cons.1 hm with rfl | hrest
    · exact subset_rfl
    · exact (h.nested c hc).rest m hrest

/-- Every maximal set is the qubit set of the top of some class, so a nesting has at least as
many classes as there are maximal sets. -/
theorem Nesting.card_le {ms : List (Member ι K)} {classes : List (List (Member ι K))}
    (h : Nesting ms classes) : (maximalSets ms).card ≤ classes.length := by
  have hcover : ∀ cl ∈ classes, ∃ t ∈ qubitSets ms, ∀ m ∈ cl, m.term.qubitSet ⊆ t := by
    intro cl hcl
    obtain ⟨m, hm, hmax⟩ := h.top cl hcl
    have hmem : m ∈ ms := h.perm.mem_iff.1 (List.mem_flatten.2 ⟨cl, hcl, hm⟩)
    exact ⟨m.term.qubitSet, mem_qubitSets.2 ⟨m, hmem, rfl⟩, hmax⟩
  choose! top htop hmax using hcover
  have hsub : maximalSets ms ⊆ (classes.map top).toFinset := by
    intro s hs
    obtain ⟨hs, hsmax⟩ := mem_maximalSets.1 hs
    obtain ⟨m, hm, rfl⟩ := mem_qubitSets.1 hs
    obtain ⟨cl, hcl, hmcl⟩ := List.mem_flatten.1 (h.perm.mem_iff.2 hm)
    rw [List.mem_toFinset, List.mem_map]
    exact ⟨cl, hcl, (hsmax _ (htop cl hcl) (hmax cl hcl m hmcl)).symm⟩
  calc (maximalSets ms).card
      ≤ (classes.map top).toFinset.card := Finset.card_le_card hsub
    _ ≤ (classes.map top).length := List.toFinset_card_le _
    _ = classes.length := List.length_map _

/-- First fit gives one cluster for each inclusion-maximal qubit set, which is the least number
of classes of any partition into nested classes. Number and qubit sets of the clusters do not
depend on the order of the terms. -/
theorem partition_optimal (ms : List (Member ι K)) (h : ∀ m ∈ ms, m.term.qubits.Nodup) :
    (partition ms).length = (maximalSets ms).card ∧
      ((partition ms).map qubitSet).Nodup ∧
      ((partition ms).map qubitSet).toFinset = maximalSets ms ∧
      IsAntichain (· ⊆ ·) {s | ∃ c ∈ partition ms, c.qubitSet = s} ∧
      IsLeast {k | ∃ classes, Nesting ms classes ∧ classes.length = k} (partition ms).length ∧
      ∀ ms' : List (Member ι K), ms'.Perm ms →
        (partition ms').length = (partition ms).length ∧
          ((partition ms').map qubitSet).toFinset = ((partition ms).map qubitSet).toFinset := by
  have harr := arranged_partition ms h
  refine ⟨harr.length_eq_card, harr.nodup_qubitSets, harr.toFinset_qubitSets, ?_, ⟨?_, ?_⟩, ?_⟩
  · have hset : {s | ∃ c ∈ partition ms, c.qubitSet = s} = (maximalSets ms : Set (Finset ℕ)) := by
      ext s
      simp [← harr.toFinset_qubitSets]
    rw [hset]
    exact maximalSets_antichain ms
  · exact ⟨_, harr.nesting, List.length_map _⟩
  · rintro k ⟨classes, hcl, rfl⟩
    rw [harr.length_eq_card]
    exact hcl.card_le
  · intro ms' hperm
    have harr' := arranged_partition ms' fun m hm => h m (hperm.mem_iff.1 hm)
    have hmax : maximalSets ms' = maximalSets ms := by rw [maximalSets, maximalSets, qubitSets_perm hperm]
    rw [harr'.length_eq_card, harr.length_eq_card, harr'.toFinset_qubitSets, harr.toFinset_qubitSets, hmax]
    exact ⟨rfl, rfl⟩

/-- Six terms on a chain with a constant and a repeated qubit set need two classes. -/
theorem partition_optimal_chain :
    let ms : List (Member ℕ ℕ) := [[1], [0, 1], [], [2, 1], [1, 0], [2]].zipIdx.map fun (qs, i) =>
      ⟨i, ⟨.dense qs (.identity (2 ^ qs.length)), none⟩⟩
    (∀ m ∈ ms, m.term.qubits.Nodup) ∧
      IsLeast {k | ∃ classes, Nesting ms classes ∧ classes.length = k} 2 := by
  intro ms
  have h : ∀ m ∈ ms, m.term.qubits.Nodup := by simp [ms, Term.qubits]
  have hlen : (partition ms).length = 2 := by decide +kernel
  exact ⟨h, hlen ▸ (partition_optimal ms h).2.2.2.2.1⟩

end Cluster

end QubitDynamics
