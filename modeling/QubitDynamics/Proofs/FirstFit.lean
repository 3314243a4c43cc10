import Mathlib.Data.Finset.Card
import Mathlib.Order.Bounds.Basic
import QubitDynamics.Proofs.Loops
import QubitDynamics.Term.Cluster

/-! Which cluster each term joins. Terms are placed one after the other, wide ones
first and equally wide ones in the order in which they are given. A term joins the
first cluster that covers it and never extends its qubits, so the qubits of a
cluster are those of its parent from the start and a term is never covered by a
cluster before its own. Nothing is assumed of the terms. -/

namespace QubitDynamics

variable {ι K : Type}

def Term.qubitSet (t : Term K) : Finset ℕ := t.qubits.toFinset

namespace Cluster

def qubitSet (c : Cluster ι K) : Finset ℕ := c.support.toFinset

/-! ### Supports -/

theorem mem_insertAscending {x q : ℕ} {l : List ℕ} : x ∈ insertAscending q l ↔ x = q ∨ x ∈ l := by
  induction l with
  | nil => simp [insertAscending]
  | cons p ps ih =>
    unfold insertAscending
    split_ifs with hlt heq
    · simp
    · simp [heq]
    · simp only [List.mem_cons, ih]
      tauto

theorem mem_foldr_insertAscending {x : ℕ} {qs l : List ℕ} : x ∈ qs.foldr insertAscending l ↔ x ∈ qs ∨ x ∈ l := by
  induction qs with
  | nil => simp
  | cons q qs ih => rw [List.foldr_cons, mem_insertAscending, ih, List.mem_cons, or_assoc]

theorem toFinset_foldr_insertAscending (qs l : List ℕ) :
    (qs.foldr insertAscending l).toFinset = qs.toFinset ∪ l.toFinset := by
  ext x
  simp [mem_foldr_insertAscending]

theorem pairwise_insertAscending {q : ℕ} {l : List ℕ} (h : l.Pairwise (· < ·)) :
    (insertAscending q l).Pairwise (· < ·) := by
  induction l with
  | nil => simp [insertAscending]
  | cons p ps ih =>
    obtain ⟨hp, hps⟩ := List.pairwise_cons.1 h
    unfold insertAscending
    split_ifs with hlt heq
    · refine List.pairwise_cons.2 ⟨fun x hx => ?_, h⟩
      rcases List.mem_cons.1 hx with rfl | hx
      · exact hlt
      · exact hlt.trans (hp x hx)
    · exact h
    · refine List.pairwise_cons.2 ⟨fun x hx => ?_, ih hps⟩
      rcases mem_insertAscending.1 hx with rfl | hx
      · omega
      · exact hp x hx

theorem pairwise_foldr_insertAscending (qs : List ℕ) {l : List ℕ} (h : l.Pairwise (· < ·)) :
    (qs.foldr insertAscending l).Pairwise (· < ·) := by
  induction qs with
  | nil => exact h
  | cons q qs ih => exact pairwise_insertAscending ih

theorem qubitSet_ofParent (m : Member ι K) : (ofParent m).qubitSet = m.term.qubitSet := by
  simp [qubitSet, ofParent, toFinset_foldr_insertAscending, Term.qubitSet]

theorem qubitSet_append (c : Cluster ι K) (m : Member ι K) :
    (c.append m).qubitSet = m.term.qubitSet ∪ c.qubitSet :=
  toFinset_foldr_insertAscending m.term.qubits c.support

theorem covers_iff (c : Cluster ι K) (t : Term K) : c.covers t = true ↔ t.qubitSet ⊆ c.qubitSet := by
  simp [covers, Term.qubitSet, qubitSet, Finset.subset_iff]

/-! ### One placement -/

/-- A term joins the first cluster that covers it, or opens a new one at the end. -/
theorem place_cases (m : Member ι K) (cs : List (Cluster ι K)) :
    (∃ before c after, cs = before ++ c :: after ∧ m.term.qubitSet ⊆ c.qubitSet ∧
      (∀ d ∈ before, ¬ m.term.qubitSet ⊆ d.qubitSet) ∧ place m cs = before ++ c.append m :: after) ∨
    ((∀ d ∈ cs, ¬ m.term.qubitSet ⊆ d.qubitSet) ∧ place m cs = cs ++ [ofParent m]) := by
  induction cs with
  | nil => exact .inr ⟨by simp, rfl⟩
  | cons c cs ih =>
    unfold place
    by_cases hc : c.covers m.term = true
    · rw [if_pos hc]
      exact .inl ⟨[], c, cs, rfl, (covers_iff c m.term).1 hc, by simp, rfl⟩
    · rw [if_neg hc]
      rw [covers_iff] at hc
      rcases ih with ⟨before, d, after, rfl, hd, hbefore, hplace⟩ | ⟨hall, hplace⟩
      · refine .inl ⟨c :: before, d, after, rfl, hd, ?_, by rw [hplace]; rfl⟩
        simpa [hc] using hbefore
      · refine .inr ⟨?_, by rw [hplace]; rfl⟩
        simpa [hc] using hall

/-- A property of clusters that opening one and joining one that covers the term keep. -/
theorem forall_mem_place {P : Cluster ι K → Prop} {m : Member ι K} {cs : List (Cluster ι K)} (hopen : P (ofParent m))
    (hjoin : ∀ c ∈ cs, m.term.qubitSet ⊆ c.qubitSet → P (c.append m)) (h : ∀ c ∈ cs, P c) :
    ∀ c ∈ place m cs, P c := by
  intro c hc
  rcases place_cases m cs with ⟨before, d, after, rfl, hsub, -, e⟩ | ⟨-, e⟩
  · rw [e, List.mem_append, List.mem_cons] at hc
    rcases hc with hb | rfl | ha
    · exact h c (by simp [hb])
    · exact hjoin d (by simp) hsub
    · exact h c (by simp [ha])
  · rw [e, List.mem_append, List.mem_singleton] at hc
    rcases hc with hc | rfl
    · exact h c hc
    · exact hopen

/-- A property of new clusters that joining keeps holds of every cluster of a partition. -/
theorem forall_mem_partition {P : Cluster ι K → Prop} (hopen : ∀ m, P (ofParent m))
    (hjoin : ∀ c m, P c → P (c.append m)) (ms : List (Member ι K)) : ∀ c ∈ partition ms, P c := by
  have hfold (rest : List (Member ι K)) {cs : List (Cluster ι K)} (h : ∀ c ∈ cs, P c) :
      ∀ c ∈ rest.foldl (fun cs m => place m cs) cs, P c := by
    induction rest generalizing cs with
    | nil => exact h
    | cons m rest ih => exact ih (forall_mem_place (hopen m) (fun c hc _ => hjoin c m (h c hc)) h)
  exact hfold (byArity ms) (by simp)

theorem members_append (c : Cluster ι K) (m : Member ι K) : (c.append m).members = c.members ++ [m] := rfl

/-- Placing a term adds it to the members of the clusters and leaves the others. -/
theorem members_place_perm (m : Member ι K) (cs : List (Cluster ι K)) :
    ((place m cs).flatMap members).Perm (cs.flatMap members ++ [m]) := by
  rcases place_cases m cs with ⟨before, c, after, rfl, -, -, e⟩ | ⟨-, e⟩
  · rw [e, List.flatMap_append, List.flatMap_cons, members_append, List.flatMap_append, List.flatMap_cons]
    simp only [List.append_assoc]
    exact List.Perm.append_left _ (List.Perm.append_left _ List.perm_append_comm)
  · rw [e, List.flatMap_append]
    rfl

/-- All members of a cluster act inside the qubits of its parent. -/
structure Nested (c : Cluster ι K) : Prop where
  support : c.qubitSet = c.parent.term.qubitSet
  rest : ∀ m ∈ c.rest, m.term.qubitSet ⊆ c.parent.term.qubitSet

theorem Nested.qubitSet_subset {c : Cluster ι K} (h : c.Nested) {m : Member ι K} (hm : m ∈ c.members) :
    m.term.qubitSet ⊆ c.qubitSet := by
  rw [h.support]
  rcases List.mem_cons.1 hm with rfl | hrest
  · exact subset_rfl
  · exact h.rest m hrest

theorem nested_ofParent (m : Member ι K) : (ofParent m).Nested :=
  ⟨qubitSet_ofParent m, by simp [ofParent]⟩

theorem qubitSet_append_of_subset {c : Cluster ι K} {m : Member ι K} (h : m.term.qubitSet ⊆ c.qubitSet) :
    (c.append m).qubitSet = c.qubitSet := by
  rw [qubitSet_append, Finset.union_eq_right.2 h]

theorem Nested.append {c : Cluster ι K} (hc : c.Nested) {m : Member ι K}
    (h : m.term.qubitSet ⊆ c.qubitSet) : (c.append m).Nested where
  support := (qubitSet_append_of_subset h).trans hc.support
  rest m' hm' := by
    rcases List.mem_append.1 hm' with hr | hm
    · exact hc.rest m' hr
    · rw [List.mem_singleton.1 hm]
      exact h.trans hc.support.subset

/-! ### The order of placement -/

theorem arity_le_widest {ms : List (Member ι K)} {m : Member ι K} (hm : m ∈ ms) :
    m.term.arity ≤ (ms.map (·.term.arity)).foldl max 0 := by
  rw [List.foldl_map]
  exact (foldl_max_le_iff (f := fun m => m.term.arity).1 le_rfl).2 m hm

/-- The buckets of arity below `k` together hold the members of arity below `k`. -/
theorem buckets_perm (ms : List (Member ι K)) (k : ℕ) :
    ((List.range k).reverse.flatMap fun a => ms.filter (·.term.arity = a)).Perm
      (ms.filter (·.term.arity < k)) := by
  induction k with
  | zero => simp
  | succ k ih =>
    rw [List.range_succ, List.reverse_append, List.reverse_singleton, List.flatMap_append, List.flatMap_singleton]
    have hsplit := List.filter_append_perm (·.term.arity = k) (ms.filter (·.term.arity < k + 1))
    rw [List.filter_filter, List.filter_filter] at hsplit
    have htop : ms.filter (fun m => decide (m.term.arity = k) && decide (m.term.arity < k + 1)) =
        ms.filter (·.term.arity = k) :=
      List.filter_congr fun m _ => by
        rw [Bool.eq_iff_iff]
        simp only [Bool.and_eq_true, decide_eq_true_eq]
        omega
    have hlow : ms.filter (fun m => !decide (m.term.arity = k) && decide (m.term.arity < k + 1)) =
        ms.filter (·.term.arity < k) :=
      List.filter_congr fun m _ => by
        rw [Bool.eq_iff_iff]
        simp only [Bool.and_eq_true, Bool.not_eq_true', decide_eq_true_eq, decide_eq_false_iff_not]
        omega
    rw [htop, hlow] at hsplit
    exact (List.Perm.append_left _ ih).trans hsplit

theorem byArity_perm (ms : List (Member ι K)) : (byArity ms).Perm ms := by
  have hall : ms.filter (·.term.arity < (ms.map (·.term.arity)).foldl max 0 + 1) = ms := by
    rw [List.filter_eq_self]
    intro m hm
    have hle := arity_le_widest hm
    rw [decide_eq_true_eq]
    omega
  exact (buckets_perm ms _).trans (.of_eq hall)

/-- The buckets of arity below `n` hold the members of one arity `k` in their order. -/
theorem filter_buckets (ms : List (Member ι K)) (n k : ℕ) :
    ((List.range n).reverse.flatMap fun a => ms.filter (·.term.arity = a)).filter (·.term.arity = k) =
      if k < n then ms.filter (·.term.arity = k) else [] := by
  induction n with
  | zero => simp
  | succ n ih =>
    rw [List.range_succ, List.reverse_append, List.reverse_singleton, List.flatMap_append, List.flatMap_singleton,
      List.filter_append, ih, List.filter_filter]
    by_cases hk : k = n
    · subst hk
      simp
    · have htop : ms.filter (fun m => decide (m.term.arity = k) && decide (m.term.arity = n)) = [] := by
        rw [List.filter_eq_nil_iff]
        intro m _
        simp only [Bool.and_eq_true, decide_eq_true_eq]
        omega
      rw [htop, List.nil_append]
      exact if_congr (by omega) rfl rfl

/-- Members of one arity keep their order. -/
theorem filter_byArity (ms : List (Member ι K)) (k : ℕ) :
    (byArity ms).filter (·.term.arity = k) = ms.filter (·.term.arity = k) := by
  unfold byArity
  rw [filter_buckets]
  split_ifs with hk
  · rfl
  · symm
    rw [List.filter_eq_nil_iff]
    intro m hm
    have hle := arity_le_widest hm
    rw [decide_eq_true_eq]
    omega

/-- Members come in the order of decreasing arity. -/
theorem byArity_pairwise (ms : List (Member ι K)) :
    (byArity ms).Pairwise fun a b => b.term.arity ≤ a.term.arity := by
  unfold byArity
  rw [List.pairwise_flatMap]
  have harity {k : ℕ} {m : Member ι K} (hm : m ∈ ms.filter (·.term.arity = k)) : m.term.arity = k := by
    simpa using (List.mem_filter.1 hm).2
  constructor
  · intro k _
    refine List.pairwise_of_forall_mem_list fun a ha b hb => ?_
    rw [harity ha, harity hb]
  · rw [List.pairwise_reverse]
    refine List.pairwise_lt_range.imp fun {k k'} hk a ha b hb => ?_
    rw [harity ha, harity hb]
    omega

/-! ### The whole partition -/

/-- The clusters after the terms `done` are placed in their order: every cluster is nested, the members
are the terms, no member is covered by a cluster before its own, and parents and members stand in the
order of placement. -/
structure FirstFit (cs : List (Cluster ι K)) (done : List (Member ι K)) : Prop where
  nested : ∀ c ∈ cs, c.Nested
  perm : (cs.flatMap members).Perm done
  first : cs.Pairwise fun c d => ∀ m ∈ d.members, ¬ m.term.qubitSet ⊆ c.qubitSet
  parents : (cs.map parent).Sublist done
  members : ∀ c ∈ cs, c.members.Sublist done

theorem FirstFit.place {cs : List (Cluster ι K)} {done : List (Member ι K)} (h : FirstFit cs done) (m : Member ι K) :
    FirstFit (place m cs) (done ++ [m]) where
  nested := forall_mem_place (nested_ofParent m) (fun c hc hsub => (h.nested c hc).append hsub) h.nested
  perm := (members_place_perm m cs).trans (h.perm.append_right [m])
  first := by
    rcases place_cases m cs with ⟨before, c, after, rfl, hsub, hbefore, e⟩ | ⟨hall, e⟩
    · -- only the new member is compared with other clusters, and only with those before
      obtain ⟨hb, hca, hcross⟩ := List.pairwise_append.1 h.first
      obtain ⟨hc, ha⟩ := List.pairwise_cons.1 hca
      rw [e, List.pairwise_append, List.pairwise_cons, qubitSet_append_of_subset hsub]
      refine ⟨hb, ⟨hc, ha⟩, fun d hd x hx => ?_⟩
      rcases List.mem_cons.1 hx with rfl | hx
      · intro y hy
        rw [members_append] at hy
        rcases List.mem_append.1 hy with hy | hy
        · exact hcross d hd c List.mem_cons_self y hy
        · rw [List.mem_singleton.1 hy]
          exact hbefore d hd
      · exact hcross d hd x (List.mem_cons_of_mem c hx)
    · rw [e, List.pairwise_append]
      refine ⟨h.first, List.pairwise_singleton _ _, fun c hc d hd x hx => ?_⟩
      rw [List.mem_singleton.1 hd] at hx
      rw [List.mem_singleton.1 hx]
      exact hall c hc
  parents := by
    rcases place_cases m cs with ⟨before, c, after, rfl, -, -, e⟩ | ⟨-, e⟩
    · have hsame : (before ++ c.append m :: after).map parent = (before ++ c :: after).map parent := by
        simp [Cluster.append]
      rw [e, hsame]
      exact h.parents.trans (List.sublist_append_left done [m])
    · rw [e, List.map_append]
      exact h.parents.append_right [m]
  members := forall_mem_place (List.sublist_append_right done [m])
    (fun c hc _ => (h.members c hc).append_right [m])
    fun c hc => (h.members c hc).trans (List.sublist_append_left done [m])

theorem FirstFit.foldl_place (rest : List (Member ι K)) {done : List (Member ι K)} {cs : List (Cluster ι K)}
    (h : FirstFit cs done) : FirstFit (rest.foldl (fun cs m => Cluster.place m cs) cs) (done ++ rest) := by
  induction rest generalizing done cs with
  | nil => simpa using h
  | cons m rest ih => simpa using ih (h.place m)

theorem firstFit_partition (ms : List (Member ι K)) : FirstFit (partition ms) (byArity ms) := by
  have hstart : FirstFit ([] : List (Cluster ι K)) [] := ⟨by simp, by simp, .nil, by simp, by simp⟩
  exact hstart.foldl_place (byArity ms)

theorem ascending_support_partition (ms : List (Member ι K)) : ∀ c ∈ partition ms, c.support.Pairwise (· < ·) :=
  forall_mem_partition (fun m => pairwise_foldr_insertAscending m.term.qubits .nil)
    (fun _ m h => pairwise_foldr_insertAscending m.term.qubits h) ms

/-- Some of the members `ms`, by decreasing arity and, where arities agree, in the order of `ms`. -/
structure InOrder (ms picked : List (Member ι K)) : Prop where
  decreasing : picked.Pairwise fun a b => b.term.arity ≤ a.term.arity
  ties : ∀ k, (picked.filter (·.term.arity = k)).Sublist ms

theorem inOrder_of_sublist {ms picked : List (Member ι K)} (h : picked.Sublist (byArity ms)) : InOrder ms picked where
  decreasing := (byArity_pairwise ms).sublist h
  ties k := by
    have hfilter := h.filter (·.term.arity = k)
    rw [filter_byArity] at hfilter
    exact hfilter.trans List.filter_sublist

/-- First fit places every given member once. A cluster acts on the qubits of its parent and its members
inside them; each member lies in the first cluster whose parent covers it; and parents, as well as the
members of a cluster, come by decreasing arity with ties in the given order. -/
theorem partition_first_fit (ms : List (Member ι K)) :
    ((partition ms).flatMap members).Perm ms ∧
    (∀ c ∈ partition ms, c.support.Pairwise (· < ·) ∧ c.qubitSet = c.parent.term.qubitSet ∧
      ∀ m ∈ c.members, m.term.qubitSet ⊆ c.parent.term.qubitSet) ∧
    (∀ (i : ℕ) (c : Cluster ι K), (partition ms)[i]? = some c → ∀ m ∈ c.members,
      IsLeast {j : ℕ | ∃ d : Cluster ι K, (partition ms)[j]? = some d ∧ m.term.qubitSet ⊆ d.parent.term.qubitSet} i) ∧
    InOrder ms ((partition ms).map parent) ∧ ∀ c ∈ partition ms, InOrder ms c.members := by
  have h := firstFit_partition ms
  have hinside : ∀ c ∈ partition ms, ∀ m ∈ c.members, m.term.qubitSet ⊆ c.parent.term.qubitSet := by
    intro c hc m hm
    rw [← (h.nested c hc).support]
    exact (h.nested c hc).qubitSet_subset hm
  refine ⟨h.perm.trans (byArity_perm ms), fun c hc => ⟨ascending_support_partition ms c hc,
    (h.nested c hc).support, hinside c hc⟩, fun i c hi m hm => ⟨⟨c, hi, ?_⟩, ?_⟩,
    inOrder_of_sublist h.parents, fun c hc => inOrder_of_sublist (h.members c hc)⟩
  · exact hinside c (List.mem_of_getElem? hi) m hm
  · -- a covering cluster before the own one would have been chosen
    rintro j ⟨d, hj, hsub⟩
    by_contra hlt
    obtain ⟨hi', rfl⟩ := List.getElem?_eq_some_iff.1 hi
    obtain ⟨hj', rfl⟩ := List.getElem?_eq_some_iff.1 hj
    have hnot := List.pairwise_iff_getElem.1 h.first j i hj' hi' (by omega) m hm
    rw [(h.nested _ (List.getElem_mem hj')).support] at hnot
    exact hnot hsub

end Cluster

end QubitDynamics
