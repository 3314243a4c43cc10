import QubitDynamics.Proofs.Interpolating
import QubitDynamics.Proofs.ProductMatrix

/-! What can be built. A term is checked when a dense matrix is made into one; all
other ways to make terms, clusters, Hamiltonians and interpolations out of given
ones trust what they get. Still, whatever is built in any order of these steps is
sound: the qubits of a term are distinct, ascending in a product, and its matrix has
their dimension. Two terms can therefore be merged whenever the qubits of one
contain those of the other and their dimension is a word. Nothing is assumed of the
scalars, so this also holds of rounded ones.

The induction over the steps is done once, for all properties that hold of new terms
and are kept where a term is scaled, owned or merged; soundness is one of them. -/

namespace QubitDynamics

variable {ι K R : Type}

/-! ### Soundness -/

/-- A well-formed term, whose qubits ascend if it is a product. -/
structure Term.Sound (t : Term K) : Prop extends t.WellFormed where
  ascending : ∀ p, t.product? = some p → t.qubits.Pairwise (· < ·)

namespace Term

theorem Sound.withOwner {t : Term K} (h : t.Sound) (id : OwnerId) : (t.withOwner id).Sound :=
  ⟨⟨h.nodup, h.shape⟩, h.ascending⟩

theorem Sound.scaled [Zero K] [Mul K] {t : Term K} (h : t.Sound) (k : K) : (t.scaled k).Sound where
  toWellFormed := h.toWellFormed.scaled k
  ascending := by
    rw [qubits_scaled]
    rcases t with ⟨_ | p, _⟩
    · rintro p hp
      cases hp
    · exact fun _ _ => h.ascending p rfl

theorem sound_dense {qubits : List ℕ} {m : Mat K} {owner : Option OwnerId}
    (h : (⟨.dense qubits m, owner⟩ : Term K).WellFormed) : (⟨.dense qubits m, owner⟩ : Term K).Sound :=
  ⟨h, fun p hp => by cases hp⟩

theorem sound_of_ofValue {value : Value K} {qubits : List ℤ} {t : Term K} (h : ofValue value qubits = .ok t) :
    t.Sound := by
  obtain ⟨targets, m, rfl, hwf⟩ := ofValue_cases h
  exact sound_dense hwf

section

variable [Zero K] [One K] [Add K] [Mul K]

theorem sound_of_ofFactors [Zero R] [One R] [ComplexScalar K R] {k : K} {fs : List (Factor K)} {t : Term K}
    (h : ofFactors k fs = .ok t) : t.Sound := by
  obtain ⟨cs, -, hcs, rfl⟩ := ofFactors_cases h
  have hp := Product.valid_foldl_absorb hcs (Product.valid_ofCoefficient k)
  exact ⟨hp.wellFormed none, fun _ _ => hp.locals.ascending⟩

theorem Sound.merge {t child merged : Term K} (ht : t.Sound) (h : t.merge child = .ok merged) : merged.Sound := by
  obtain ⟨w, -, rfl⟩ := merge_cases h
  exact sound_dense ⟨ht.nodup, ht.shape.add w⟩

end

end Term

/-! ### What every step keeps -/

/-- Whatever holds terms. -/
inductive Item (K : Type) : Type 1 where
  | term (t : Term K)
  | cluster {ι : Type} (c : Cluster ι K)
  | hamiltonian (h : Hamiltonian K)
  | interpolation (p : Interpolation K)

section

variable [Zero K] [One K] [Add K] [Mul K] [Zero R] [One R] [ComplexScalar K R]

/-- Properties of terms that hold of new terms and are kept where terms are made of others. -/
structure Term.Kept (P : Term K → Prop) : Prop where
  ofValue {value : Value K} {qubits : List ℤ} {t : Term K} (h : Term.ofValue value qubits = .ok t) : P t
  ofFactors {k : K} {fs : List (Factor K)} {t : Term K} (h : Term.ofFactors k fs = .ok t) : P t
  scaled {t : Term K} (h : P t) (k : K) : P (t.scaled k)
  withOwner {t : Term K} (h : P t) (id : OwnerId) : P (t.withOwner id)
  merge {t child merged : Term K} (ht : P t) (hchild : P child) (h : t.merge child = .ok merged) : P merged

variable {P : Term K → Prop}

theorem Term.Kept.weighted (hP : Term.Kept P) {t : Term K} (h : P t) (w : Weights K) : P (Cluster.weighted w t) := by
  unfold Cluster.weighted
  split
  · exact hP.scaled h _
  · exact h

theorem Term.Kept.foldlM_merge (hP : Term.Kept P) {α : Type} {f : α → Term K} {as : List α} {acc merged : Term K}
    (hacc : P acc) (has : ∀ a ∈ as, P (f a)) (h : as.foldlM (fun acc a => acc.merge (f a)) acc = .ok merged) :
    P merged := by
  induction as generalizing acc with
  | nil =>
    cases h
    exact hacc
  | cons a as ih =>
    obtain ⟨ha, has⟩ := List.forall_mem_cons.1 has
    rw [List.foldlM_cons] at h
    cases hnext : acc.merge (f a) with
    | error e => simp [hnext, bind, Except.bind] at h
    | ok next =>
      rw [hnext] at h
      exact ih (hP.merge hacc ha hnext) has h

/-- All terms of a cluster have a property, also the one that it remembers. -/
structure Cluster.Forall (P : Term K → Prop) (c : Cluster ι K) : Prop where
  members : ∀ m ∈ c.members, P m.term
  memo : ∀ t, c.memo = some t → P t

def Item.Forall (P : Term K → Prop) : Item K → Prop
  | term t => P t
  | cluster c => c.Forall P
  | hamiltonian h => ∀ t ∈ h.terms, P t
  | interpolation p => ∀ c ∈ p.clusters, c.Forall P

namespace Cluster

section

omit [Zero K] [One K] [Add K] [Mul K]

theorem forall_ofParent {m : Member ι K} (h : P m.term) : (ofParent m).Forall P :=
  ⟨by simpa [ofParent, Cluster.members] using h, fun t ht => by cases ht⟩

theorem Forall.append {c : Cluster ι K} (hc : c.Forall P) {m : Member ι K} (hm : P m.term) :
    (c.append m).Forall P where
  members x hx := by
    rw [members_append] at hx
    rcases List.mem_append.1 hx with hx | hx
    · exact hc.members x hx
    · rwa [List.mem_singleton.1 hx]
  memo t ht := by cases ht

theorem forall_partition {ms : List (Member ι K)} (h : ∀ m ∈ ms, P m.term) : ∀ c ∈ partition ms, c.Forall P := by
  have hperm := (firstFit_partition ms).perm.trans (byArity_perm ms)
  intro c hc
  refine ⟨fun m hm => h m (hperm.mem_iff.1 (List.mem_flatMap.2 ⟨c, hc, hm⟩)), fun t ht => ?_⟩
  rw [memo_partition ms c hc] at ht
  cases ht

end

theorem Forall.collapse (hP : Term.Kept P) {c : Cluster ι K} (hc : c.Forall P) {w : Weights K} {t : Term K}
    (h : c.collapse w = .ok t) : P t := by
  obtain ⟨hparent, hrest⟩ := List.forall_mem_cons.1 hc.members
  exact hP.foldlM_merge (hP.weighted hparent w) (fun m hm => hP.weighted (hrest m hm) w) h

/-- The merged term is the one remembered or the collapsed one, which is then remembered. -/
theorem Forall.merged (hP : Term.Kept P) {c : Cluster ι K} (hc : c.Forall P) :
    c.merged.2.Forall P ∧ ∀ t, c.merged.1 = .ok t → P t := by
  unfold Cluster.merged
  cases hmemo : c.memo with
  | some u =>
    refine ⟨hc, fun t ht => ?_⟩
    cases ht
    exact hc.memo u hmemo
  | none =>
    cases hcollapse : c.collapse Weights.none with
    | error e => exact ⟨hc, fun t ht => by cases ht⟩
    | ok u =>
      have hu := hc.collapse hP hcollapse
      refine ⟨⟨hc.members, fun t ht => ?_⟩, fun t ht => ?_⟩
      · cases ht
        exact hu
      · cases ht
        exact hu

end Cluster

theorem Hamiltonian.forall_mergedTerms (hP : Term.Kept P) {h : Hamiltonian K} (hh : ∀ t ∈ h.terms, P t)
    {ts : List (Term K)} (hts : h.mergedTerms = (.ok ts : Except (DynamicsError R) _)) : ∀ t ∈ ts, P t := by
  intro t ht
  obtain ⟨c, hc, hmerged⟩ := exists_of_mapM_eq_ok (mapError_eq_ok.1 hts) t ht
  have hmembers : ∀ m ∈ h.terms.zipIdx.map fun x => (⟨x.2, x.1⟩ : Member ℕ K), P m.term := by
    intro m hm
    obtain ⟨x, hx, rfl⟩ := List.mem_map.1 hm
    exact hh x.1 (List.fst_mem_of_mem_zipIdx hx)
  exact ((Cluster.forall_partition hmembers c hc).merged hP).2 t hmerged

namespace Interpolation

omit [Zero K] [One K] [Add K] [Mul K] [Zero R] [One R] [ComplexScalar K R] in
theorem forall_between {start final : Hamiltonian K} (hstart : ∀ t ∈ start.terms, P t) (hfinal : ∀ t ∈ final.terms, P t)
    {p : Interpolation K} (hp : between start final = (.ok p : Except (DynamicsError R) _)) :
    ∀ c ∈ p.clusters, c.Forall P := by
  obtain ⟨-, -, -, hclusters⟩ := between_cases hp
  rw [hclusters]
  refine Cluster.forall_partition fun m hm => ?_
  rcases List.mem_append.1 hm with hm | hm
  · exact hstart m.term (term_mem hm)
  · exact hfinal m.term (term_mem hm)

theorem forall_mergedTerms [Sub R] (hP : Term.Kept P) {p : Interpolation K} (hp : ∀ c ∈ p.clusters, c.Forall P) {s : R}
    {ts : List (Term K)} (hts : p.mergedTerms s = (.ok ts : Except (DynamicsError R) _)) : ∀ t ∈ ts, P t := by
  intro t ht
  obtain ⟨c, hc, hcollapse⟩ := exists_of_mapM_eq_ok (mapError_eq_ok.1 hts) t ht
  exact (hp c hc).collapse hP hcollapse

end Interpolation

theorem Term.kept_sound : Term.Kept (Term.Sound (K := K)) where
  ofValue := sound_of_ofValue
  ofFactors := sound_of_ofFactors
  scaled := Sound.scaled
  withOwner := Sound.withOwner
  merge ht _ h := ht.merge h

end

/-! ### Reachable items -/

section

variable [Zero K] [One K] [Add K] [Mul K] [Zero R] [One R] [Sub R] [ComplexScalar K R]

/-- What can be built by any sequence of steps that succeed. -/
inductive Reachable : Item K → Prop where
  | ofValue {value : Value K} {qubits : List ℤ} {t : Term K} (h : Term.ofValue value qubits = .ok t) :
      Reachable (.term t)
  | ofFactors {k : K} {fs : List (Factor K)} {t : Term K} (h : Term.ofFactors k fs = .ok t) : Reachable (.term t)
  | scaled {t : Term K} (ht : Reachable (.term t)) (k : K) : Reachable (.term (t.scaled k))
  | withOwner {t : Term K} (ht : Reachable (.term t)) (id : OwnerId) : Reachable (.term (t.withOwner id))
  | merge {t child merged : Term K} (ht : Reachable (.term t)) (hchild : Reachable (.term child))
      (h : t.merge child = .ok merged) : Reachable (.term merged)
  | ofParent {ι : Type} {m : Member ι K} (hm : Reachable (.term m.term)) : Reachable (.cluster (.ofParent m))
  | append {ι : Type} {c : Cluster ι K} {m : Member ι K} (hc : Reachable (.cluster c))
      (hm : Reachable (.term m.term)) : Reachable (.cluster (c.append m))
  | partition {ι : Type} {ms : List (Member ι K)} (hms : ∀ m ∈ ms, Reachable (.term m.term)) {c : Cluster ι K}
      (hc : c ∈ Cluster.partition ms) : Reachable (.cluster c)
  | member {ι : Type} {c : Cluster ι K} (hc : Reachable (.cluster c)) {m : Member ι K} (hm : m ∈ c.members) :
      Reachable (.term m.term)
  | remember {ι : Type} {c : Cluster ι K} (hc : Reachable (.cluster c)) : Reachable (.cluster c.merged.2)
  | merged {ι : Type} {c : Cluster ι K} (hc : Reachable (.cluster c)) {t : Term K} (h : c.merged.1 = .ok t) :
      Reachable (.term t)
  | collapse {ι : Type} {c : Cluster ι K} (hc : Reachable (.cluster c)) {w : Weights K} {t : Term K}
      (h : c.collapse w = .ok t) : Reachable (.term t)
  | ofTerms {ts : List (Term K)} (hts : ∀ t ∈ ts, Reachable (.term t)) (id : OwnerId) :
      Reachable (.hamiltonian (.ofTerms id ts))
  | widen {h wide : Hamiltonian K} (hh : Reachable (.hamiltonian h)) {n : ℕ}
      (hw : h.widen n = (.ok wide : Except (DynamicsError R) _)) : Reachable (.hamiltonian wide)
  | summand {h : Hamiltonian K} (hh : Reachable (.hamiltonian h)) {t : Term K} (ht : t ∈ h.terms) :
      Reachable (.term t)
  | mergedTerms {h : Hamiltonian K} (hh : Reachable (.hamiltonian h)) {ts : List (Term K)}
      (hts : h.mergedTerms = (.ok ts : Except (DynamicsError R) _)) {t : Term K} (ht : t ∈ ts) : Reachable (.term t)
  | between {start final : Hamiltonian K} (hstart : Reachable (.hamiltonian start))
      (hfinal : Reachable (.hamiltonian final)) {p : Interpolation K}
      (hp : Interpolation.between start final = (.ok p : Except (DynamicsError R) _)) : Reachable (.interpolation p)
  | interpolated {p : Interpolation K} (hp : Reachable (.interpolation p)) {s : R} {ts : List (Term K)}
      (hts : p.mergedTerms s = .ok ts) {t : Term K} (ht : t ∈ ts) : Reachable (.term t)

/-- A property that the making of single terms keeps holds of all terms in every reachable item. -/
theorem Reachable.forall_of_kept {P : Term K → Prop} (hP : Term.Kept P) {x : Item K} (h : Reachable x) :
    x.Forall P := by
  induction h with
  | ofValue h => exact hP.ofValue h
  | ofFactors h => exact hP.ofFactors h
  | scaled _ k ih => exact hP.scaled ih k
  | withOwner _ id ih => exact hP.withOwner ih id
  | merge _ _ h iht ihc => exact hP.merge iht ihc h
  | ofParent _ ih => exact Cluster.forall_ofParent ih
  | append _ _ ihc ihm => exact Cluster.Forall.append ihc ihm
  | partition _ hc ih => exact Cluster.forall_partition ih _ hc
  | member _ hm ih => exact Cluster.Forall.members ih _ hm
  | remember _ ih => exact (Cluster.Forall.merged hP ih).1
  | merged _ h ih => exact (Cluster.Forall.merged hP ih).2 _ h
  | collapse _ h ih => exact Cluster.Forall.collapse hP ih h
  | ofTerms _ id ih =>
    intro t ht
    obtain ⟨s, hs, rfl⟩ := List.mem_map.1 ht
    exact hP.withOwner (ih s hs) id
  | widen _ hw ih =>
    unfold Hamiltonian.widen at hw
    split_ifs at hw
    cases hw
    exact ih
  | summand _ ht ih => exact ih _ ht
  | mergedTerms _ hts ht ih => exact Hamiltonian.forall_mergedTerms hP ih hts _ ht
  | between _ _ hp ihs ihf => exact Interpolation.forall_between ihs ihf hp
  | interpolated _ hts ht ih => exact Interpolation.forall_mergedTerms hP ih hts _ ht

/-- Each step keeps terms sound, so those of every reachable item are. -/
theorem Reachable.sound {x : Item K} (h : Reachable x) : x.Forall Term.Sound := h.forall_of_kept Term.kept_sound

/-- The register of a reachable Hamiltonian holds the qubits of all its terms. -/
theorem Reachable.lt_nqubits {h : Hamiltonian K} (hh : Reachable (.hamiltonian h)) :
    ∀ t ∈ h.terms, ∀ q ∈ t.qubits, q < h.nqubits := by
  generalize hx : Item.hamiltonian h = x at hh
  induction hh generalizing h with
  | ofTerms hts id =>
    cases hx
    intro t ht q hq
    obtain ⟨s, hs, rfl⟩ := List.mem_map.1 ht
    exact Hamiltonian.lt_registerSize hs hq
  | widen hh hw ih =>
    cases hx
    unfold Hamiltonian.widen at hw
    split_ifs at hw with hn
    cases hw
    exact fun t ht q hq => (ih rfl t ht q hq).trans_le (not_lt.1 hn)
  | _ => cases hx

theorem Reachable.fits {h : Hamiltonian K} (hh : Reachable (.hamiltonian h)) : ∀ t ∈ h.terms, t.Fits h.nqubits :=
  fun t ht => ⟨(hh.sound t ht).toWellFormed, hh.lt_nqubits t ht⟩

end

end QubitDynamics
