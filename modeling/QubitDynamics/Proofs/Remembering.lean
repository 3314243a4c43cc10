import QubitDynamics.Proofs.Merging

/-! Clusters that remember their sum. A cluster is asked for its sum, collapsed with
weights, extended and copied in any order; it keeps the sum once it has been
computed and forgets it when it is extended. What it keeps is always the sum of its
present members, so no answer ever depends on what is kept: a session in which the
sums are computed anew every time gives the same answers. -/

namespace QubitDynamics.Cluster

variable {ι K : Type} [Zero K] [One K] [Add K] [Mul K]

/-! ### Coherent clusters -/

/-- The qubits of a cluster are those of its members, and a sum that it remembers is theirs. -/
structure Coherent (c : Cluster ι K) : Prop where
  memo : ∀ t, c.memo = some t → c.collapse Weights.none = .ok t
  ascending : c.support.Pairwise (· < ·)
  support : ∀ q, q ∈ c.support ↔ ∃ m ∈ c.members, q ∈ m.term.qubits

theorem coherent_ofParent (m : Member ι K) : (ofParent m).Coherent where
  memo t ht := by cases ht
  ascending := pairwise_foldr_insertAscending m.term.qubits .nil
  support q := by simp [ofParent, members, mem_foldr_insertAscending]

/-- An extended cluster remembers nothing. -/
theorem Coherent.append {c : Cluster ι K} (h : c.Coherent) (m : Member ι K) : (c.append m).Coherent where
  memo t ht := by cases ht
  ascending := pairwise_foldr_insertAscending m.term.qubits h.ascending
  support q := by
    show q ∈ m.term.qubits.foldr insertAscending c.support ↔ _
    rw [mem_foldr_insertAscending, h.support, members_append]
    simp only [List.mem_append, List.mem_singleton, or_and_right, exists_or, exists_eq_left]
    exact or_comm

/-- What asking for the sum can do: a remembered sum is given, and otherwise the sum is computed and kept
unless it fails. -/
theorem merged_cases (c : Cluster ι K) :
    (∃ t, c.memo = some t ∧ c.merged = (.ok t, c)) ∨
    (∃ t, c.memo = none ∧ c.collapse Weights.none = .ok t ∧ c.merged = (.ok t, { c with memo := some t })) ∨
    ∃ e, c.memo = none ∧ c.collapse Weights.none = .error e ∧ c.merged = (.error e, c) := by
  unfold merged
  cases hmemo : c.memo with
  | some t => exact .inl ⟨t, rfl, rfl⟩
  | none =>
    cases hsum : c.collapse Weights.none with
    | ok t => exact .inr (.inl ⟨t, rfl, rfl, rfl⟩)
    | error e => exact .inr (.inr ⟨e, rfl, rfl, rfl⟩)

/-- Asking for the sum keeps the cluster coherent. -/
theorem Coherent.merged {c : Cluster ι K} (h : c.Coherent) : c.merged.2.Coherent := by
  rcases c.merged_cases with ⟨t, -, e⟩ | ⟨t, -, hsum, e⟩ | ⟨_, -, -, e⟩
  · rw [e]
    exact h
  · rw [e]
    refine ⟨fun u hu => ?_, h.ascending, h.support⟩
    cases hu
    exact hsum
  · rw [e]
    exact h

/-- The answer is the sum of the present members, whether it was remembered or not. -/
theorem Coherent.fst_merged_eq {c : Cluster ι K} (h : c.Coherent) : c.merged.1 = c.collapse Weights.none := by
  rcases c.merged_cases with ⟨t, hmemo, e⟩ | ⟨t, -, hsum, e⟩ | ⟨_, -, hsum, e⟩
  · rw [e, h.memo t hmemo]
  · rw [e, hsum]
  · rw [e, hsum]

/-- A sum that fails is not kept. -/
theorem memo_of_merged_error {c : Cluster ι K} {e : TermFault} (h : c.merged.1 = .error e) :
    c.merged.2.memo = none := by
  rcases c.merged_cases with ⟨t, -, hc⟩ | ⟨t, -, -, hc⟩ | ⟨_, hmemo, -, hc⟩
  · simp [hc] at h
  · simp [hc] at h
  · rw [hc]
    exact hmemo

/-! ### Sessions -/

/-- What a cluster can be asked for. -/
inductive Call (ι K : Type) where
  | append (m : Member ι K)
  | merged
  | collapse (w : Weights K)
  | clone

structure Request (ι K : Type) where
  position : ℕ
  call : Call ι K

def Call.next (c : Cluster ι K) : Call ι K → Cluster ι K
  | .append m => c.append m
  | .merged => c.merged.2
  | .collapse _ => c
  | .clone => c

def Call.answer? (c : Cluster ι K) : Call ι K → Option (Except TermFault (Term K))
  | .append _ => none
  | .merged => some c.merged.1
  | .collapse w => some (c.collapse w)
  | .clone => none

/-- The clusters that a call to `c` makes. -/
def Call.copies (c : Cluster ι K) : Call ι K → List (Cluster ι K)
  | .clone => [c]
  | _ => []

omit [Zero K] [One K] [Add K] [Mul K] in
theorem Call.eq_of_mem_copies {c d : Cluster ι K} {call : Call ι K} (h : d ∈ call.copies c) : d = c := by
  cases call with
  | clone => exact List.mem_singleton.1 h
  | append m => cases h
  | merged => cases h
  | collapse w => cases h

/-- Some clusters, and the answers that were given. -/
structure Session (ι K : Type) where
  clusters : List (Cluster ι K)
  answers : List (Except TermFault (Term K))

namespace Session

/-- One request. Copies come after the clusters that are there; a request to no cluster does nothing. -/
def serve (s : Session ι K) (r : Request ι K) : Session ι K :=
  match s.clusters[r.position]? with
  | none => s
  | some c => ⟨s.clusters.set r.position (r.call.next c) ++ r.call.copies c, s.answers ++ (r.call.answer? c).toList⟩

def run (rs : List (Request ι K)) (s : Session ι K) : Session ι K := rs.foldl serve s

def start (m : Member ι K) : Session ι K := ⟨[ofParent m], []⟩

@[simp] theorem run_nil (s : Session ι K) : run [] s = s := rfl

@[simp] theorem run_cons (r : Request ι K) (rs : List (Request ι K)) (s : Session ι K) :
    run (r :: rs) s = run rs (s.serve r) := rfl

theorem serve_of_none {s : Session ι K} {r : Request ι K} (h : s.clusters[r.position]? = none) : s.serve r = s := by
  rw [serve, h]

theorem serve_of_some {s : Session ι K} {r : Request ι K} {c : Cluster ι K} (h : s.clusters[r.position]? = some c) :
    s.serve r =
      ⟨s.clusters.set r.position (r.call.next c) ++ r.call.copies c, s.answers ++ (r.call.answer? c).toList⟩ := by
  rw [serve, h]

/-- A property of clusters that every call keeps holds throughout a session. -/
theorem forall_mem_run {P : Cluster ι K → Prop} (hnext : ∀ c (call : Call ι K), P c → P (call.next c))
    (rs : List (Request ι K)) {s : Session ι K} (h : ∀ c ∈ s.clusters, P c) : ∀ c ∈ (run rs s).clusters, P c := by
  induction rs generalizing s with
  | nil => exact h
  | cons r rs ih =>
    apply ih
    cases hr : s.clusters[r.position]? with
    | none => rwa [serve_of_none hr]
    | some d =>
      have hd : P d := h d (List.mem_of_getElem? hr)
      intro c hc
      rw [serve_of_some hr, List.mem_append] at hc
      rcases hc with hc | hc
      · rcases List.mem_or_eq_of_mem_set hc with hc | rfl
        · exact h c hc
        · exact hnext d r.call hd
      · rwa [Call.eq_of_mem_copies hc]

theorem coherent_run (rs : List (Request ι K)) {s : Session ι K} (h : ∀ c ∈ s.clusters, c.Coherent) :
    ∀ c ∈ (run rs s).clusters, c.Coherent := by
  refine forall_mem_run (fun c call hc => ?_) rs h
  cases call with
  | append m => exact hc.append m
  | merged => exact hc.merged
  | collapse w => exact hc
  | clone => exact hc

end Session

/-! ### Forgetting -/

def forget (c : Cluster ι K) : Cluster ι K := { c with memo := none }

theorem forget_merged (c : Cluster ι K) : c.merged.2.forget = c.forget := by
  rcases c.merged_cases with ⟨_, -, e⟩ | ⟨_, -, -, e⟩ | ⟨_, -, -, e⟩
  · rw [e]
  · rw [e]
    rfl
  · rw [e]

/-- The call that computes the sum anew instead of asking for it. -/
def Call.anew : Call ι K → Call ι K
  | .append m => .append m
  | .merged => .collapse Weights.none
  | .collapse w => .collapse w
  | .clone => .clone

def Request.anew (r : Request ι K) : Request ι K := ⟨r.position, r.call.anew⟩

def Call.isCollapse : Call ι K → Bool
  | .collapse _ => true
  | _ => false

theorem Call.forget_next (c : Cluster ι K) (call : Call ι K) : (call.next c).forget = call.anew.next c.forget := by
  cases call with
  | append m => rfl
  | merged => exact c.forget_merged
  | collapse w => rfl
  | clone => rfl

omit [Zero K] [One K] [Add K] [Mul K] in
theorem Call.map_forget_copies (c : Cluster ι K) (call : Call ι K) :
    (call.copies c).map forget = call.anew.copies c.forget := by
  cases call <;> rfl

/-- A coherent cluster answers as if it remembered nothing. -/
theorem Coherent.answer?_eq {c : Cluster ι K} (h : c.Coherent) (call : Call ι K) :
    call.answer? c = call.anew.answer? c.forget := by
  cases call with
  | append m => rfl
  | merged => exact congrArg some h.fst_merged_eq
  | collapse w => rfl
  | clone => rfl

namespace Session

def forget (s : Session ι K) : Session ι K := ⟨s.clusters.map Cluster.forget, s.answers⟩

theorem forget_serve {s : Session ι K} (h : ∀ c ∈ s.clusters, c.Coherent) (r : Request ι K) :
    (s.serve r).forget = s.forget.serve r.anew := by
  have hget : s.forget.clusters[r.anew.position]? = s.clusters[r.position]?.map Cluster.forget := List.getElem?_map
  cases hr : s.clusters[r.position]? with
  | none =>
    rw [hr, Option.map_none] at hget
    rw [serve_of_none hr, serve_of_none hget]
  | some c =>
    rw [hr, Option.map_some] at hget
    rw [serve_of_some hr, serve_of_some hget, (h c (List.mem_of_getElem? hr)).answer?_eq]
    simp only [forget, Request.anew, List.map_append, List.map_set, Call.forget_next, Call.map_forget_copies]

/-- Forgetting everything at the end of a session is computing every sum anew. -/
theorem forget_run (rs : List (Request ι K)) {s : Session ι K} (h : ∀ c ∈ s.clusters, c.Coherent) :
    (run rs s).forget = run (rs.map Request.anew) s.forget := by
  induction rs generalizing s with
  | nil => rfl
  | cons r rs ih =>
    have hstep : ∀ c ∈ (s.serve r).clusters, c.Coherent := coherent_run [r] h
    rw [run_cons, ih hstep, forget_serve h, List.map_cons, run_cons]

/-! ### What calls leave alone -/

theorem clusters_serve_congr {s s' : Session ι K} (h : s.clusters = s'.clusters) (r : Request ι K) :
    (s.serve r).clusters = (s'.serve r).clusters := by
  unfold serve
  rw [h]
  cases s'.clusters[r.position]? with
  | none => exact h
  | some c => rfl

theorem clusters_serve_collapse {s : Session ι K} {r : Request ι K} (h : r.call.isCollapse = true) :
    (s.serve r).clusters = s.clusters := by
  obtain ⟨i, call⟩ := r
  cases call with
  | append m => cases h
  | merged => cases h
  | clone => cases h
  | collapse w =>
    cases hr : s.clusters[i]? with
    | none => rw [serve_of_none hr]
    | some c =>
      obtain ⟨hi, rfl⟩ := List.getElem?_eq_some_iff.1 hr
      rw [serve_of_some hr]
      show s.clusters.set i s.clusters[i] ++ [] = s.clusters
      rw [List.append_nil, List.set_getElem_self]

/-- Collapsing with weights is not noticed by any later call. -/
theorem clusters_run_filter (rs : List (Request ι K)) {s s' : Session ι K} (h : s.clusters = s'.clusters) :
    (run rs s).clusters = (run (rs.filter (!·.call.isCollapse)) s').clusters := by
  induction rs generalizing s s' with
  | nil => exact h
  | cons r rs ih =>
    by_cases hr : r.call.isCollapse = true
    · rw [List.filter_cons_of_neg (by simp [hr]), run_cons]
      exact ih ((clusters_serve_collapse hr).trans h)
    · rw [List.filter_cons_of_pos (by simp [hr]), run_cons, run_cons]
      exact ih (clusters_serve_congr h r)

/-- A later state of a cluster: members are only added at the end, and no qubit is lost. -/
structure Grown (c d : Cluster ι K) : Prop where
  members : c.members <+: d.members
  support : c.support ⊆ d.support

omit [Zero K] [One K] [Add K] [Mul K] in
theorem Grown.refl (c : Cluster ι K) : Grown c c := ⟨List.prefix_rfl, List.Subset.refl _⟩

omit [Zero K] [One K] [Add K] [Mul K] in
theorem Grown.trans {c d e : Cluster ι K} (h : Grown c d) (h' : Grown d e) : Grown c e :=
  ⟨h.members.trans h'.members, List.Subset.trans h.support h'.support⟩

theorem grown_next (c : Cluster ι K) (call : Call ι K) : Grown c (call.next c) := by
  cases call with
  | append m =>
    refine ⟨List.prefix_append c.members [m], fun q hq => ?_⟩
    exact mem_foldr_insertAscending.2 (.inr hq)
  | merged =>
    have hmembers : c.merged.2.members = c.members := (congrArg Cluster.members c.forget_merged :)
    have hsupport : c.merged.2.support = c.support := (congrArg Cluster.support c.forget_merged :)
    show Grown c c.merged.2
    refine ⟨?_, ?_⟩
    · rw [hmembers]
    · rw [hsupport]
      exact List.Subset.refl _
  | collapse w => exact .refl c
  | clone => exact .refl c

theorem exists_grown_serve {s : Session ι K} {i : ℕ} {c : Cluster ι K} (h : s.clusters[i]? = some c)
    (r : Request ι K) : ∃ d, (s.serve r).clusters[i]? = some d ∧ Grown c d := by
  obtain ⟨hi, -⟩ := List.getElem?_eq_some_iff.1 h
  cases hr : s.clusters[r.position]? with
  | none =>
    rw [serve_of_none hr]
    exact ⟨c, h, .refl c⟩
  | some e =>
    rw [serve_of_some hr, List.getElem?_append_left (by simpa using hi), List.getElem?_set]
    by_cases hpos : r.position = i
    · rw [hpos, h, Option.some.injEq] at hr
      rw [if_pos hpos, if_pos (hpos ▸ hi), hr]
      exact ⟨_, rfl, grown_next e r.call⟩
    · rw [if_neg hpos]
      exact ⟨c, h, .refl c⟩

theorem exists_grown_run (rs : List (Request ι K)) {s : Session ι K} {i : ℕ} {c : Cluster ι K}
    (h : s.clusters[i]? = some c) : ∃ d, (run rs s).clusters[i]? = some d ∧ Grown c d := by
  induction rs generalizing s c with
  | nil => exact ⟨c, h, .refl c⟩
  | cons r rs ih =>
    obtain ⟨d, hd, hcd⟩ := exists_grown_serve h r
    obtain ⟨e, he, hde⟩ := ih hd
    exact ⟨e, he, hcd.trans hde⟩

/-- In a session that begins with one cluster, every answer is the one that a cluster without memory gives:
asking for the sum is collapsing the present members without weights, also when it fails, and then nothing is
remembered. Collapsing with weights changes no cluster, the qubits of a cluster are those of its members, and
they never become fewer. -/
theorem run_answers_anew (seed : Member ι K) (rs : List (Request ι K)) :
    (run rs (start seed)).forget = run (rs.map Request.anew) (start seed) ∧
    (run rs (start seed)).clusters = (run (rs.filter (!·.call.isCollapse)) (start seed)).clusters ∧
    (∀ c ∈ (run rs (start seed)).clusters,
      c.merged.1 = c.collapse Weights.none ∧ (∀ e, c.merged.1 = .error e → c.merged.2.memo = none) ∧
      c.support.Pairwise (· < ·) ∧ ∀ q, q ∈ c.support ↔ ∃ m ∈ c.members, q ∈ m.term.qubits) ∧
    ∀ (more : List (Request ι K)) (i : ℕ) (c : Cluster ι K), (run rs (start seed)).clusters[i]? = some c →
      ∃ d, (run more (run rs (start seed))).clusters[i]? = some d ∧ c.members <+: d.members ∧
        c.support ⊆ d.support := by
  have hstart : ∀ c ∈ (start seed).clusters, c.Coherent := by
    intro c hc
    rw [List.mem_singleton.1 hc]
    exact coherent_ofParent seed
  refine ⟨forget_run rs hstart, clusters_run_filter rs rfl, fun c hc => ?_, fun more i c hc => ?_⟩
  · have hcoherent := coherent_run rs hstart c hc
    exact ⟨hcoherent.fst_merged_eq, fun e he => memo_of_merged_error he, hcoherent.ascending, hcoherent.support⟩
  · obtain ⟨d, hd, hgrown⟩ := exists_grown_run more hc
    exact ⟨d, hd, hgrown.members, hgrown.support⟩

end Session

end QubitDynamics.Cluster
