import QubitDynamics.Proofs.Merging
import QubitDynamics.Proofs.Scaling

/-! Products in written order. The matrix of a product is assembled qubit by qubit, and
the order in which its occurrences were written is not looked at again. It is not lost
either: among the occurrences those on one qubit keep their order and commute with all
others, so they can be moved to the front as one block, qubit after qubit. Hence the
assembled matrix, embedded into any register, is the coefficient times the embedded
occurrences as they are written. -/

namespace QubitDynamics

open Register

variable {K R : Type} {n : ℕ}

/-! ### Occurrences on a register -/

namespace Occurrence

/-- Occurrences of a two by two matrix on a qubit of a register. -/
structure Fits (n : ℕ) (o : Occurrence K) : Prop where
  lt : o.qubit < n
  shape : o.matrix.HasShape 2 2

def operator [Zero K] (n : ℕ) (o : Occurrence K) : Matrix (Fin (2 ^ n)) (Fin (2 ^ n)) K :=
  Register.operator n [o.qubit] o.matrix

def written [Semiring K] (n : ℕ) (os : List (Occurrence K)) : Matrix (Fin (2 ^ n)) (Fin (2 ^ n)) K :=
  (os.map (operator n)).prod

theorem written_cons [Semiring K] (n : ℕ) (o : Occurrence K) (os : List (Occurrence K)) :
    written n (o :: os) = o.operator n * written n os := by
  rw [written, List.map_cons, List.prod_cons, written]

theorem written_append [Semiring K] (n : ℕ) (os us : List (Occurrence K)) :
    written n (os ++ us) = written n os * written n us := by
  rw [written, List.map_append, List.prod_append, written, written]

theorem Fits.targets {o : Occurrence K} (h : o.Fits n) : Targets n [o.qubit] := ⟨by simp [h.lt], by simp⟩

theorem Fits.embed_eq [Zero K] {o : Occurrence K} (h : o.Fits n) (hn : n < 64) :
    embed o.matrix [o.qubit] n = .ok (embedding o.matrix [o.qubit] n) := h.targets.embed_eq hn h.shape

def onlyAt (os : List (Occurrence K)) (q : ℕ) : List (Mat K) := (os.filter (·.qubit = q)).map (·.matrix)

theorem shape_of_mem_onlyAt {os : List (Occurrence K)} (hos : ∀ o ∈ os, o.Fits n) (q : ℕ) :
    ∀ m ∈ onlyAt os q, m.HasShape 2 2 := by
  intro m hm
  obtain ⟨o, ho, rfl⟩ := List.mem_map.1 hm
  exact (hos o (List.mem_of_mem_filter ho)).shape

/-- The occurrences on one qubit can be moved to the front. -/
theorem written_eq_onQubit_mul [CommSemiring K] {os : List (Occurrence K)} (hos : ∀ o ∈ os, o.Fits n) {q : ℕ}
    (hq : q < n) : written n os = onQubit n q (onlyAt os q) * written n (os.filter (·.qubit ≠ q)) := by
  induction os with
  | nil => simp [written, onQubit, onlyAt]
  | cons o os ih =>
    obtain ⟨ho, hos⟩ := List.forall_mem_cons.1 hos
    have hcons (os : List (Occurrence K)) : written n (o :: os) = onQubit n o.qubit [o.matrix] * written n os := by
      rw [written_cons, onQubit, List.map_singleton, List.prod_singleton, operator]
    rw [hcons, ih hos, ← mul_assoc]
    by_cases heq : o.qubit = q
    · have hhead : onQubit n q (onlyAt (o :: os) q) = onQubit n o.qubit [o.matrix] * onQubit n q (onlyAt os q) := by
        simp [onQubit, onlyAt, heq]
      rw [hhead, List.filter_cons_of_neg (by simpa using heq)]
    · -- the occurrence moves behind the block of the other qubit
      have hskip : onlyAt (o :: os) q = onlyAt os q := by simp [onlyAt, heq]
      have hcommute : Commute (onQubit n o.qubit [o.matrix]) (onQubit n q (onlyAt os q)) :=
        Locals.commute_onQubit hq ho.lt (Ne.symm heq) (by simpa using ho.shape) (shape_of_mem_onlyAt hos q)
      rw [hskip, List.filter_cons_of_pos (by simpa using heq), hcons, ← mul_assoc, hcommute.eq]

end Occurrence

/-! ### Local matrices and the written order -/

namespace Locals

theorem exists_of_mem_on {ls : Locals K} {q : ℕ} {m : Mat K} (h : m ∈ ls.on q) : ∃ e ∈ ls, e.1 = q ∧ m ∈ e.2 := by
  induction ls with
  | nil => cases h
  | cons e ls ih =>
    obtain ⟨p, ms⟩ := e
    by_cases hq : q = p
    · subst hq
      rw [on_cons_self] at h
      exact ⟨_, List.mem_cons_self, rfl, h⟩
    · rw [on_cons_of_ne hq] at h
      obtain ⟨e, he, hm⟩ := ih h
      exact ⟨e, List.mem_cons_of_mem _ he, hm⟩

theorem on_of_mem {ls : Locals K} (h : ls.Valid) {e : ℕ × List (Mat K)} (he : e ∈ ls) : on ls e.1 = e.2 := by
  induction ls with
  | nil => cases he
  | cons x ls ih =>
    rcases List.mem_cons.1 he with rfl | he
    · exact on_cons_self _ _ _
    · have hlt := (List.pairwise_cons.1 h.ascending).1 e.1 (List.mem_map_of_mem he)
      exact (on_cons_of_ne hlt.ne' x.2 ls).trans (ih h.of_cons he)

/-- Local matrices that are those of some occurrences, qubit by qubit, act as the occurrences in written order. -/
theorem operator_eq_written [CommSemiring K] {ls : Locals K} (h : ls.Valid) (hlt : ∀ q ∈ ls.map Prod.fst, q < n)
    {os : List (Occurrence K)} (hos : ∀ o ∈ os, o.Fits n) (hon : ∀ q, ls.on q = Occurrence.onlyAt os q) :
    ls.operator n = Occurrence.written n os := by
  induction ls generalizing os with
  | nil =>
    have hnil : os = [] := by
      rw [List.eq_nil_iff_forall_not_mem]
      intro o ho
      have hmem : o.matrix ∈ Occurrence.onlyAt os o.qubit := List.mem_map_of_mem (List.mem_filter.2 ⟨ho, by simp⟩)
      rw [← hon] at hmem
      cases hmem
    rw [hnil]
    rfl
  | cons e ls ih =>
    obtain ⟨q, ms⟩ := e
    obtain ⟨hq, hrest⟩ := List.forall_mem_cons.1 hlt
    have hnot : q ∉ ls.map Prod.fst := fun hmem => ((List.pairwise_cons.1 h.ascending).1 q hmem).false
    have hfirst : ms = Occurrence.onlyAt os q := by rw [← hon, on_cons_self]
    have hothers (p : ℕ) : on ls p = Occurrence.onlyAt (os.filter (·.qubit ≠ q)) p := by
      rw [Occurrence.onlyAt, List.filter_filter]
      by_cases hp : p = q
      · subst hp
        rw [on_of_notMem hnot]
        simp
      · rw [← on_cons_of_ne hp ms ls, hon, Occurrence.onlyAt]
        congr 1
        refine List.filter_congr fun o _ => ?_
        by_cases ho : o.qubit = p
        · simp [ho, hp]
        · simp [ho]
    rw [Occurrence.written_eq_onQubit_mul hos hq, ← hfirst,
      ← ih h.of_cons hrest (fun o ho => hos o (List.mem_of_mem_filter ho)) hothers]
    rfl

end Locals

namespace Product

variable [CommSemiring K] {p : Product K}

theorem Synced.fits (h : p.Synced) (hlt : ∀ q ∈ p.qubits, q < n) : ∀ o ∈ p.occurrences, o.Fits n := by
  intro o ho
  have hmem : o.matrix ∈ p.locals.on o.qubit := by
    rw [h.perQubit]
    exact List.mem_map_of_mem (List.mem_filter.2 ⟨ho, by simp⟩)
  obtain ⟨e, he, hq, hm⟩ := Locals.exists_of_mem_on hmem
  exact ⟨hq ▸ hlt e.1 (List.mem_map_of_mem he), h.locals.shape e he _ hm⟩

theorem Synced.exists_occurrence (h : p.Synced) {q : ℕ} (hq : q ∈ p.qubits) :
    ∃ o ∈ p.occurrences, o.qubit = q := by
  obtain ⟨e, he, rfl⟩ := List.mem_map.1 hq
  obtain ⟨m, hm⟩ := List.exists_mem_of_ne_nil _ (h.locals.nonempty e he)
  rw [← Locals.on_of_mem h.locals he, h.perQubit] at hm
  obtain ⟨o, ho, -⟩ := List.mem_map.1 hm
  exact ⟨o, List.mem_of_mem_filter ho, by simpa using List.of_mem_filter ho⟩

/-- A product acts as its coefficient times its occurrences in written order. -/
theorem Synced.operator_eq (h : p.Synced) (owner : Option OwnerId) (hlt : ∀ q ∈ p.qubits, q < n) :
    (⟨.product p, owner⟩ : Term K).operator n = p.coefficient • Occurrence.written n p.occurrences := by
  rw [h.toValid.operator_eq owner hlt, onRegister,
    Locals.operator_eq_written h.locals hlt (h.fits hlt) h.perQubit]

end Product

/-! ### Terms of factors -/

namespace Term

variable [CommSemiring K] [Zero R] [One R] [ComplexScalar K R]

end Term

end QubitDynamics
