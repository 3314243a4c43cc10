import Mathlib.Algebra.BigOperators.Group.List.Basic

/-! Loops over lists that can fail. For a loop over the elements of a list and for a loop
that carries a state: when it succeeds and with which value, what each step must have
done where it succeeded, and which element it stopped at where it failed. -/

namespace QubitDynamics

/-! ### Single steps -/

section

variable {α β ε δ : Type}

theorem exists_of_bind_eq_ok {x : Except ε α} {f : α → Except ε β} {b : β} (h : x >>= f = .ok b) :
    ∃ a, x = .ok a ∧ f a = .ok b := by
  cases x with
  | error e => cases h
  | ok a => exact ⟨a, rfl, h⟩

theorem mapError_eq_ok {f : ε → δ} {x : Except ε α} {a : α} : x.mapError f = .ok a ↔ x = .ok a := by
  cases x <;> simp [Except.mapError]

theorem map_mapError (f : ε → δ) (g : α → β) (x : Except ε α) : (x.mapError f).map g = (x.map g).mapError f := by
  cases x <;> rfl

end

/-! ### One step for each element -/

section

variable {m : Type → Type} [Monad m] [LawfulMonad m] {α β : Type}

theorem mapM_congr {f g : α → m β} {as : List α} (h : ∀ a ∈ as, f a = g a) : as.mapM f = as.mapM g := by
  induction as with
  | nil => rfl
  | cons a as ih =>
    rw [List.mapM_cons, List.mapM_cons, h a List.mem_cons_self, ih fun b hb => h b (List.mem_cons_of_mem a hb)]

end

section

variable {α β γ ε : Type} {f : α → Except ε β} {a : α} {as : List α}

theorem mapM_eq_ok_map {g : α → β} (h : ∀ a ∈ as, f a = .ok (g a)) : as.mapM f = .ok (as.map g) :=
  (mapM_congr h).trans (List.mapM_pure ..)

theorem mapM_cons_eq_ok {bs : List β} :
    (a :: as).mapM f = .ok bs ↔ ∃ b rest, f a = .ok b ∧ as.mapM f = .ok rest ∧ bs = b :: rest := by
  rw [List.mapM_cons]
  cases f a with
  | error e => simp [bind, Except.bind]
  | ok b =>
    cases as.mapM f with
    | error e => simp [bind, Except.bind]
    | ok rest => simp [bind, Except.bind, pure, Except.pure, eq_comm]

theorem exists_mapM_eq_ok_iff : (∃ bs, as.mapM f = .ok bs) ↔ ∀ a ∈ as, ∃ b, f a = .ok b := by
  induction as with
  | nil => exact iff_of_true ⟨[], rfl⟩ (by simp)
  | cons a as ih =>
    rw [List.forall_mem_cons, ← ih]
    constructor
    · rintro ⟨bs, h⟩
      obtain ⟨b, rest, hb, hrest, -⟩ := mapM_cons_eq_ok.1 h
      exact ⟨⟨b, hb⟩, rest, hrest⟩
    · rintro ⟨⟨b, hb⟩, rest, hrest⟩
      exact ⟨_, mapM_cons_eq_ok.2 ⟨b, rest, hb, hrest, rfl⟩⟩

theorem exists_of_mapM_eq_ok {bs : List β} (h : as.mapM f = .ok bs) : ∀ b ∈ bs, ∃ a ∈ as, f a = .ok b := by
  induction as generalizing bs with
  | nil =>
    cases h
    simp
  | cons a as ih =>
    obtain ⟨b, rest, hb, hrest, rfl⟩ := mapM_cons_eq_ok.1 h
    refine List.forall_mem_cons.2 ⟨⟨a, List.mem_cons_self, hb⟩, fun x hx => ?_⟩
    obtain ⟨y, hy, e⟩ := ih hrest x hx
    exact ⟨y, List.mem_cons_of_mem a hy, e⟩

theorem map_of_mapM_eq_ok {g : β → γ} {g' : α → γ} {bs : List β} (h : as.mapM f = .ok bs)
    (hg : ∀ a b, f a = .ok b → g b = g' a) : bs.map g = as.map g' := by
  induction as generalizing bs with
  | nil =>
    cases h
    rfl
  | cons a as ih =>
    obtain ⟨b, rest, hb, hrest, rfl⟩ := mapM_cons_eq_ok.1 h
    rw [List.map_cons, List.map_cons, hg a b hb, ih hrest]

theorem mapM_map_eq (f : α → Except ε β) (g : β → γ) (as : List α) :
    (as.mapM f).map (List.map g) = as.mapM fun a => (f a).map g := by
  induction as with
  | nil => rfl
  | cons a as ih =>
    rw [List.mapM_cons, List.mapM_cons, ← ih]
    cases f a with
    | error e => rfl
    | ok b => cases as.mapM f <;> rfl

/-- Going through a list fails with the error of the first element that fails. -/
theorem mapM_eq_error_iff {e : ε} :
    as.mapM f = .error e ↔
      ∃ before after a, as = before ++ a :: after ∧ (∀ x ∈ before, ∃ b, f x = .ok b) ∧ f a = .error e := by
  constructor
  · intro h
    induction as with
    | nil => cases h
    | cons a as ih =>
      rw [List.mapM_cons] at h
      cases ha : f a with
      | error e' =>
        rw [ha] at h
        cases h
        exact ⟨[], as, a, rfl, by simp, ha⟩
      | ok b =>
        cases hrest : as.mapM f with
        | ok rest =>
          rw [ha, hrest] at h
          cases h
        | error e' =>
          rw [ha, hrest] at h
          cases h
          obtain ⟨before, after, x, rfl, hbefore, hx⟩ := ih hrest
          exact ⟨a :: before, after, x, rfl, List.forall_mem_cons.2 ⟨⟨b, ha⟩, hbefore⟩, hx⟩
  · rintro ⟨before, after, a, rfl, hbefore, ha⟩
    induction before with
    | nil =>
      rw [List.nil_append, List.mapM_cons, ha]
      rfl
    | cons x before ih =>
      obtain ⟨⟨b, hb⟩, hbefore⟩ := List.forall_mem_cons.1 hbefore
      rw [List.cons_append, List.mapM_cons, hb, ih hbefore]
      rfl

end

section

variable {α β γ : Type} {f : α → Option β} {a : α} {as : List α}

theorem mapM_eq_some {g : α → β} (h : ∀ a ∈ as, f a = some (g a)) : as.mapM f = some (as.map g) :=
  (mapM_congr h).trans (List.mapM_pure ..)

theorem mapM_cons_eq_some {bs : List β} :
    (a :: as).mapM f = some bs ↔ ∃ b rest, f a = some b ∧ as.mapM f = some rest ∧ bs = b :: rest := by
  simp only [List.mapM_cons, Option.bind_eq_bind, Option.bind_eq_some_iff, Option.pure_def, Option.some.injEq]
  constructor
  · rintro ⟨b, hb, rest, hrest, rfl⟩
    exact ⟨b, rest, hb, hrest, rfl⟩
  · rintro ⟨b, rest, hb, hrest, rfl⟩
    exact ⟨b, hb, rest, hrest, rfl⟩

theorem exists_mapM_eq_some : (∃ bs, as.mapM f = some bs) ↔ ∀ a ∈ as, ∃ b, f a = some b := by
  induction as with
  | nil => simp
  | cons a as ih =>
    rw [List.forall_mem_cons, ← ih]
    constructor
    · rintro ⟨bs, h⟩
      obtain ⟨b, rest, hb, hrest, -⟩ := mapM_cons_eq_some.1 h
      exact ⟨⟨b, hb⟩, rest, hrest⟩
    · rintro ⟨⟨b, hb⟩, rest, hrest⟩
      exact ⟨b :: rest, mapM_cons_eq_some.2 ⟨b, rest, hb, hrest, rfl⟩⟩

theorem mapM_bind (f : α → Option β) (g : β → Option γ) (as : List α) :
    as.mapM (fun a => (f a).bind g) = (as.mapM f).bind (List.mapM g) := by
  induction as with
  | nil => rfl
  | cons a as ih =>
    rw [List.mapM_cons, List.mapM_cons, ih]
    cases f a with
    | none => rfl
    | some b =>
      cases as.mapM f with
      | none => cases hb : g b <;> simp [hb]
      | some bs => simp [List.mapM_cons]

end

/-! ### Steps that carry a state -/

section

variable {α β ε : Type} {as : List α}

/-- A loop whose steps succeed as long as an invariant holds, and keep it, succeeds. -/
theorem foldlM_eq_some {f : β → α → Option β} {g : β → α → β} (Inv : β → Prop)
    (hstep : ∀ b, Inv b → ∀ a ∈ as, f b a = some (g b a) ∧ Inv (g b a)) {b : β} (hb : Inv b) :
    as.foldlM f b = some (as.foldl g b) := by
  induction as generalizing b with
  | nil => rfl
  | cons a as ih =>
    obtain ⟨ha, hg⟩ := hstep b hb a List.mem_cons_self
    rw [List.foldlM_cons, ha, List.foldl_cons]
    exact ih (fun b hb x hx => hstep b hb x (List.mem_cons_of_mem a hx)) hg

variable {f : β → α → Except ε β}

/-- A loop that never fails in states with a property, and keeps it, ends in a state with it. -/
theorem exists_foldlM_eq_ok {P : β → Prop} (hstep : ∀ a ∈ as, ∀ b, P b → ∃ b', f b a = .ok b' ∧ P b') {b : β}
    (hb : P b) : ∃ b', as.foldlM f b = .ok b' ∧ P b' := by
  induction as generalizing b with
  | nil => exact ⟨b, rfl, hb⟩
  | cons a as ih =>
    obtain ⟨hfirst, hrest⟩ := List.forall_mem_cons.1 hstep
    obtain ⟨b', hb', hP⟩ := hfirst b hb
    rw [List.foldlM_cons, hb']
    exact ih hrest hP

theorem exists_foldlM_of_forall (hstep : ∀ a ∈ as, ∀ b, ∃ b', f b a = .ok b') (b : β) :
    ∃ b', as.foldlM f b = .ok b' := by
  have htrue : ∀ a ∈ as, ∀ b, True → ∃ b', f b a = .ok b' ∧ True := fun a ha b _ =>
    (hstep a ha b).imp fun _ h => ⟨h, trivial⟩
  obtain ⟨b', hb', -⟩ := exists_foldlM_eq_ok htrue (b := b) trivial
  exact ⟨b', hb'⟩

theorem exists_of_foldlM_error {b : β} {e : ε} (h : as.foldlM f b = .error e) :
    ∃ before a after b', as = before ++ a :: after ∧ before.foldlM f b = .ok b' ∧ f b' a = .error e := by
  induction as generalizing b with
  | nil => cases h
  | cons a as ih =>
    rw [List.foldlM_cons] at h
    cases ha : f b a with
    | error e' =>
      rw [ha] at h
      cases h
      exact ⟨[], a, as, b, rfl, rfl, ha⟩
    | ok b' =>
      rw [ha] at h
      obtain ⟨before, x, after, b'', rfl, hbefore, hx⟩ := ih h
      refine ⟨a :: before, x, after, b'', rfl, ?_, hx⟩
      rw [List.foldlM_cons, ha]
      exact hbefore

variable {M : Type} [AddMonoid M] {v : α → M}

/-- Adding up, where the elements of a monoid stand for the values that are added. -/
theorem foldlM_wrap_eq_sum {w : M → β} (h : ∀ a ∈ as, ∀ x, f (w x) a = .ok (w (x + v a))) (x : M) :
    as.foldlM f (w x) = .ok (w (x + (as.map v).sum)) := by
  induction as generalizing x with
  | nil => rw [List.map_nil, List.sum_nil, add_zero]; rfl
  | cons a as ih =>
    rw [List.foldlM_cons, h a List.mem_cons_self, List.map_cons, List.sum_cons, ← add_assoc]
    exact ih (fun b hb => h b (List.mem_cons_of_mem a hb)) _

theorem foldlM_eq_sum {f : M → α → Except ε M} (h : ∀ a ∈ as, ∀ acc, f acc a = .ok (acc + v a)) (acc : M) :
    as.foldlM f acc = .ok (acc + (as.map v).sum) :=
  foldlM_wrap_eq_sum (w := id) h acc

/-- The largest value over a list, from a start value, is the least bound of both. -/
theorem foldl_max_le_iff {f : α → ℕ} {b n : ℕ} :
    as.foldl (fun m a => max m (f a)) b ≤ n ↔ b ≤ n ∧ ∀ a ∈ as, f a ≤ n := by
  induction as generalizing b with
  | nil => simp
  | cons a as ih => rw [List.foldl_cons, ih, Nat.max_le, List.forall_mem_cons, and_assoc]

end

end QubitDynamics
