import Mathlib.Data.Int.Notation
import Mathlib.Data.List.Basic
import QubitDynamics.Expression.Reader
import QubitDynamics.Proofs.Loops

/-! The grammar of expressions, as trees. A tree has the tokens that it is written
with and, once its names are resolved, the summands that it stands for. The reader
sees one token at a time and keeps only a phase; it accepts a row of tokens exactly
when some tree is written with them, and then returns the summands of that tree. -/

namespace QubitDynamics

/-! ### Trees -/

inductive Sign where
  | plus | minus
  deriving DecidableEq

namespace Sign

def token : Sign → Token
  | plus => .plus
  | minus => .minus

def negative : Sign → Bool
  | plus => false
  | minus => true

end Sign

/-- A power as it is written: an optional minus and digits. -/
structure Exponent where
  negative : Bool
  magnitude : ℕ

namespace Exponent

def tokens (e : Exponent) : List Token :=
  if e.negative then [.power, .minus, .int e.magnitude] else [.power, .int e.magnitude]

def value (e : Exponent) : ℤ := if e.negative then -(e.magnitude : ℤ) else e.magnitude

end Exponent

/-- A number, the imaginary unit or a name; the latter two may have a power. -/
inductive FactorTree where
  | float (value : Decimal)
  | int (value : ℕ)
  | imaginary (power : Option Exponent)
  | ident (name : String) (power : Option Exponent)

def powerTokens (power : Option Exponent) : List Token := power.elim [] Exponent.tokens

def FactorTree.tokens : FactorTree → List Token
  | float d => [.float d]
  | int k => [.int k]
  | imaginary power => .imaginaryUnit :: powerTokens power
  | ident name power => .ident name :: powerTokens power

/-- A factor does not begin with a sign. -/
theorem FactorTree.tokens_eq_cons (f : FactorTree) :
    ∃ t rest, f.tokens = t :: rest ∧ ∀ sign : Sign, t ≠ sign.token := by
  cases f with
  | float d => exact ⟨_, _, rfl, fun sign => by cases sign <;> simp [Sign.token]⟩
  | int k => exact ⟨_, _, rfl, fun sign => by cases sign <;> simp [Sign.token]⟩
  | imaginary power => exact ⟨_, _, rfl, fun sign => by cases sign <;> simp [Sign.token]⟩
  | ident name power => exact ⟨_, _, rfl, fun sign => by cases sign <;> simp [Sign.token]⟩

/-- Factors with stars between them. -/
structure ProductTree where
  first : FactorTree
  rest : List FactorTree

/-- Further factors of a product, each after a star. -/
def starTokens (fs : List FactorTree) : List Token := fs.flatMap fun f => .star :: f.tokens

def ProductTree.tokens (p : ProductTree) : List Token := p.first.tokens ++ starTokens p.rest

/-- Products with signs between them, and perhaps a sign in front. -/
structure SumTree where
  sign : Option Sign
  first : ProductTree
  rest : List (Sign × ProductTree)

/-- Further products of a sum, each after a sign. -/
def signTokens (ps : List (Sign × ProductTree)) : List Token := ps.flatMap fun p => p.1.token :: p.2.tokens

def SumTree.tokens (t : SumTree) : List Token :=
  t.sign.elim [] (fun s => [s.token]) ++ (t.first.tokens ++ signTokens t.rest)

/-! ### Resolving names -/

section

variable {K R : Type}

/-- A base with the power that is written after it. -/
def Base.withPower? (b : Base K) : Option Exponent → Option (Atom K)
  | none => some b.bare
  | some e => (b.raised e.value).toOption

theorem Base.withPower?_imaginary (start start' : ℕ) (power : Option Exponent) :
    (imaginary start : Base K).withPower? power = (imaginary start').withPower? power := by
  cases power with
  | none => rfl
  | some e =>
    simp only [withPower?, raised]
    split_ifs <;> rfl

theorem Base.raised_of_withPower? {b : Base K} {e : Exponent} {a : Atom K} (h : b.withPower? (some e) = some a) :
    b.raised e.value = .ok a := by
  unfold withPower? at h
  cases hr : b.raised e.value with
  | error err => simp [hr, Except.toOption] at h
  | ok a' => simpa [hr, Except.toOption] using h

variable [Zero K] [One K] [Neg K] [Zero R] [One R] [ComplexScalar K R]

/-- The atom of a factor, unless its name is unknown or the imaginary unit has a negative power. -/
def FactorTree.atom? (table : SymbolTable K) : FactorTree → Option (Atom K)
  | float d => some (.number d)
  | int k => some (.number (.ofNat k))
  | imaginary power => (Base.imaginary 0).withPower? power
  | ident name power => (table.resolve? name).bind fun s => (Base.symbol s).withPower? power

def ProductTree.atoms? (table : SymbolTable K) (p : ProductTree) : Option (List (Atom K)) :=
  (p.first :: p.rest).mapM (FactorTree.atom? table)

def ProductTree.summand? (table : SymbolTable K) (negative : Bool) (p : ProductTree) : Option (Summand K) :=
  (p.atoms? table).map (⟨negative, ·⟩)

def SumTree.summands? (table : SymbolTable K) (t : SumTree) : Option (List (Summand K)) := do
  let first ← t.first.summand? table (t.sign.elim false Sign.negative)
  let rest ← t.rest.mapM fun p => p.2.summand? table p.1.negative
  return first :: rest

end

/-! ### Runs of the reader -/

namespace Reader

variable {K R : Type} [Zero K] [One K] [Neg K] [Zero R] [One R] [ComplexScalar K R]
variable {table : SymbolTable K} {stop : ℕ} {r : Reader K} {ts : List PlacedToken} {out : List (Summand K)}

def run (table : SymbolTable K) (stop : ℕ) (r : Reader K) (ts : List PlacedToken) :
    Except ExpressionError (List (Summand K)) := do
  (← ts.foldlM (step table) r).finish stop

theorem run_nil (table : SymbolTable K) (stop : ℕ) (r : Reader K) : run table stop r [] = r.finish stop := rfl

theorem run_cons (table : SymbolTable K) (stop : ℕ) (r : Reader K) (t : PlacedToken) (ts : List PlacedToken) :
    run table stop r (t :: ts) = (r.step table t).bind fun r' => run table stop r' ts := by
  rw [run, List.foldlM_cons]
  cases r.step table t <;> rfl

def NotPower (ts : List PlacedToken) : Prop := ∀ t ∈ ts.head?, t.token ≠ .power

theorem NotPower.append {pre rest : List PlacedToken} (hpre : NotPower pre) (hrest : NotPower rest) :
    NotPower (pre ++ rest) := by
  cases pre with
  | nil => exact hrest
  | cons t pre => exact hpre

theorem notPower_stars {pre : List PlacedToken} {fs : List FactorTree}
    (h : pre.map PlacedToken.token = starTokens fs) : NotPower pre := by
  cases fs with
  | nil =>
    obtain rfl : pre = [] := by simpa [starTokens] using h
    simp [NotPower]
  | cons f fs =>
    obtain ⟨t, pre, rfl, ht, -⟩ := List.map_eq_cons_iff.1 h
    simp [NotPower, ht]

theorem notPower_signs {pre : List PlacedToken} {ps : List (Sign × ProductTree)}
    (h : pre.map PlacedToken.token = signTokens ps) : NotPower pre := by
  cases ps with
  | nil =>
    obtain rfl : pre = [] := by simpa [signTokens] using h
    simp [NotPower]
  | cons p ps =>
    obtain ⟨t, pre, rfl, ht, -⟩ := List.map_eq_cons_iff.1 h
    cases hs : p.1 <;> simp [NotPower, ht, hs, Sign.token]

/-- A base without a power is an atom as soon as something else than `^` follows. -/
theorem run_base_bare (b : Base K) (h : NotPower ts) :
    run table stop { r with phase := .base b } ts = run table stop (r.push b.bare) ts := by
  cases ts with
  | nil => rfl
  | cons t ts =>
    have ht : t.token ≠ .power := h t rfl
    have hstep : step table { r with phase := .base b } t = step table (r.push b.bare) t := by
      unfold step
      cases htoken : t.token <;> simp_all [push]
    rw [run_cons, run_cons, hstep]

variable {pre rest : List PlacedToken} {a : Atom K}

theorem run_base_power {b : Base K} {e : Exponent} (ha : b.raised e.value = .ok a)
    (hpre : pre.map PlacedToken.token = e.tokens) :
    run table stop { r with phase := .base b } (pre ++ rest) = run table stop (r.push a) rest := by
  obtain ⟨negative, k⟩ := e
  cases negative with
  | false =>
    obtain ⟨t₁, t₂, rfl, h₁, h₂⟩ : ∃ t₁ t₂ : PlacedToken, pre = [t₁, t₂] ∧ t₁.token = .power ∧ t₂.token = .int k := by
      simpa [Exponent.tokens, List.map_eq_cons_iff] using hpre
    have ha : b.raised k = .ok a := ha
    simp [run_cons, step, h₁, h₂, ha, Except.bind, Except.map, push]
  | true =>
    obtain ⟨t₁, t₂, t₃, rfl, h₁, h₂, h₃⟩ : ∃ t₁ t₂ t₃ : PlacedToken, pre = [t₁, t₂, t₃] ∧ t₁.token = .power ∧
        t₂.token = .minus ∧ t₃.token = .int k := by
      simpa [Exponent.tokens, List.map_eq_cons_iff] using hpre
    have ha : b.raised (-k) = .ok a := ha
    simp [run_cons, step, h₁, h₂, h₃, ha, Except.bind, Except.map, push]

/-- A base is read with the power that is written after it. -/
theorem run_base {b : Base K} {power : Option Exponent} (ha : b.withPower? power = some a)
    (hpre : pre.map PlacedToken.token = powerTokens power) (hrest : NotPower rest) :
    run table stop { r with phase := .base b } (pre ++ rest) = run table stop (r.push a) rest := by
  cases power with
  | none =>
    obtain rfl : pre = [] := by simpa [powerTokens] using hpre
    obtain rfl : b.bare = a := by simpa [Base.withPower?] using ha
    exact run_base_bare b hrest
  | some e => exact run_base_power (Base.raised_of_withPower? ha) hpre

/-- The tokens of a factor are read as its atom. -/
theorem run_factor {f : FactorTree} (ha : f.atom? table = some a) (hpre : pre.map PlacedToken.token = f.tokens)
    (hrest : NotPower rest) :
    run table stop { r with phase := .atom } (pre ++ rest) = run table stop (r.push a) rest := by
  cases f with
  | float d =>
    obtain ⟨t, rfl, ht⟩ : ∃ t : PlacedToken, pre = [t] ∧ t.token = .float d := by
      simpa [FactorTree.tokens, List.map_eq_cons_iff] using hpre
    obtain rfl : Atom.number d = a := by simpa [FactorTree.atom?] using ha
    simp [run_cons, step, atom, ht, Except.bind, push]
  | int k =>
    obtain ⟨t, rfl, ht⟩ : ∃ t : PlacedToken, pre = [t] ∧ t.token = .int k := by
      simpa [FactorTree.tokens, List.map_eq_cons_iff] using hpre
    obtain rfl : Atom.number (.ofNat k) = a := by simpa [FactorTree.atom?] using ha
    simp [run_cons, step, atom, ht, Except.bind, push]
  | imaginary power =>
    obtain ⟨t, pre, rfl, ht, hpre⟩ := List.map_eq_cons_iff.1 hpre
    have hb : (Base.imaginary t.start : Base K).withPower? power = some a :=
      (Base.withPower?_imaginary t.start 0 power).trans ha
    rw [← run_base hb hpre hrest, List.cons_append, run_cons]
    simp [step, atom, ht, Except.bind]
  | ident name power =>
    obtain ⟨t, pre, rfl, ht, hpre⟩ := List.map_eq_cons_iff.1 hpre
    obtain ⟨s, hs, hb⟩ := Option.bind_eq_some_iff.1 ha
    rw [← run_base hb hpre hrest, List.cons_append, run_cons]
    simp [step, atom, ht, hs, Except.bind]

theorem run_star (hr : r.phase = .joint) {t : PlacedToken} (ht : t.token = .star) :
    run table stop r (t :: ts) = run table stop { r with phase := .atom } ts := by
  simp [run_cons, step, hr, afterAtom, ht, Except.bind]

theorem run_sign (hr : r.phase = .joint) {t : PlacedToken} {sign : Sign} (ht : t.token = sign.token) :
    run table stop r (t :: ts) = run table stop ⟨r.close, sign.negative, [], .atom⟩ ts := by
  cases sign with
  | plus => simp [run_cons, step, hr, afterAtom, show t.token = .plus from ht, Except.bind, Sign.negative]
  | minus => simp [run_cons, step, hr, afterAtom, show t.token = .minus from ht, Except.bind, Sign.negative]

theorem run_start_sign {t : PlacedToken} {sign : Sign} (ht : t.token = sign.token) :
    run table stop start (t :: ts) = run table stop ⟨[], sign.negative, [], .atom⟩ ts := by
  cases sign with
  | plus => simp [run_cons, step, start, show t.token = .plus from ht, Except.bind, Sign.negative]
  | minus => simp [run_cons, step, start, show t.token = .minus from ht, Except.bind, Sign.negative]

theorem run_start_atom {t : PlacedToken} (ht : ∀ sign : Sign, t.token ≠ sign.token) :
    run table stop start (t :: ts) = run table stop ⟨[], false, [], .atom⟩ (t :: ts) := by
  have hplus : t.token ≠ .plus := ht .plus
  have hminus : t.token ≠ .minus := ht .minus
  have hstep : step table start t = step table ⟨[], false, [], .atom⟩ t := by
    unfold step
    cases htoken : t.token <;> simp_all [start, atom, push]
  rw [run_cons, run_cons, hstep]

theorem run_stars {fs : List FactorTree} {as : List (Atom K)} (has : fs.mapM (FactorTree.atom? table) = some as)
    (hr : r.phase = .joint) (hpre : pre.map PlacedToken.token = starTokens fs) (hrest : NotPower rest) :
    run table stop r (pre ++ rest) = run table stop { r with atoms := r.atoms ++ as } rest := by
  induction fs generalizing r pre as with
  | nil =>
    obtain rfl : pre = [] := by simpa [starTokens] using hpre
    obtain rfl : as = [] := by simpa using has.symm
    simp
  | cons f fs ih =>
    obtain ⟨t, pre, rfl, ht, hpre⟩ := List.map_eq_cons_iff.1 hpre
    obtain ⟨pre₁, pre₂, rfl, hf, hfs⟩ := List.map_eq_append_iff.1 hpre
    obtain ⟨a, as', ha, has', rfl⟩ := mapM_cons_eq_some.1 has
    rw [List.cons_append, run_star hr ht, List.append_assoc,
      run_factor ha hf ((notPower_stars hfs).append hrest), ih has' rfl hfs]
    simp [push, hr]

theorem run_product {p : ProductTree} {as : List (Atom K)} (has : p.atoms? table = some as)
    (hpre : pre.map PlacedToken.token = p.tokens) (hrest : NotPower rest) (ss : List (Summand K)) (negative : Bool) :
    run table stop ⟨ss, negative, [], .atom⟩ (pre ++ rest) = run table stop ⟨ss, negative, as, .joint⟩ rest := by
  obtain ⟨pre₁, pre₂, rfl, hf, hfs⟩ := List.map_eq_append_iff.1 hpre
  obtain ⟨a, as', ha, has', rfl⟩ := mapM_cons_eq_some.1 has
  calc run table stop ⟨ss, negative, [], .atom⟩ (pre₁ ++ pre₂ ++ rest)
      = run table stop (push ⟨ss, negative, [], .atom⟩ a) (pre₂ ++ rest) := by
        rw [List.append_assoc]
        exact run_factor (r := ⟨ss, negative, [], .atom⟩) ha hf ((notPower_stars hfs).append hrest)
    _ = run table stop ⟨ss, negative, a :: as', .joint⟩ rest := run_stars has' rfl hfs hrest

theorem run_signs {ps : List (Sign × ProductTree)} {ss : List (Summand K)}
    (hss : ps.mapM (fun p => p.2.summand? table p.1.negative) = some ss) (hr : r.phase = .joint)
    (hts : ts.map PlacedToken.token = signTokens ps) : run table stop r ts = .ok (r.close ++ ss) := by
  induction ps generalizing r ts ss with
  | nil =>
    obtain rfl : ts = [] := by simpa [signTokens] using hts
    obtain rfl : ss = [] := by simpa using hss.symm
    simp [run_nil, finish, hr]
  | cons p ps ih =>
    obtain ⟨t, ts, rfl, ht, hts⟩ := List.map_eq_cons_iff.1 hts
    obtain ⟨pre, rest, rfl, hp, hps⟩ := List.map_eq_append_iff.1 hts
    obtain ⟨s, ss', hs, hss', rfl⟩ := mapM_cons_eq_some.1 hss
    obtain ⟨as, has, rfl⟩ := Option.map_eq_some_iff.1 hs
    rw [run_sign hr ht, run_product has hp (notPower_signs hps), ih hss' rfl hps]
    simp [close]

/-! ### What the reader accepts -/

theorem exists_raised {b : Base K} {e : ℤ}
    (h : (((b.raised e).map r.push).bind fun r' => run table stop r' ts) = .ok out) :
    ∃ a, b.raised e = .ok a ∧ run table stop (r.push a) ts = .ok out := by
  cases ha : b.raised e with
  | error err => simp [ha, Except.map, Except.bind] at h
  | ok a => exact ⟨a, rfl, by simpa [ha, Except.map, Except.bind] using h⟩

/-- After a base and `^` the reader accepts an exponent only. -/
theorem exists_exponent {b : Base K} (h : run table stop { r with phase := .caret b } ts = .ok out) :
    ∃ (e : Exponent) (pre rest : List PlacedToken) (a : Atom K), ts = pre ++ rest ∧
      .power :: pre.map PlacedToken.token = e.tokens ∧ b.raised e.value = .ok a ∧
      run table stop (r.push a) rest = .ok out := by
  cases ts with
  | nil => simp [run_nil, finish] at h
  | cons t ts =>
    rw [run_cons] at h
    cases ht : t.token with
    | int k =>
      simp only [step, ht] at h
      obtain ⟨a, ha, hrun⟩ := exists_raised (r := r) h
      exact ⟨⟨false, k⟩, [t], ts, a, rfl, by simp [Exponent.tokens, ht], ha, hrun⟩
    | minus =>
      simp only [step, ht, Except.bind] at h
      cases ts with
      | nil => simp [run_nil, finish] at h
      | cons u ts =>
        rw [run_cons] at h
        cases hu : u.token with
        | int k =>
          simp only [step, hu] at h
          obtain ⟨a, ha, hrun⟩ := exists_raised (r := r) h
          exact ⟨⟨true, k⟩, [t, u], ts, a, rfl, by simp [Exponent.tokens, ht, hu], ha, hrun⟩
        | _ => simp [step, hu, Except.bind] at h
    | _ => simp [step, ht, Except.bind] at h

/-- After a base the reader accepts a power or the end of the factor. -/
theorem exists_power {b : Base K} (h : run table stop { r with phase := .base b } ts = .ok out) :
    ∃ (power : Option Exponent) (pre rest : List PlacedToken) (a : Atom K), ts = pre ++ rest ∧
      pre.map PlacedToken.token = powerTokens power ∧ b.withPower? power = some a ∧
      run table stop (r.push a) rest = .ok out := by
  by_cases hpower : NotPower ts
  · rw [run_base_bare b hpower] at h
    exact ⟨none, [], ts, b.bare, rfl, rfl, rfl, h⟩
  · obtain ⟨t, ts, rfl, ht⟩ : ∃ t rest, ts = t :: rest ∧ t.token = .power := by
      cases ts with
      | nil => simp [NotPower] at hpower
      | cons t ts => exact ⟨t, ts, rfl, by simpa [NotPower] using hpower⟩
    have hcaret : run table stop { r with phase := .caret b } ts = .ok out := by
      simpa [run_cons, step, ht, Except.bind] using h
    obtain ⟨e, pre, rest, a, rfl, hpre, ha, hrun⟩ := exists_exponent hcaret
    refine ⟨some e, t :: pre, rest, a, rfl, ?_, by simp [Base.withPower?, ha, Except.toOption], hrun⟩
    rw [List.map_cons, ht]
    exact hpre

/-- Where an atom has to follow, the reader accepts a factor only. -/
theorem exists_factor (h : run table stop { r with phase := .atom } ts = .ok out) :
    ∃ (f : FactorTree) (pre rest : List PlacedToken) (a : Atom K), ts = pre ++ rest ∧
      pre.map PlacedToken.token = f.tokens ∧ f.atom? table = some a ∧ run table stop (r.push a) rest = .ok out := by
  cases ts with
  | nil => simp [run_nil, finish] at h
  | cons t ts =>
    rw [run_cons] at h
    cases ht : t.token with
    | float d =>
      have hrun : run table stop (r.push (.number d)) ts = .ok out := by
        simpa [step, atom, ht, Except.bind, push] using h
      exact ⟨.float d, [t], ts, _, rfl, by simp [FactorTree.tokens, ht], rfl, hrun⟩
    | int k =>
      have hrun : run table stop (r.push (.number (.ofNat k))) ts = .ok out := by
        simpa [step, atom, ht, Except.bind, push] using h
      exact ⟨.int k, [t], ts, _, rfl, by simp [FactorTree.tokens, ht], rfl, hrun⟩
    | imaginaryUnit =>
      have hrun : run table stop { r with phase := .base (.imaginary t.start) } ts = .ok out := by
        simpa [step, atom, ht, Except.bind] using h
      obtain ⟨power, pre, rest, a, rfl, hpre, ha, hrest⟩ := exists_power hrun
      exact ⟨.imaginary power, t :: pre, rest, a, rfl, by simp [FactorTree.tokens, ht, hpre],
        (Base.withPower?_imaginary 0 t.start power).trans ha, hrest⟩
    | ident name =>
      cases hs : table.resolve? name with
      | none => simp [step, atom, ht, hs, Except.bind] at h
      | some s =>
        have hrun : run table stop { r with phase := .base (.symbol s) } ts = .ok out := by
          simpa [step, atom, ht, hs, Except.bind] using h
        obtain ⟨power, pre, rest, a, rfl, hpre, ha, hrest⟩ := exists_power hrun
        exact ⟨.ident name power, t :: pre, rest, a, rfl, by simp [FactorTree.tokens, ht, hpre],
          Option.bind_eq_some_iff.2 ⟨s, hs, ha⟩, hrest⟩
    | _ => simp [step, atom, ht, Except.bind] at h

/-- Tokens that continue the current product by factors and then the sum by products, all of which
are read into `out`. -/
def Continues (table : SymbolTable K) (r : Reader K) (ts : List PlacedToken) (out : List (Summand K)) : Prop :=
  ∃ fs as ps ss, ts.map PlacedToken.token = starTokens fs ++ signTokens ps ∧
    fs.mapM (FactorTree.atom? table) = some as ∧
    ps.mapM (fun p => p.2.summand? table p.1.negative) = some ss ∧
    out = r.summands ++ ⟨r.negative, r.atoms ++ as⟩ :: ss

theorem continues_nil (table : SymbolTable K) (r : Reader K) : Continues table r [] r.close :=
  ⟨[], [], [], [], rfl, rfl, rfl, by rw [close, List.append_nil]⟩

theorem Continues.star {t : PlacedToken} {f : FactorTree} (h : Continues table (r.push a) rest out)
    (ht : t.token = .star) (hpre : pre.map PlacedToken.token = f.tokens) (ha : f.atom? table = some a) :
    Continues table r (t :: (pre ++ rest)) out := by
  obtain ⟨fs, as, ps, ss, htokens, has, hss, rfl⟩ := h
  refine ⟨f :: fs, a :: as, ps, ss, ?_, mapM_cons_eq_some.2 ⟨a, as, ha, has, rfl⟩, hss, by simp [push]⟩
  rw [List.map_cons, List.map_append, ht, hpre, htokens]
  simp [starTokens]

theorem Continues.sign {t : PlacedToken} {sign : Sign} {f : FactorTree}
    (h : Continues table ((⟨r.close, sign.negative, [], .atom⟩ : Reader K).push a) rest out)
    (ht : t.token = sign.token) (hpre : pre.map PlacedToken.token = f.tokens) (ha : f.atom? table = some a) :
    Continues table r (t :: (pre ++ rest)) out := by
  obtain ⟨fs, as, ps, ss, htokens, has, hss, rfl⟩ := h
  have hproduct : (⟨f, fs⟩ : ProductTree).summand? table sign.negative = some ⟨sign.negative, a :: as⟩ := by
    simp [ProductTree.summand?, ProductTree.atoms?, mapM_cons_eq_some.2 ⟨a, as, ha, has, rfl⟩]
  refine ⟨[], [], (sign, ⟨f, fs⟩) :: ps, _ :: ss, ?_, rfl, mapM_cons_eq_some.2 ⟨_, ss, hproduct, hss, rfl⟩, ?_⟩
  · rw [List.map_cons, List.map_append, ht, hpre, htokens]
    simp [starTokens, signTokens, ProductTree.tokens]
  · simp [push, close]

/-- After an atom the reader accepts only what continues the product or the sum. -/
theorem continues_of_run (hr : r.phase = .joint) (h : run table stop r ts = .ok out) : Continues table r ts out := by
  induction hlen : ts.length using Nat.strongRecOn generalizing r ts with
  | _ len ih =>
    cases ts with
    | nil =>
      obtain rfl : r.close = out := by simpa [run_nil, finish, hr] using h
      exact continues_nil table r
    | cons t ts =>
      -- a star or a sign is followed by a factor, and what remains is shorter
      have hshort {pre rest : List PlacedToken} (e : ts = pre ++ rest) : rest.length < len := by
        rw [← hlen, e, List.length_cons, List.length_append]
        omega
      have hsign (sign : Sign) (ht : t.token = sign.token) : Continues table r (t :: ts) out := by
        rw [run_sign hr ht] at h
        obtain ⟨f, pre, rest, a, e, hpre, ha, hrest⟩ := exists_factor (r := ⟨r.close, sign.negative, [], .atom⟩) h
        rw [e]
        exact (ih _ (hshort e) rfl hrest rfl).sign ht hpre ha
      cases ht : t.token with
      | star =>
        rw [run_star hr ht] at h
        obtain ⟨f, pre, rest, a, e, hpre, ha, hrest⟩ := exists_factor h
        rw [e]
        exact (ih _ (hshort e) rfl hrest rfl).star ht hpre ha
      | plus => exact hsign .plus ht
      | minus => exact hsign .minus ht
      | _ => simp [run_cons, step, hr, afterAtom, ht, Except.bind] at h

/-- Where a product has to follow, the reader accepts a product and then further products. -/
theorem exists_products {negative : Bool} (h : run table stop ⟨[], negative, [], .atom⟩ ts = .ok out) :
    ∃ (p : ProductTree) (ps : List (Sign × ProductTree)) (s : Summand K) (ss : List (Summand K)),
      ts.map PlacedToken.token = p.tokens ++ signTokens ps ∧ p.summand? table negative = some s ∧
      ps.mapM (fun p => p.2.summand? table p.1.negative) = some ss ∧ out = s :: ss := by
  obtain ⟨f, pre, rest, a, rfl, hpre, ha, hrest⟩ := exists_factor (r := ⟨[], negative, [], .atom⟩) h
  obtain ⟨fs, as, ps, ss, htokens, has, hss, rfl⟩ := continues_of_run rfl hrest
  refine ⟨⟨f, fs⟩, ps, ⟨negative, a :: as⟩, ss, ?_, ?_, hss, rfl⟩
  · rw [List.map_append, hpre, htokens, ProductTree.tokens, List.append_assoc]
  · simp [ProductTree.summand?, ProductTree.atoms?, mapM_cons_eq_some.2 ⟨a, as, ha, has, rfl⟩]

end Reader

section

variable {K R : Type} [Zero K] [One K] [Neg K] [Zero R] [One R] [ComplexScalar K R]
variable {table : SymbolTable K} {ts : List PlacedToken} {ss : List (Summand K)}

/-- The tokens of a tree whose names are known are read as its summands. -/
theorem readSum_of_tree (stop : ℕ) {tree : SumTree} (hss : tree.summands? table = some ss)
    (hts : ts.map PlacedToken.token = tree.tokens) : readSum table stop ts = .ok ss := by
  obtain ⟨sign, p, ps⟩ := tree
  obtain ⟨s, hs, ss', hss', rfl⟩ : ∃ s, p.summand? table (sign.elim false Sign.negative) = some s ∧
      ∃ ss', ps.mapM (fun p => p.2.summand? table p.1.negative) = some ss' ∧ s :: ss' = ss := by
    simpa [SumTree.summands?, Option.bind_eq_some_iff] using hss
  obtain ⟨as, has, rfl⟩ := Option.map_eq_some_iff.1 hs
  obtain ⟨lead, rest, rfl, hlead, hrest⟩ := List.map_eq_append_iff.1 hts
  obtain ⟨pre, rest, rfl, hp, hps⟩ := List.map_eq_append_iff.1 hrest
  have hbody (negative : Bool) : Reader.run table stop ⟨[], negative, [], .atom⟩ (pre ++ rest) =
      .ok (⟨negative, as⟩ :: ss') := by
    rw [Reader.run_product has hp (Reader.notPower_signs hps), Reader.run_signs hss' rfl hps]
    rfl
  show Reader.run table stop .start (lead ++ (pre ++ rest)) = _
  cases sign with
  | none =>
    obtain rfl : lead = [] := by simpa using hlead
    obtain ⟨t, toks, htoks, ht⟩ := p.first.tokens_eq_cons
    obtain ⟨u, us, rfl, hu, -⟩ := List.map_eq_cons_iff.1 (hp.trans (congrArg (· ++ _) htoks))
    exact (Reader.run_start_atom (hu ▸ ht)).trans (hbody false)
  | some sign =>
    obtain ⟨t, rfl, ht⟩ : ∃ t : PlacedToken, lead = [t] ∧ t.token = sign.token := by
      simpa [List.map_eq_cons_iff] using hlead
    exact (Reader.run_start_sign ht).trans (hbody sign.negative)

/-- A row of tokens is read exactly when a tree with known names is written with them. -/
theorem readSum_eq_ok_iff {stop : ℕ} :
    readSum table stop ts = .ok ss ↔
      ∃ tree : SumTree, tree.tokens = ts.map PlacedToken.token ∧ tree.summands? table = some ss := by
  constructor
  · intro h
    have h : Reader.run table stop .start ts = .ok ss := h
    cases ts with
    | nil => simp [Reader.run_nil, Reader.finish, Reader.start] at h
    | cons t ts =>
      by_cases hsign : ∃ sign : Sign, t.token = sign.token
      · obtain ⟨sign, ht⟩ := hsign
        rw [Reader.run_start_sign ht] at h
        obtain ⟨p, ps, s, ss, htokens, hs, hss, rfl⟩ := Reader.exists_products h
        refine ⟨⟨some sign, p, ps⟩, ?_, by simp [SumTree.summands?, hs, hss]⟩
        rw [List.map_cons, htokens, ht]
        rfl
      · rw [Reader.run_start_atom (not_exists.1 hsign)] at h
        obtain ⟨p, ps, s, ss, htokens, hs, hss, rfl⟩ := Reader.exists_products h
        exact ⟨⟨none, p, ps⟩, htokens.symm, by simp [SumTree.summands?, hs, hss]⟩
  · rintro ⟨tree, htokens, hss⟩
    exact readSum_of_tree stop hss htokens.symm

end

end QubitDynamics
