import QubitDynamics.Proofs.Acceptance

/-! Where reading stops. The reader refuses a row of tokens at the first one that
cannot continue what was read before it, or at the end of the source. Whatever has
been read so far can be completed: in every phase at most one integer is missing. So
the place that is reported is the leftmost at which the row is beyond repair. A
negative power of the imaginary unit is the one fault that is reported elsewhere, at
the unit instead of the exponent. -/

namespace QubitDynamics

/-! ### Steps that fail -/

namespace Reader

variable {K R : Type} {r : Reader K} {t : PlacedToken} {e : ExpressionError}

theorem afterAtom_error (h : r.afterAtom t = .error e) : ∃ cause, e = .fault t.start cause := by
  unfold afterAtom at h
  split at h
  · cases h
  · cases h
  · cases h
  · cases h
    exact ⟨_, rfl⟩

theorem raised_error {b : Base K} {k : ℤ} (h : (b.raised k).map r.push = .error e) :
    ∃ start, e = .fault start .negativeImaginaryPower := by
  cases b with
  | imaginary start =>
    unfold Base.raised at h
    split_ifs at h
    · cases h
      exact ⟨start, rfl⟩
    · cases h
  | symbol s => cases h

theorem finish_error {stop : ℕ} (h : r.finish stop = .error e) : ∃ cause, e = .fault stop cause := by
  unfold finish at h
  split at h <;> cases h <;> exact ⟨_, rfl⟩

variable [Zero K] [One K] [Neg K] [Zero R] [One R] [ComplexScalar K R] {table : SymbolTable K}

theorem atom_error (h : r.atom table t = .error e) :
    (∃ name, e = .unknownSymbol name) ∨ ∃ cause, e = .fault t.start cause := by
  unfold atom at h
  split at h
  · cases h
  · cases h
  · cases h
  · split at h
    · cases h
      exact .inl ⟨_, rfl⟩
    · cases h
  · cases h
    exact .inr ⟨_, rfl⟩

/-- A token is refused for an unknown name, for a negative power of the imaginary unit, or at its own
place. -/
theorem step_error (h : r.step table t = .error e) :
    (∃ name, e = .unknownSymbol name) ∨ (∃ start, e = .fault start .negativeImaginaryPower) ∨
      ∃ cause, e = .fault t.start cause := by
  have hatom (h : r.atom table t = .error e) :
      (∃ name, e = .unknownSymbol name) ∨ (∃ start, e = .fault start .negativeImaginaryPower) ∨
        ∃ cause, e = .fault t.start cause :=
    (atom_error h).imp_right .inr
  unfold step at h
  cases hphase : r.phase with
  | start =>
    simp only [hphase] at h
    split at h
    · cases h
    · cases h
    · exact hatom h
  | atom =>
    simp only [hphase] at h
    exact hatom h
  | base b =>
    simp only [hphase] at h
    split at h
    · cases h
    · exact .inr (.inr (afterAtom_error h))
  | caret b =>
    simp only [hphase] at h
    split at h
    · cases h
    · exact .inr (.inl (raised_error h))
    · cases h
      exact .inr (.inr ⟨_, rfl⟩)
  | caretMinus b =>
    simp only [hphase] at h
    split at h
    · exact .inr (.inl (raised_error h))
    · cases h
      exact .inr (.inr ⟨_, rfl⟩)
  | joint =>
    simp only [hphase] at h
    exact .inr (.inr (afterAtom_error h))

/-- Whatever has been read can be completed, by one integer if not by nothing. -/
theorem exists_run_eq_ok (table : SymbolTable K) (stop : ℕ) (r : Reader K) :
    ∃ rest out, run table stop r rest = .ok out := by
  have hraised (b : Base K) : ∃ a, b.raised 0 = .ok a := by
    cases b with
    | imaginary start => exact ⟨_, rfl⟩
    | symbol s => exact ⟨_, rfl⟩
  let zero : PlacedToken := ⟨.int 0, 0⟩
  cases hphase : r.phase with
  | start =>
    refine ⟨[zero], (r.push (.number (.ofNat 0))).close, ?_⟩
    simp [run_cons, run_nil, step, atom, finish, push, hphase, zero, Except.bind]
  | atom =>
    refine ⟨[zero], (r.push (.number (.ofNat 0))).close, ?_⟩
    simp [run_cons, run_nil, step, atom, finish, push, hphase, zero, Except.bind]
  | base b => exact ⟨[], (r.push b.bare).close, by simp [run_nil, finish, hphase]⟩
  | caret b =>
    obtain ⟨a, ha⟩ := hraised b
    refine ⟨[zero], (r.push a).close, ?_⟩
    simp [run_cons, run_nil, step, finish, push, hphase, zero, ha, Except.bind, Except.map]
  | caretMinus b =>
    obtain ⟨a, ha⟩ := hraised b
    refine ⟨[zero], (r.push a).close, ?_⟩
    simp [run_cons, run_nil, step, finish, push, hphase, zero, ha, Except.bind, Except.map]
  | joint => exact ⟨[], r.close, by simp [run_nil, finish, hphase]⟩

theorem run_append {before : List PlacedToken} {r' : Reader K} (h : before.foldlM (step table) r = .ok r') (stop : ℕ)
    (rest : List PlacedToken) : run table stop r (before ++ rest) = run table stop r' rest := by
  rw [run, List.foldlM_append, h]
  rfl

end Reader

/-! ### Accepted rows of tokens -/

section

variable {K R : Type} [Zero K] [One K] [Neg K] [Zero R] [One R] [ComplexScalar K R]
variable {table : SymbolTable K} {stop : ℕ} {before ts : List PlacedToken} {t : PlacedToken} {r : Reader K}

def Accepts (table : SymbolTable K) (tokens : List Token) : Prop :=
  ∃ ss, readSum table 0 (tokens.map (PlacedToken.mk · 0)) = .ok ss

/-- The reader accepts tokens wherever they stand. -/
theorem accepts_iff (stop : ℕ) : Accepts table (ts.map PlacedToken.token) ↔ ∃ ss, readSum table stop ts = .ok ss := by
  simp only [Accepts, readSum_eq_ok_iff, List.map_map, Function.comp_def]

/-- What has been read begins a row that is accepted. -/
theorem exists_accepts_append (h : before.foldlM (Reader.step table) .start = .ok r) :
    ∃ rest, Accepts table (before.map PlacedToken.token ++ rest) := by
  obtain ⟨rest, out, hrun⟩ := r.exists_run_eq_ok table 0
  refine ⟨rest.map PlacedToken.token, ?_⟩
  rw [← List.map_append, accepts_iff 0]
  exact ⟨out, (Reader.run_append h 0 rest).trans hrun⟩

/-- A row that begins with a refused token, after what has been read, is not accepted. -/
theorem not_prefix_of_step_error (hbefore : before.foldlM (Reader.step table) .start = .ok r) {e : ExpressionError}
    (ht : r.step table t = .error e) {tokens : List Token} (h : Accepts table tokens) :
    ¬ (before ++ [t]).map PlacedToken.token <+: tokens := by
  rintro ⟨rest, rfl⟩
  have hplaced : (before ++ t :: rest.map (PlacedToken.mk · 0)).map PlacedToken.token =
      (before ++ [t]).map PlacedToken.token ++ rest := by
    simp [Function.comp_def]
  rw [← hplaced, accepts_iff 0] at h
  obtain ⟨out, hout⟩ := h
  have hrun : readSum table 0 (before ++ t :: rest.map (PlacedToken.mk · 0)) = .error e := by
    refine (Reader.run_append hbefore 0 _).trans ?_
    rw [Reader.run_cons, ht]
    rfl
  cases hrun.symm.trans hout

/-- Reading stops at a token that cannot continue what was read before it, or at the end. -/
theorem readSum_error_cases {p : ℕ} {cause : ParseFault} (h : readSum table stop ts = .error (.fault p cause))
    (hcause : cause ≠ .negativeImaginaryPower) :
    (∃ before t after r e, ts = before ++ t :: after ∧ t.start = p ∧
      before.foldlM (Reader.step table) .start = .ok r ∧ r.step table t = .error e) ∨
    p = stop ∧ ∃ r, ts.foldlM (Reader.step table) .start = .ok r := by
  unfold readSum at h
  cases hfold : ts.foldlM (Reader.step table) .start with
  | error e =>
    obtain ⟨before, t, after, r, hts, hbefore, ht⟩ := exists_of_foldlM_error hfold
    obtain rfl : e = .fault p cause := by
      rw [hfold] at h
      exact Except.error.inj h
    rcases r.step_error ht with ⟨name, hname⟩ | ⟨start, hnegative⟩ | ⟨cause', hplace⟩
    · cases hname
    · cases hnegative
      exact absurd rfl hcause
    · cases hplace
      exact .inl ⟨before, t, after, r, _, hts, rfl, hbefore, ht⟩
  | ok r =>
    rw [hfold] at h
    obtain ⟨cause', hstop⟩ := r.finish_error h
    cases hstop
    exact .inr ⟨rfl, r, rfl⟩

end

/-! ### Places of tokens -/

open Lexer

theorem map_start_placedTokens {ls : List Lexeme} {ts : List PlacedToken} (h : placedTokens ls = .ok ts) :
    ts.map PlacedToken.start = ls.map Lexeme.start := by
  induction ls generalizing ts with
  | nil =>
    cases h
    rfl
  | cons l ls ih =>
    rw [placedTokens] at h
    split at h
    · cases h
    · cases hls : placedTokens ls with
      | error e => simp [hls, Except.map] at h
      | ok us =>
        rw [hls] at h
        cases h
        rw [List.map_cons, List.map_cons, ih hls]

section

variable {source : String} {ts before after : List PlacedToken} {t : PlacedToken}

theorem pairwise_start (h : placedTokens (lex source) = .ok ts) : ts.Pairwise fun t u => t.start < u.start := by
  have hcut := cut_lex source
  have hlexemes : (lex source).Pairwise fun l m => l.start < m.start :=
    hcut.pairwise.imp_of_mem fun hl _ hle => (hcut.start_lt_stop hl).trans_le hle
  have hstarts := List.pairwise_map.2 hlexemes
  rw [← map_start_placedTokens h] at hstarts
  exact List.pairwise_map.1 hstarts

theorem start_lt_size (h : placedTokens (lex source) = .ok ts) (ht : t ∈ ts) : t.start < source.utf8ByteSize := by
  have hmem := List.mem_map_of_mem (f := PlacedToken.start) ht
  rw [map_start_placedTokens h] at hmem
  obtain ⟨l, hl, hstart⟩ := List.mem_map.1 hmem
  have hcut := cut_lex source
  have hlt := hcut.start_lt_stop hl
  have hle := hcut.stop_le hl
  rw [byteLength_toList] at hle
  omega

/-- The tokens that start before a token, or not after it. -/
theorem filter_start (h : (before ++ t :: after).Pairwise fun t u => t.start < u.start) :
    (before ++ t :: after).filter (·.start < t.start) = before ∧
      (before ++ t :: after).filter (·.start ≤ t.start) = before ++ [t] := by
  obtain ⟨-, hrest, hcross⟩ := List.pairwise_append.1 h
  have hbefore (u : PlacedToken) (hu : u ∈ before) : u.start < t.start := hcross u hu t List.mem_cons_self
  have hafter (u : PlacedToken) (hu : u ∈ after) : t.start < u.start := (List.pairwise_cons.1 hrest).1 u hu
  constructor
  · have hnone : after.filter (·.start < t.start) = [] :=
      List.filter_eq_nil_iff.2 fun u hu => by simpa using (hafter u hu).le
    rw [List.filter_append, List.filter_eq_self.2 fun u hu => by simpa using hbefore u hu,
      List.filter_cons_of_neg (by simp), hnone, List.append_nil]
  · have hnone : after.filter (·.start ≤ t.start) = [] :=
      List.filter_eq_nil_iff.2 fun u hu => by simpa using hafter u hu
    rw [List.filter_append, List.filter_eq_self.2 fun u hu => by simpa using (hbefore u hu).le,
      List.filter_cons_of_pos (by simp), hnone]

end

/-! ### The place of a fault -/

section

variable {K R : Type} [Zero K] [One K] [Neg K] [Zero R] [One R] [Neg R] [RealScalar R] [ComplexScalar K R]
variable {table : SymbolTable K} {source : String} {ts : List PlacedToken} {p : ℕ} {cause : ParseFault}

theorem readSum_of_parseExpression_error {e : ExpressionError} (hts : placedTokens (lex source) = .ok ts)
    (h : parseExpression table source = .error e) : readSum table source.utf8ByteSize ts = .error e := by
  rw [parseExpression_of_tokens hts] at h
  cases hread : readSum table source.utf8ByteSize ts with
  | error e' =>
    rw [hread] at h
    rw [Except.error.inj h]
  | ok ss => simp [hread, Except.map] at h

/-- A text with tokens that is refused at some place, other than for a negative power of the imaginary
unit, is refused at a token or at its end. The tokens before that place begin a row that is accepted.
No row that is accepted begins with them and the token at that place, and if that place is the end, the
row of all tokens is not accepted. -/
theorem parseExpression_fault_leftmost (hts : placedTokens (lex source) = .ok ts)
    (h : parseExpression table source = .error (.fault p cause)) (hcause : cause.message ≠ "negative power of I") :
    ((∃ t ∈ ts, t.start = p) ∨ p = source.utf8ByteSize) ∧
    (∃ rest, Accepts table ((ts.filter (·.start < p)).map PlacedToken.token ++ rest)) ∧
    (∀ t ∈ ts, t.start = p → ∀ tokens, Accepts table tokens →
      ¬ (ts.filter (·.start ≤ p)).map PlacedToken.token <+: tokens) ∧
    (p = source.utf8ByteSize → ¬ Accepts table (ts.map PlacedToken.token)) := by
  have hread := readSum_of_parseExpression_error hts h
  have hcause : cause ≠ .negativeImaginaryPower := fun e => hcause (e ▸ rfl)
  have hrefused : ¬ Accepts table (ts.map PlacedToken.token) := by
    rw [accepts_iff source.utf8ByteSize, hread]
    rintro ⟨ss, hss⟩
    cases hss
  rcases readSum_error_cases hread hcause with ⟨before, t, after, r, e, rfl, rfl, hbefore, ht⟩ | ⟨rfl, r, hall⟩
  · obtain ⟨hlt, hle⟩ := filter_start (pairwise_start hts)
    rw [hlt, hle]
    exact ⟨.inl ⟨t, by simp, rfl⟩, exists_accepts_append hbefore,
      fun _ _ _ tokens htokens => not_prefix_of_step_error hbefore ht htokens, fun _ => hrefused⟩
  · have hfilter : ts.filter (·.start < source.utf8ByteSize) = ts :=
      List.filter_eq_self.2 fun t ht => by simpa using start_lt_size hts ht
    rw [hfilter]
    refine ⟨.inr rfl, exists_accepts_append hall, fun t ht hstart => ?_, fun _ => hrefused⟩
    exact absurd hstart (start_lt_size hts ht).ne

end

/-- A name in the place of an exponent, after a minus, and a sum that ends in a sign. -/
theorem parseExpression_fault_leftmost_dangling :
    let table : SymbolTable ℂ := .empty
    (parseExpression table "2*X0^-Y1 + I" = .error (.fault 6 .exponentNotInteger) ∧
      (∃ rest, Accepts table ([.int 2, .star, .ident "X0", .power, .minus] ++ rest)) ∧
      ∀ tokens, Accepts table tokens →
        ¬ [.int 2, .star, .ident "X0", .power, .minus, .ident "Y1"] <+: tokens) ∧
    parseExpression table "Z0 +" = .error (.fault 4 (.expectedFactor none)) ∧
      (∃ rest, Accepts table ([.ident "Z0", .plus] ++ rest)) ∧ ¬ Accepts table [.ident "Z0", .plus] := by
  intro table
  have hpower : placedTokens (lex "2*X0^-Y1 + I") = .ok [⟨.int 2, 0⟩, ⟨.star, 1⟩, ⟨.ident "X0", 2⟩, ⟨.power, 4⟩,
      ⟨.minus, 5⟩, ⟨.ident "Y1", 6⟩, ⟨.plus, 9⟩, ⟨.imaginaryUnit, 11⟩] := rfl
  have hsum : placedTokens (lex "Z0 +") = .ok [⟨.ident "Z0", 0⟩, ⟨.plus, 3⟩] := rfl
  have hexponent : parseExpression table "2*X0^-Y1 + I" = .error (.fault 6 .exponentNotInteger) := rfl
  have hend : parseExpression table "Z0 +" = .error (.fault 4 (.expectedFactor none)) := rfl
  obtain ⟨-, hbefore, hnone, -⟩ := parseExpression_fault_leftmost hpower hexponent (by decide)
  obtain ⟨-, hbefore', -, hrefused⟩ := parseExpression_fault_leftmost hsum hend (by decide)
  exact ⟨⟨hexponent, hbefore, hnone ⟨.ident "Y1", 6⟩ (by simp) rfl⟩, hend, hbefore', hrefused rfl⟩

end QubitDynamics
