import QubitDynamics.Proofs.FirstFault

/-! Expressions with an operator between them. A lexeme could reach across the seam in
two ways only: a star before a star, or a sign after a numeral with the mark of an
exponent. The reader accepts neither a row that ends in a star nor a number before a
name, so the tokens on both sides stay what they are, and their trees are put
together at the seam. -/

namespace QubitDynamics

open Lexer

/-! ### Lexemes across a seam -/

def Token.isNumber : Token → Bool
  | float _ => true
  | int _ => true
  | _ => false

/-- The part of a numeral before its exponent. -/
inductive Mantissa : List Char → Prop
  | whole {ws : List Char} (hne : ws ≠ []) (hws : Digits ws) : Mantissa ws
  | point {ws fs : List Char} (hws : Digits ws) (hfs : Digits fs) (hne : ws ≠ [] ∨ fs ≠ []) :
      Mantissa (ws ++ '.' :: fs)

theorem exponentLength_mark {c : Char} (hc : c = 'e' ∨ c = 'E') : exponentLength [c] = 0 := by
  rw [exponentLength_cons hc]
  rfl

theorem fractionLength_mark {fs : List Char} (hfs : Digits fs) {c : Char} (hc : c = 'e' ∨ c = 'E') :
    fractionLength (fs ++ [c]) = fs.length := by
  rw [fractionLength, digitCount_append hfs, digitCount_eq_zero (notDigit_mark hc []), Nat.add_zero, List.drop_left,
    exponentLength_mark hc, Nat.add_zero]

theorem isNumber_of_floatToken {text : List Char} {t : Token} (h : floatToken text = some t) : t.isNumber = true := by
  obtain ⟨d, -, rfl⟩ := Option.map_eq_some_iff.1 h
  rfl

theorem isNumber_of_intToken {text : List Char} {t : Token} (h : intToken text = some t) : t.isNumber = true := by
  simp only [intToken] at h
  split_ifs at h
  cases h
  rfl

/-- A mark without digits after it does not belong to the numeral before it. -/
theorem Mantissa.scan_mark {c : Char} {cs : List Char} (h : Mantissa (c :: cs)) {mark : Char}
    (hmark : mark = 'e' ∨ mark = 'E') :
    (scan c (cs ++ [mark])).2 = cs.length ∧ ∀ t, (scan c (cs ++ [mark])).1 = some t → t.isNumber = true := by
  generalize hx : c :: cs = x at h
  cases h with
  | whole hne hws =>
    subst hx
    obtain ⟨hc, hcs⟩ := digits_cons.1 hws
    have hpoint (r : List Char) : [mark] ≠ '.' :: r := by rcases hmark with rfl | rfl <;> simp
    rw [scan_numeral hc hcs (notDigit_mark hmark []) hpoint, if_pos (exponentLength_mark hmark)]
    exact ⟨rfl, fun t => isNumber_of_intToken⟩
  | @point ws fs hws hfs hne =>
    cases ws with
    | nil =>
      obtain ⟨rfl, rfl⟩ := List.cons.inj hx
      have hpos := List.length_pos_of_ne_nil (hne.resolve_left (by simp))
      have hcount : digitCount (cs ++ [mark]) ≠ 0 := by
        rw [digitCount_append hfs]
        omega
      rw [scan_point, if_neg hcount, fractionLength_mark hfs hmark]
      exact ⟨rfl, fun t => isNumber_of_floatToken⟩
    | cons w ws =>
      rw [List.cons_append, List.cons.injEq] at hx
      obtain ⟨rfl, rfl⟩ := hx
      obtain ⟨hw, hws⟩ := digits_cons.1 hws
      rw [List.append_assoc, List.cons_append, scan_point_numeral hw hws, fractionLength_mark hfs hmark]
      refine ⟨?_, fun t => isNumber_of_floatToken⟩
      rw [List.length_append, List.length_cons]
      omega

theorem Mantissa.spelled {m : List Char} (h : Mantissa m) : ∃ token?, Spelled m token? := by
  cases h with
  | whole hne hws =>
    by_cases hlt : Decimal.ofDigits m < 1 <<< 63
    · exact ⟨_, .int hne hws hlt⟩
    · exact ⟨_, .tooLarge hne hws (not_lt.1 hlt)⟩
  | @point ws fs hws hfs hne =>
    have hspelled := Spelled.point hws hfs hne .missing
    rw [List.append_nil] at hspelled
    exact ⟨_, hspelled⟩

/-- A numeral with a mark but no digits after it is a number and a name. -/
theorem Mantissa.tokens_mark {m : List Char} (h : Mantissa m) {mark : Char} (hmark : mark = 'e' ∨ mark = 'E')
    {ts : List Token} (hts : Lexed (m ++ [mark]) ts) : ∃ t name, ts = [t, .ident name] ∧ t.isNumber = true := by
  obtain ⟨token?, hspelled⟩ := h.spelled
  obtain ⟨c, cs, rfl⟩ := hspelled.exists_cons
  have hblank : ¬ isBlank c = true := by simp [hspelled.notBlank c List.mem_cons_self]
  obtain ⟨hlength, hnumber⟩ := h.scan_mark hmark
  rw [List.cons_append, lexed_cons_iff hblank, hlength, List.drop_left] at hts
  obtain ⟨t, rest, rfl, ht, hrest⟩ := hts
  have hword : Lexed [mark] [.ident (String.ofList [mark])] := by
    rcases hmark with rfl | rfl <;> exact (map_token?_lexFrom_eq_iff 0).1 rfl
  rw [hrest.unique hword]
  exact ⟨t, _, rfl, hnumber t ht⟩

/-- The operators that join expressions. -/
inductive Connective : Char → Token → Prop
  | plus : Connective '+' .plus
  | minus : Connective '-' .minus
  | star : Connective '*' .star

section

variable {c : Char} {op : Token} {x y : List Char}

theorem Digits.not_mem_connective {ds : List Char} (h : Digits ds) (hop : Connective c op) : c ∉ ds := fun hc => by
  have hdigit := h c hc
  cases hop <;> exact absurd hdigit (by decide)

theorem Mantissa.not_mem_connective {m : List Char} (h : Mantissa m) (hop : Connective c op) : c ∉ m := by
  cases h with
  | whole hne hws => exact hws.not_mem_connective hop
  | point hws hfs hne =>
    have hpoint : c ≠ '.' := by cases hop <;> decide
    simp [hws.not_mem_connective hop, hfs.not_mem_connective hop, hpoint]

theorem ExponentText.connective_inside {e : ℤ} (h : ExponentText (x ++ c :: y) e) (hop : Connective c op) :
    ∃ mark, x = [mark] ∧ (mark = 'e' ∨ mark = 'E') := by
  have hmark {d : Char} (hd : d = 'e' ∨ d = 'E') : d ≠ c := by
    rcases hd with rfl | rfl <;> cases hop <;> decide
  have hsign {d s : Char} {ds : List Char} (hd : d = 'e' ∨ d = 'E') (hds : Digits ds)
      (hz : x ++ c :: y = d :: s :: ds) : ∃ mark, x = [mark] ∧ (mark = 'e' ∨ mark = 'E') := by
    obtain ⟨rfl, hhead⟩ | ⟨x, rfl, htail⟩ := List.append_eq_cons_iff.1 hz
    · exact absurd (List.cons.inj hhead).1.symm (hmark hd)
    · obtain ⟨rfl, -⟩ | ⟨x, rfl, rfl⟩ := List.append_eq_cons_iff.1 htail.symm
      · exact ⟨d, rfl, hd⟩
      · exact absurd (by simp) (hds.not_mem_connective hop)
  have hmem : c ∈ x ++ c :: y := by simp
  generalize hz : x ++ c :: y = z at h hmem
  cases h with
  | missing => simp at hmem
  | plain hd hne hds => simp [(hmark hd).symm, hds.not_mem_connective hop] at hmem
  | plus hd hne hds => exact hsign hd hds hz
  | minus hd hne hds => exact hsign hd hds hz

theorem Mantissa.connective_inside {m es : List Char} {e : ℤ} (hm : Mantissa m) (hes : ExponentText es e)
    (h : x ++ c :: y = m ++ es) (hop : Connective c op) : ∃ mark, x = m ++ [mark] ∧ (mark = 'e' ∨ mark = 'E') := by
  rcases List.append_eq_append_iff.1 h with ⟨bs, rfl, hbs⟩ | ⟨as, rfl, rfl⟩
  · -- the operator would be in the mantissa or the mark itself
    cases bs with
    | nil =>
      have hes : ExponentText ([] ++ c :: y) e := hbs.symm ▸ hes
      obtain ⟨mark, hmark, -⟩ := hes.connective_inside hop
      cases hmark
    | cons b bs =>
      obtain ⟨rfl, -⟩ := List.cons.inj hbs
      exact absurd (by simp) (hm.not_mem_connective hop)
  · obtain ⟨mark, rfl, hmark⟩ := hes.connective_inside hop
    exact ⟨mark, rfl, hmark⟩

/-- Where a lexeme has an operator inside it: between two stars, or after the mark of an exponent. -/
theorem Spelled.connective_inside {token? : Option Token} (h : Spelled (x ++ c :: y) token?) (hx : x ≠ [])
    (hop : Connective c op) :
    x = ['*'] ∨ ∃ m mark, x = m ++ [mark] ∧ Mantissa m ∧ (mark = 'e' ∨ mark = 'E') := by
  have hmem : c ∈ x ++ c :: y := by simp
  have hsingle {d : Char} (hz : x ++ c :: y = [d]) : False := by
    have hpos := List.length_pos_of_ne_nil hx
    have hlength := congrArg List.length hz
    simp only [List.length_append, List.length_cons, List.length_nil] at hlength
    omega
  generalize hz : x ++ c :: y = z at h hmem
  cases h with
  | plus => exact (hsingle hz).elim
  | minus => exact (hsingle hz).elim
  | star => exact (hsingle hz).elim
  | caret => exact (hsingle hz).elim
  | stars =>
    obtain ⟨rfl, -⟩ | ⟨x, rfl, htail⟩ := List.append_eq_cons_iff.1 hz
    · exact absurd rfl hx
    · obtain ⟨rfl, -⟩ | ⟨x, rfl, hnil⟩ := List.append_eq_cons_iff.1 htail.symm
      · exact .inl rfl
      · simp at hnil
  | imaginaryUnit => exact (hsingle hz).elim
  | ident hstart hcs hne =>
    have hnot : isIdentStart c = false ∧ isIdentRest c = false := by cases hop <;> decide
    rcases List.mem_cons.1 hmem with rfl | hmem
    · simp [hnot.1] at hstart
    · have hrest := hcs c hmem
      simp [hnot.2] at hrest
  | int hne hds hlt => exact absurd hmem (hds.not_mem_connective hop)
  | tooLarge hne hds hle => exact absurd hmem (hds.not_mem_connective hop)
  | point hws hfs hne hes =>
    have hm : Mantissa _ := .point hws hfs hne
    obtain ⟨mark, hx, hmark⟩ := hm.connective_inside hes (by rw [hz]; simp) hop
    exact .inr ⟨_, mark, hx, hm, hmark⟩
  | scientific hne hws hes =>
    have hm : Mantissa _ := .whole hne hws
    obtain ⟨mark, hx, hmark⟩ := hm.connective_inside hes hz hop
    exact .inr ⟨_, mark, hx, hm, hmark⟩

end

/-- Rows of tokens after which an operator begins a new lexeme. -/
structure Separable (ts : List Token) : Prop where
  number : ∀ before t name after, ts = before ++ t :: .ident name :: after → t.isNumber = false
  star : ∀ before, ts ≠ before ++ [.star]

theorem Separable.tail {t : Token} {ts : List Token} (h : Separable (t :: ts)) : Separable ts where
  number before u name after e := h.number (t :: before) u name after (by rw [e, List.cons_append])
  star before e := h.star (t :: before) (by rw [e, List.cons_append])

/-- The tokens of a text stay what they are when an operator follows. -/
theorem Lexed.append_connective {xs ys : List Char} {c : Char} {op : Token} {ts us : List Token} (hxs : Lexed xs ts)
    (hts : Separable ts) (hop : Connective c op) (hys : Lexed (c :: ys) us) :
    Lexed (xs ++ c :: ys) (ts ++ us) := by
  induction hxs with
  | nil => exact hys
  | blank hblank h ih => exact .blank hblank (ih hts)
  | @token text rest t ts ht hlongest h ih =>
    rw [List.append_assoc]
    refine .token ht (fun other token? hother hpre => ?_) (ih hts.tail)
    rw [← List.append_assoc] at hpre
    rcases le_or_gt other.length (text ++ rest).length with hle | hlt
    · exact hlongest other token? hother (List.prefix_of_prefix_length_le hpre (List.prefix_append _ _) hle)
    · -- the lexeme reaches across the seam
      have hwhole : Lexed (text ++ rest) (t :: ts) := .token ht hlongest h
      obtain ⟨z, rfl⟩ : text ++ rest <+: other :=
        List.prefix_of_prefix_length_le (List.prefix_append _ _) hpre hlt.le
      obtain rfl | ⟨y, rfl, -⟩ := List.prefix_cons_iff.1 ((List.prefix_append_right_inj _).1 hpre)
      · simp at hlt
      have hne : text ++ rest ≠ [] := by
        obtain ⟨a, text, rfl⟩ := ht.exists_cons
        simp
      rcases hother.connective_inside hne hop with hstar | ⟨m, mark, hm, hmantissa, hmark⟩
      · rw [hstar] at hwhole
        exact absurd (hwhole.unique ((map_token?_lexFrom_eq_iff 0).1 rfl)) (hts.star [])
      · rw [hm] at hwhole
        obtain ⟨u, name, hu, hnumber⟩ := hmantissa.tokens_mark hmark hwhole
        rw [hts.number [] u name [] hu] at hnumber
        cases hnumber

/-- An operator is a token of its own before what begins neither with a star nor with a power. -/
theorem Lexed.cons_connective {ys : List Char} {c : Char} {op : Token} {us : List Token} (hop : Connective c op)
    (hys : Lexed ys us) (hus : ∀ u ∈ us.head?, u ≠ .star ∧ u ≠ .power) : Lexed (c :: ys) (op :: us) := by
  cases hop with
  | plus => exact (lexed_cons_iff (by decide)).2 ⟨.plus, us, rfl, rfl, hys⟩
  | minus => exact (lexed_cons_iff (by decide)).2 ⟨.minus, us, rfl, rfl, hys⟩
  | star =>
    have hhead : ¬ ys.head? = some '*' := by
      intro hstar
      obtain ⟨ys, rfl⟩ := List.head?_eq_some_iff.1 hstar
      obtain ⟨u, rest, rfl, hu, -⟩ := (lexed_cons_iff (by decide)).1 hys
      obtain ⟨hnotStar, hnotPower⟩ := hus u rfl
      rw [scan_star] at hu
      split_ifs at hu
      · exact hnotPower (Option.some.inj hu).symm
      · exact hnotStar (Option.some.inj hu).symm
    rw [lexed_cons_iff (by decide), scan_star, if_neg hhead]
    exact ⟨.star, us, rfl, rfl, hys⟩

/-- A text whose first token is a sign begins, after blanks, with a sign. -/
theorem Lexed.head_of_sign {cs : List Char} {sign : Sign} {ts : List Token} (h : Lexed cs (sign.token :: ts)) :
    ∃ c ∈ (cs.dropWhile isBlank).head?, c = '+' ∨ c = '-' := by
  generalize hrow : sign.token :: ts = row at h
  induction h with
  | nil => cases hrow
  | blank hblank h ih => simpa [List.dropWhile_cons, hblank] using ih hrow
  | token ht hlongest h ih =>
    obtain ⟨rfl, -⟩ := List.cons.inj hrow
    cases sign with
    | plus =>
      cases ht
      exact ⟨'+', by simp [isBlank], .inl rfl⟩
    | minus =>
      cases ht
      exact ⟨'-', by simp [isBlank], .inr rfl⟩

/-! ### Accepted rows at a seam -/

namespace Reader

variable {K R : Type} [Zero K] [One K] [Neg K] [Zero R] [One R] [ComplexScalar K R]
variable {table : SymbolTable K} {stop : ℕ} {r r' : Reader K} {t : PlacedToken} {out : List (Summand K)}

/-- After a number only a star or a sign can follow. -/
theorem phase_of_number (ht : t.token.isNumber = true) (h : r.step table t = .ok r') : r'.phase = .joint := by
  have hatom (h : r.atom table t = .ok r') : r'.phase = .joint := by
    cases htoken : t.token with
    | float d =>
      simp only [atom, htoken] at h
      cases h
      rfl
    | int k =>
      simp only [atom, htoken] at h
      cases h
      rfl
    | _ => simp [htoken, Token.isNumber] at ht
  have hraised {b : Base K} {k : ℤ} (h : (b.raised k).map r.push = .ok r') : r'.phase = .joint := by
    cases hb : b.raised k with
    | error e => simp [hb, Except.map] at h
    | ok a =>
      rw [hb] at h
      cases h
      rfl
  have hafter (r : Reader K) (h : r.afterAtom t = .ok r') : r'.phase = .joint := by
    cases htoken : t.token with
    | float d => simp [afterAtom, htoken] at h
    | int k => simp [afterAtom, htoken] at h
    | _ => simp [htoken, Token.isNumber] at ht
  unfold step at h
  cases hphase : r.phase with
  | start =>
    simp only [hphase] at h
    split at h
    · next htoken => simp [htoken, Token.isNumber] at ht
    · next htoken => simp [htoken, Token.isNumber] at ht
    · exact hatom h
  | atom =>
    simp only [hphase] at h
    exact hatom h
  | base b =>
    simp only [hphase] at h
    split at h
    · next htoken => simp [htoken, Token.isNumber] at ht
    · exact hafter _ h
  | caret b =>
    simp only [hphase] at h
    split at h
    · next htoken => simp [htoken, Token.isNumber] at ht
    · exact hraised h
    · cases h
  | caretMinus b =>
    simp only [hphase] at h
    split at h
    · exact hraised h
    · cases h
  | joint =>
    simp only [hphase] at h
    exact hafter _ h

/-- After a star an atom has to follow. -/
theorem phase_of_star (ht : t.token = .star) (h : r.step table t = .ok r') : r'.phase = .atom := by
  have hafter (r : Reader K) (h : r.afterAtom t = .ok r') : r'.phase = .atom := by
    simp only [afterAtom, ht] at h
    cases h
    rfl
  cases hphase : r.phase with
  | base b => exact hafter (r.push b.bare) (by simpa [step, hphase, ht] using h)
  | joint => exact hafter r (by simpa [step, hphase] using h)
  | _ => simp [step, hphase, ht, atom] at h

theorem exists_of_run_cons {rest : List PlacedToken} (h : run table stop r (t :: rest) = .ok out) :
    ∃ r', r.step table t = .ok r' ∧ run table stop r' rest = .ok out := by
  rw [run_cons] at h
  cases ht : r.step table t with
  | error e => simp [ht, Except.bind] at h
  | ok r' => exact ⟨r', rfl, by simpa [ht, Except.bind] using h⟩

theorem exists_of_run_append {before rest : List PlacedToken} (h : run table stop r (before ++ rest) = .ok out) :
    ∃ r', run table stop r' rest = .ok out := by
  induction before generalizing r with
  | nil => exact ⟨r, h⟩
  | cons t before ih =>
    obtain ⟨r', -, hrun⟩ := exists_of_run_cons h
    exact ih hrun

end Reader

section

variable {K R : Type} [Zero K] [One K] [Neg K] [Zero R] [One R] [ComplexScalar K R] {table : SymbolTable K}

theorem Accepts.separable {ts : List Token} (h : Accepts table ts) : Separable ts := by
  obtain ⟨out, hrun⟩ := h
  constructor
  · rintro before t name after rfl
    rw [List.map_append] at hrun
    obtain ⟨r, hr⟩ := Reader.exists_of_run_append hrun
    obtain ⟨r₁, ht, hr₁⟩ := Reader.exists_of_run_cons hr
    obtain ⟨r₂, hname, -⟩ := Reader.exists_of_run_cons hr₁
    rw [Bool.eq_false_iff]
    intro hnumber
    simp [Reader.step, Reader.phase_of_number hnumber ht, Reader.afterAtom] at hname
  · rintro before rfl
    rw [List.map_append] at hrun
    obtain ⟨r, hr⟩ := Reader.exists_of_run_append hrun
    obtain ⟨r₁, ht, hfinish⟩ := Reader.exists_of_run_cons hr
    simp [Reader.run_nil, Reader.finish, Reader.phase_of_star rfl ht] at hfinish

theorem Accepts.head {ts : List Token} (h : Accepts table ts) : ∀ t ∈ ts.head?, t ≠ .star ∧ t ≠ .power := by
  intro t ht
  obtain ⟨rest, rfl⟩ := List.head?_eq_some_iff.1 ht
  obtain ⟨out, hrun⟩ := h
  obtain ⟨r, hstep, -⟩ := Reader.exists_of_run_cons hrun
  constructor
  · rintro rfl
    cases hstep
  · rintro rfl
    cases hstep

/-- Accepted rows keep their tokens when an operator joins their texts. -/
theorem Lexed.join {xs ys : List Char} {ts us : List Token} {c : Char} {op : Token} (hop : Connective c op)
    (hxs : Lexed xs ts) (hts : Accepts table ts) (hys : Lexed ys us) (hus : Accepts table us) :
    Lexed (xs ++ c :: ys) (ts ++ op :: us) :=
  hxs.append_connective hts.separable hop (hys.cons_connective hop hus.head)

end

/-! ### Trees at a seam -/

def ProductTree.times (p q : ProductTree) : ProductTree := ⟨p.first, p.rest ++ q.trees⟩

theorem ProductTree.tokens_times (p q : ProductTree) : (p.times q).tokens = p.tokens ++ .star :: q.tokens := by
  simp [tokens, times, trees, starTokens]

theorem ProductTree.trees_times (p q : ProductTree) : (p.times q).trees = p.trees ++ q.trees := by
  simp [times, trees]

namespace SumTree

variable {u : SumTree}

theorem tokens_of_sign (hu : u.sign = none) : u.tokens = u.first.tokens ++ signTokens u.rest := by
  rw [tokens, hu]
  rfl

/-- A sign between two sums continues the first one by the products of the second. -/
theorem exists_sum (t : SumTree) (sign : Sign) (hu : u.sign = none) :
    ∃ v : SumTree, v.tokens = t.tokens ++ sign.token :: u.tokens ∧
      v.products = t.products ++ (sign, u.first) :: u.rest := by
  refine ⟨⟨t.sign, t.first, t.rest ++ (sign, u.first) :: u.rest⟩, ?_, rfl⟩
  rw [tokens_of_sign hu]
  simp [tokens, signTokens]

/-- A star between two sums makes one product of the last of the first and the first of the second. -/
theorem exists_product (t : SumTree) (hu : u.sign = none) :
    ∃ (v : SumTree) (init : List (Sign × ProductTree)) (sign : Sign) (p : ProductTree),
      v.tokens = t.tokens ++ .star :: u.tokens ∧ t.products = init ++ [(sign, p)] ∧
      v.products = init ++ (sign, p.times u.first) :: u.rest := by
  obtain ⟨lead, first, rest⟩ := t
  rw [tokens_of_sign hu]
  rcases List.eq_nil_or_concat rest with rfl | ⟨rest, ⟨sign, p⟩, rfl⟩
  · refine ⟨⟨lead, first.times u.first, u.rest⟩, [], _, _, ?_, rfl, rfl⟩
    simp [tokens, ProductTree.tokens_times, signTokens]
  · refine ⟨⟨lead, first, rest ++ (sign, p.times u.first) :: u.rest⟩, (lead.getD .plus, first) :: rest, sign, p, ?_, ?_,
      rfl⟩
    · simp [tokens, ProductTree.tokens_times, signTokens]
    · simp [products]

end SumTree

/-! ### Joined expressions -/

section

variable {K R : Type} [Zero K] [One K] [Neg K] [Zero R] [One R] [ComplexScalar K R]

/-- Texts that a tree with known names is written as. -/
structure SumTree.Written (table : SymbolTable K) (tree : SumTree) (source : String) : Prop where
  lexed : Lexed source.toList tree.tokens
  admissible : tree.Admissible table

variable {table : SymbolTable K} {source source₁ source₂ : String} {t u v : SumTree} {c : Char}

theorem ProductTree.Admissible.times {p q : ProductTree} (hp : p.Admissible table) (hq : q.Admissible table) :
    (p.times q).Admissible table := by
  rw [Admissible, trees_times, List.forall_mem_append]
  exact ⟨hp, hq⟩

namespace SumTree

theorem Admissible.accepts (h : t.Admissible table) : Accepts table t.tokens := by
  obtain ⟨ss, hss⟩ := t.exists_summands?_iff.2 h
  refine ⟨ss, readSum_eq_ok_iff.2 ⟨t, ?_, hss⟩⟩
  simp [Function.comp_def]

theorem admissible_iff (u : SumTree) :
    u.Admissible table ↔ u.first.Admissible table ∧ ∀ p ∈ u.rest, p.2.Admissible table := by
  rw [Admissible, products, List.forall_mem_cons]

theorem Written.sign_eq_none (h : u.Written table source)
    (hsign : ∀ c ∈ (source.toList.dropWhile isBlank).head?, c ≠ '+' ∧ c ≠ '-') : u.sign = none := by
  have hlexed := h.lexed
  cases hlead : u.sign with
  | none => rfl
  | some sign =>
    rw [tokens, hlead] at hlexed
    obtain ⟨c, hc, hplus | hminus⟩ := Lexed.head_of_sign hlexed
    · exact absurd hplus (hsign c hc).1
    · exact absurd hminus (hsign c hc).2

/-- Texts with an operator between them are a tree that has their tokens with that operator between them. -/
theorem Written.join {op : Token} (hop : Connective c op) (ht : t.Written table source₁) (hu : u.Written table source₂)
    (hv : v.tokens = t.tokens ++ op :: u.tokens) (hadmissible : v.Admissible table)
    (hsource : source.toList = source₁.toList ++ c :: source₂.toList) : v.Written table source := by
  refine ⟨?_, hadmissible⟩
  rw [hsource, hv]
  exact ht.lexed.join hop ht.admissible.accepts hu.lexed hu.admissible.accepts

theorem Written.sum (sign : Sign) (hop : Connective c sign.token) (ht : t.Written table source₁)
    (hu : u.Written table source₂) (hnone : u.sign = none)
    (hsource : source.toList = source₁.toList ++ c :: source₂.toList) :
    ∃ v : SumTree, v.Written table source ∧ v.products = t.products ++ (sign, u.first) :: u.rest := by
  obtain ⟨v, hv, hproducts⟩ := exists_sum t sign hnone
  refine ⟨v, ht.join hop hu hv ?_ hsource, hproducts⟩
  rw [Admissible, hproducts, List.forall_mem_append, List.forall_mem_cons]
  exact ⟨ht.admissible, u.admissible_iff.1 hu.admissible⟩

theorem Written.product (ht : t.Written table source₁) (hu : u.Written table source₂) (hnone : u.sign = none)
    (hsource : source.toList = source₁.toList ++ '*' :: source₂.toList) :
    ∃ (v : SumTree) (init : List (Sign × ProductTree)) (sign : Sign) (p : ProductTree), v.Written table source ∧
      t.products = init ++ [(sign, p)] ∧ v.products = init ++ (sign, p.times u.first) :: u.rest := by
  obtain ⟨v, init, sign, p, hv, htproducts, hproducts⟩ := exists_product t hnone
  refine ⟨v, init, sign, p, ht.join .star hu hv ?_ hsource, htproducts, hproducts⟩
  obtain ⟨hinit, hlast⟩ : (∀ q ∈ init, q.2.Admissible table) ∧ p.Admissible table := by
    have hadmissible := ht.admissible
    rwa [Admissible, htproducts, List.forall_mem_append, List.forall_mem_singleton] at hadmissible
  obtain ⟨hfirst, hrest⟩ := u.admissible_iff.1 hu.admissible
  rw [Admissible, hproducts, List.forall_mem_append, List.forall_mem_cons]
  exact ⟨hinit, hlast.times hfirst, hrest⟩

end SumTree

variable [Neg R] [RealScalar R]

/-- A text is read as the monomials of the tree that it is written from. -/
theorem parseExpression_eq_ok_iff_written {ms : List (Monomial K)} :
    parseExpression table source = .ok ms ↔
      ∃ tree : SumTree, tree.Written table source ∧ tree.monomials table = ms := by
  constructor
  · intro h
    by_cases hlex : ∃ tokens, Lexed source.toList tokens
    · obtain ⟨tokens, hlex⟩ := hlex
      obtain ⟨tree, rfl, hadmissible, hms⟩ := (parseExpression_eq_ok_iff hlex).1 h
      exact ⟨tree, ⟨hlex, hadmissible⟩, hms⟩
    · obtain ⟨l, hl⟩ := exists_firstInvalid (not_exists.1 hlex)
      cases (parseExpression_of_firstInvalid hl).symm.trans h
  · rintro ⟨tree, htree, hms⟩
    exact (parseExpression_eq_ok_iff htree.lexed).2 ⟨tree, rfl, htree.admissible, hms⟩

end

theorem ProductTree.monomial_minus (table : SymbolTable ℂ) (p : ProductTree) :
    p.monomial table .minus = ⟨-(p.monomial table .plus).coefficient, (p.monomial table .plus).factors⟩ := by
  simp [monomial, coefficient_eq_prod, Sign.negative]

theorem ProductTree.monomial_times (table : SymbolTable ℂ) (sign : Sign) (p q : ProductTree) :
    (p.times q).monomial table sign =
      ⟨(p.monomial table sign).coefficient * (q.monomial table .plus).coefficient,
        (p.monomial table sign).factors ++ (q.monomial table .plus).factors⟩ := by
  simp [monomial, coefficient_eq_prod, literals, trees_times, Sign.negative, mul_assoc]

/-- Two expressions, the second of which does not begin with a sign, are an expression when an operator
stands between them. With `+` it has the monomials of the first and then those of the second; with `-`
the first monomial of the second is negated; with `*` the last monomial of the first is multiplied by
the first of the second. -/
theorem parseExpression_joined {table : SymbolTable ℂ} {source₁ source₂ : String} {ms₁ ms₂ : List (Monomial ℂ)}
    (h₁ : parseExpression table source₁ = .ok ms₁) (h₂ : parseExpression table source₂ = .ok ms₂)
    (hsign : ∀ c ∈ (source₂.toList.dropWhile isBlank).head?, c ≠ '+' ∧ c ≠ '-') :
    ∃ init last first rest, ms₁ = init ++ [last] ∧ ms₂ = first :: rest ∧
      parseExpression table (source₁ ++ "+" ++ source₂) = .ok (ms₁ ++ ms₂) ∧
      parseExpression table (source₁ ++ "-" ++ source₂) =
        .ok (ms₁ ++ ⟨-first.coefficient, first.factors⟩ :: rest) ∧
      parseExpression table (source₁ ++ "*" ++ source₂) =
        .ok (init ++ ⟨last.coefficient * first.coefficient, last.factors ++ first.factors⟩ :: rest) := by
  obtain ⟨t, ht, rfl⟩ := parseExpression_eq_ok_iff_written.1 h₁
  obtain ⟨u, hu, rfl⟩ := parseExpression_eq_ok_iff_written.1 h₂
  have hnone := hu.sign_eq_none hsign
  have hproducts : u.products = (.plus, u.first) :: u.rest := by
    rw [SumTree.products, hnone]
    rfl
  have hplus : (source₁ ++ "+" ++ source₂).toList = source₁.toList ++ '+' :: source₂.toList := by simp
  have hminus : (source₁ ++ "-" ++ source₂).toList = source₁.toList ++ '-' :: source₂.toList := by simp
  have hstar : (source₁ ++ "*" ++ source₂).toList = source₁.toList ++ '*' :: source₂.toList := by simp
  obtain ⟨v, hv, hvproducts⟩ := ht.sum .plus .plus hu hnone hplus
  obtain ⟨w, hw, hwproducts⟩ := ht.sum .minus .minus hu hnone hminus
  obtain ⟨x, init, sign, p, hx, htproducts, hxproducts⟩ := ht.product hu hnone hstar
  refine ⟨init.map fun q => q.2.monomial table q.1, p.monomial table sign, u.first.monomial table .plus,
    u.rest.map fun q => q.2.monomial table q.1, ?_, ?_, ?_, ?_, ?_⟩
  · simp [SumTree.monomials, htproducts]
  · simp [SumTree.monomials, hproducts]
  · exact parseExpression_eq_ok_iff_written.2 ⟨v, hv, by simp [SumTree.monomials, hvproducts, hproducts]⟩
  · exact parseExpression_eq_ok_iff_written.2
      ⟨w, hw, by simp [SumTree.monomials, hwproducts, ProductTree.monomial_minus]⟩
  · exact parseExpression_eq_ok_iff_written.2
      ⟨x, hx, by simp [SumTree.monomials, hxproducts, ProductTree.monomial_times]⟩

/-- A name that would be the mark of an exponent right after a number, and a blank after the operator. -/
theorem parseExpression_joined_mark :
    let mark : Symbol ℂ := ⟨"e", 0, .scalar 2⟩
    let table : SymbolTable ℂ := ⟨[mark]⟩
    let x : Factor ℂ := .symbol (.pauli .x 0)
    let y : Factor ℂ := .symbol (.pauli .y 1)
    parseExpression table "-X0 + 2*e" = .ok [⟨-1, [x]⟩, ⟨2, [.symbol mark]⟩] ∧
    parseExpression table " 5*Y1 - I" = .ok [⟨5, [y]⟩, ⟨-1, [.imaginaryUnit]⟩] ∧
    parseExpression table "-X0 + 2*e+ 5*Y1 - I" =
      .ok [⟨-1, [x]⟩, ⟨2, [.symbol mark]⟩, ⟨5, [y]⟩, ⟨-1, [.imaginaryUnit]⟩] ∧
    parseExpression table "-X0 + 2*e- 5*Y1 - I" =
      .ok [⟨-1, [x]⟩, ⟨2, [.symbol mark]⟩, ⟨-5, [y]⟩, ⟨-1, [.imaginaryUnit]⟩] ∧
    parseExpression table "-X0 + 2*e* 5*Y1 - I" =
      .ok [⟨-1, [x]⟩, ⟨2 * 5, [.symbol mark, y]⟩, ⟨-1, [.imaginaryUnit]⟩] := by
  intro mark table x y
  have h₁ : parseExpression table "-X0 + 2*e" = .ok [⟨-1, [x]⟩, ⟨2, [.symbol mark]⟩] := by
    have hread : parseExpression table "-X0 + 2*e" =
        .ok [⟨ComplexScalar.scaleReal 1 (-1 : ℝ), [x]⟩,
          ⟨ComplexScalar.scaleReal (ComplexScalar.scaleReal 1 (Decimal.ofNat 2).toReal) (1 : ℝ), [.symbol mark]⟩] := rfl
    rw [hread]
    simp [Decimal.toReal, Decimal.ofNat]
  have h₂ : parseExpression table " 5*Y1 - I" = .ok [⟨5, [y]⟩, ⟨-1, [.imaginaryUnit]⟩] := by
    have hread : parseExpression table " 5*Y1 - I" =
        .ok [⟨ComplexScalar.scaleReal (ComplexScalar.scaleReal 1 (Decimal.ofNat 5).toReal) (1 : ℝ), [y]⟩,
          ⟨ComplexScalar.scaleReal 1 (-1 : ℝ), [.imaginaryUnit]⟩] := rfl
    rw [hread]
    simp [Decimal.toReal, Decimal.ofNat]
  have hsign : ∀ c ∈ (" 5*Y1 - I".toList.dropWhile isBlank).head?, c ≠ '+' ∧ c ≠ '-' := by
    have hhead : (" 5*Y1 - I".toList.dropWhile isBlank).head? = some '5' := rfl
    rw [hhead]
    simp
  obtain ⟨init, last, first, rest, hlast, hfirst, hplus, hminus, hstar⟩ := parseExpression_joined h₁ h₂ hsign
  obtain ⟨rfl, rfl⟩ := List.cons.inj hfirst
  obtain ⟨rfl, hsingle⟩ := List.append_inj' (show [_] ++ [_] = init ++ [last] from hlast) rfl
  obtain ⟨rfl, -⟩ := List.cons.inj hsingle
  exact ⟨h₁, h₂, hplus, hminus, hstar⟩

end QubitDynamics
