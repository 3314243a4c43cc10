import Mathlib.Data.Int.Notation
import Mathlib.Data.List.Basic
import Mathlib.Data.List.TakeWhile
import Mathlib.Tactic.Tauto
import QubitDynamics.Expression.Reader

/-! The lexical grammar of expressions. `Spelled text token?` says which texts are
lexemes and what they stand for, class by class; `Lexed text tokens` says that the
text is cut into blanks and lexemes, where each lexeme is the longest that begins at
its place. The lexer computes exactly these tokens, and reports an invalid token
exactly when there are none. -/

namespace QubitDynamics

open Lexer

/-! ### Texts of lexemes -/

def Digits (cs : List Char) : Prop := ∀ c ∈ cs, c.isDigit = true

/-- The exponent of a numeral and its value; it may be missing. -/
inductive ExponentText : List Char → ℤ → Prop
  | missing : ExponentText [] 0
  | plain {c : Char} {ds : List Char} (hc : c = 'e' ∨ c = 'E') (hne : ds ≠ []) (hds : Digits ds) :
      ExponentText (c :: ds) (Decimal.ofDigits ds)
  | plus {c : Char} {ds : List Char} (hc : c = 'e' ∨ c = 'E') (hne : ds ≠ []) (hds : Digits ds) :
      ExponentText (c :: '+' :: ds) (Decimal.ofDigits ds)
  | minus {c : Char} {ds : List Char} (hc : c = 'e' ∨ c = 'E') (hne : ds ≠ []) (hds : Digits ds) :
      ExponentText (c :: '-' :: ds) (-Decimal.ofDigits ds)

/-- The texts of lexemes with their tokens. An integer of `2 ^ 63` or more has no token. -/
inductive Spelled : List Char → Option Token → Prop
  | plus : Spelled ['+'] (some .plus)
  | minus : Spelled ['-'] (some .minus)
  | star : Spelled ['*'] (some .star)
  | caret : Spelled ['^'] (some .power)
  | stars : Spelled ['*', '*'] (some .power)
  | imaginaryUnit : Spelled ['I'] (some .imaginaryUnit)
  | ident {c : Char} {cs : List Char} (hc : isIdentStart c = true) (hcs : ∀ x ∈ cs, isIdentRest x = true)
      (hne : c :: cs ≠ ['I']) : Spelled (c :: cs) (some (.ident (String.ofList (c :: cs))))
  | int {ds : List Char} (hne : ds ≠ []) (hds : Digits ds) (hlt : Decimal.ofDigits ds < 1 <<< 63) :
      Spelled ds (some (.int (Decimal.ofDigits ds)))
  | tooLarge {ds : List Char} (hne : ds ≠ []) (hds : Digits ds) (hle : 1 <<< 63 ≤ Decimal.ofDigits ds) : Spelled ds none
  | point {ws fs es : List Char} {e : ℤ} (hws : Digits ws) (hfs : Digits fs) (hne : ws ≠ [] ∨ fs ≠ [])
      (hes : ExponentText es e) :
      Spelled (ws ++ '.' :: (fs ++ es)) (some (.float ⟨Decimal.ofDigits (ws ++ fs), e - fs.length⟩))
  | scientific {ws es : List Char} {e : ℤ} (hne : ws ≠ []) (hws : Digits ws) (hes : ExponentText es e)
      (hmark : es ≠ []) :
      Spelled (ws ++ es) (some (.float ⟨Decimal.ofDigits ws, e⟩))

/-- Texts that are cut into blanks and longest lexemes with the given tokens. -/
inductive Lexed : List Char → List Token → Prop
  | nil : Lexed [] []
  | blank {c : Char} {cs : List Char} {ts : List Token} (hc : isBlank c = true) (h : Lexed cs ts) : Lexed (c :: cs) ts
  | token {text rest : List Char} {t : Token} {ts : List Token} (ht : Spelled text (some t))
      (hlongest : ∀ other token?, Spelled other token? → other <+: text ++ rest → other.length ≤ text.length)
      (h : Lexed rest ts) : Lexed (text ++ rest) (t :: ts)

/-! ### Classes of characters -/

theorem isDigit_eq_false_of_isIdentStart {c : Char} (h : isIdentStart c = true) : c.isDigit = false := by
  have hupper : c.isUpper = decide (c.val ≥ 'A'.val ∧ c.val ≤ 'Z'.val) := rfl
  have hlower : c.isLower = (decide (c.val ≥ 'a'.val) && decide (c.val ≤ 'z'.val)) := rfl
  have halpha : c.isAlpha = (c.isUpper || c.isLower) := rfl
  simp only [isIdentStart, halpha, hupper, hlower, Bool.or_eq_true, Bool.and_eq_true, decide_eq_true_eq,
    ge_iff_le, UInt32.le_iff_toNat_le] at h
  simp only [Char.isDigit, Bool.and_eq_false_iff, decide_eq_false_iff_not, ge_iff_le, UInt32.le_iff_toNat_le]
  rcases h with (h | h) | rfl
  · simp at h ⊢
    omega
  · simp at h ⊢
    omega
  · decide

theorem digits_nil : Digits [] := by simp [Digits]

theorem digits_cons {c : Char} {cs : List Char} : Digits (c :: cs) ↔ c.isDigit = true ∧ Digits cs := by
  simp [Digits]

def NotDigit (cs : List Char) : Prop := ∀ c ∈ cs.head?, c.isDigit = false

theorem takeWhile_digits {ds rest : List Char} (hds : Digits ds) (hrest : NotDigit rest) :
    (ds ++ rest).takeWhile Char.isDigit = ds := by
  rw [List.takeWhile_append_of_pos hds]
  cases rest with
  | nil => simp
  | cons c rest => simp [hrest c rfl]

theorem dropWhile_digits {ds rest : List Char} (hds : Digits ds) (hrest : NotDigit rest) :
    (ds ++ rest).dropWhile Char.isDigit = rest := by
  rw [List.dropWhile_append_of_pos hds]
  cases rest with
  | nil => rfl
  | cons c rest => simp [hrest c rfl]

/-- The digits at the front of a text, and what follows them. -/
theorem exists_digits (cs : List Char) :
    ∃ ds rest, cs = ds ++ rest ∧ Digits ds ∧ NotDigit rest ∧ digitCount cs = ds.length := by
  refine ⟨cs.takeWhile Char.isDigit, cs.dropWhile Char.isDigit, List.takeWhile_append_dropWhile.symm, ?_, ?_, rfl⟩
  · exact fun c hc => List.mem_takeWhile_imp hc
  · intro c hc
    have hhead := List.head?_dropWhile_not Char.isDigit cs
    rw [Option.mem_def.1 hc] at hhead
    exact hhead

theorem digitCount_append {ds : List Char} (hds : Digits ds) (rest : List Char) :
    digitCount (ds ++ rest) = ds.length + digitCount rest := by
  rw [digitCount, List.takeWhile_append_of_pos hds, List.length_append]
  rfl

theorem digitCount_eq_zero {cs : List Char} (h : NotDigit cs) : digitCount cs = 0 := by
  cases cs with
  | nil => rfl
  | cons c cs => simp [digitCount, h c rfl]

/-! ### Numerals -/

theorem notDigit_mark {c : Char} (hc : c = 'e' ∨ c = 'E') (cs : List Char) : NotDigit (c :: cs) := by
  rcases hc with rfl | rfl <;> simp [NotDigit]

theorem ExponentText.notDigit {es : List Char} {e : ℤ} (h : ExponentText es e) : NotDigit es := by
  cases h with
  | missing => simp [NotDigit]
  | plain hc => exact notDigit_mark hc _
  | plus hc => exact notDigit_mark hc _
  | minus hc => exact notDigit_mark hc _

theorem ExponentText.ne_point {es : List Char} {e : ℤ} (h : ExponentText es e) (rest : List Char) :
    es ≠ '.' :: rest := by
  rintro rfl
  cases h <;> simp_all

theorem readNat?_digits {ds : List Char} (hne : ds ≠ []) (hds : Digits ds) :
    Decimal.readInt?.readNat? ds = some (Decimal.ofDigits ds) := by
  have hall : ds.all Char.isDigit = true := List.all_eq_true.2 hds
  simp [Decimal.readInt?.readNat?, hne, hall]

theorem readExponent?_eq {es : List Char} {e : ℤ} (h : ExponentText es e) : Decimal.readExponent? es = some e := by
  cases h with
  | missing => rfl
  | plain hc hne hds =>
    obtain ⟨d, ds, rfl⟩ := List.exists_cons_of_ne_nil hne
    have hd := (digits_cons.1 hds).1
    have hminus : d ≠ '-' := by
      rintro rfl
      exact absurd hd (by decide)
    have hplus : d ≠ '+' := by
      rintro rfl
      exact absurd hd (by decide)
    simp [Decimal.readExponent?, hc, Decimal.readInt?, hminus, hplus, readNat?_digits hne hds]
  | plus hc hne hds => simp [Decimal.readExponent?, hc, Decimal.readInt?, readNat?_digits hne hds]
  | minus hc hne hds => simp [Decimal.readExponent?, hc, Decimal.readInt?, readNat?_digits hne hds]

theorem read?_point {ws fs es : List Char} {e : ℤ} (hws : Digits ws) (hfs : Digits fs) (hne : ws ≠ [] ∨ fs ≠ [])
    (hes : ExponentText es e) :
    Decimal.read? (ws ++ '.' :: (fs ++ es)) = some ⟨Decimal.ofDigits (ws ++ fs), e - fs.length⟩ := by
  have hpoint : NotDigit ('.' :: (fs ++ es)) := by simp [NotDigit]
  have hsome : ¬ (ws.isEmpty && fs.isEmpty) = true := by
    simpa [or_iff_not_imp_left] using hne
  unfold Decimal.read?
  rw [dropWhile_digits hws hpoint, takeWhile_digits hws hpoint]
  simp only [takeWhile_digits hfs hes.notDigit, dropWhile_digits hfs hes.notDigit, readExponent?_eq hes]
  rw [if_neg hsome]
  rfl

theorem read?_scientific {ws es : List Char} {e : ℤ} (hne : ws ≠ []) (hws : Digits ws) (hes : ExponentText es e) :
    Decimal.read? (ws ++ es) = some ⟨Decimal.ofDigits ws, e⟩ := by
  unfold Decimal.read?
  rw [dropWhile_digits hws hes.notDigit, takeWhile_digits hws hes.notDigit]
  split
  · exact absurd rfl (hes.ne_point _)
  · simp [hne, readExponent?_eq hes]

/-! ### Lengths of numerals -/

/-- The length of an optional sign at the front. -/
def signLength : List Char → ℕ
  | [] => 0
  | s :: _ => if s = '+' ∨ s = '-' then 1 else 0

theorem exponentLength_cons {c : Char} (hc : c = 'e' ∨ c = 'E') (cs : List Char) :
    exponentLength (c :: cs) =
      if digitCount (cs.drop (signLength cs)) = 0 then 0
      else 1 + signLength cs + digitCount (cs.drop (signLength cs)) := by
  cases cs with
  | nil => simp [exponentLength, signLength, digitCount]
  | cons s cs =>
    have hsign : (if s = '+' ∨ s = '-' then 1 else 0) = signLength (s :: cs) := rfl
    simp only [exponentLength, if_pos hc, hsign]
    split
    · next h => rw [if_pos h]
    · next h => rw [h, if_neg (Nat.succ_ne_zero _)]

theorem signLength_digits {ds : List Char} (hne : ds ≠ []) (hds : Digits ds) (rest : List Char) :
    signLength (ds ++ rest) = 0 := by
  obtain ⟨d, ds, rfl⟩ := List.exists_cons_of_ne_nil hne
  have hd := (digits_cons.1 hds).1
  refine if_neg ?_
  rintro (rfl | rfl)
  · exact absurd hd (by decide)
  · exact absurd hd (by decide)

/-- An exponent is not longer than what the lexer takes for it. -/
theorem ExponentText.length_le {es : List Char} {e : ℤ} (h : ExponentText es e) (rest : List Char) :
    es.length ≤ exponentLength (es ++ rest) := by
  have hpos {ds : List Char} (hne : ds ≠ []) (hds : Digits ds) : ds.length ≤ digitCount (ds ++ rest) ∧
      digitCount (ds ++ rest) ≠ 0 := by
    have := List.length_pos_of_ne_nil hne
    rw [digitCount_append hds]
    omega
  cases h with
  | missing => exact Nat.zero_le _
  | @plain c ds hc hne hds =>
    rw [List.cons_append, exponentLength_cons hc, signLength_digits hne hds, List.drop_zero, if_neg (hpos hne hds).2,
      List.length_cons]
    have := (hpos hne hds).1
    omega
  | @plus c ds hc hne hds =>
    rw [List.cons_append, List.cons_append, exponentLength_cons hc]
    have := hpos hne hds
    simp only [signLength, true_or, if_true, List.drop_succ_cons, List.drop_zero, if_neg this.2, List.length_cons]
    omega
  | @minus c ds hc hne hds =>
    rw [List.cons_append, List.cons_append, exponentLength_cons hc]
    have := hpos hne hds
    simp only [signLength, or_true, if_true, List.drop_succ_cons, List.drop_zero, if_neg this.2, List.length_cons]
    omega

/-- What the lexer takes for an exponent is one. -/
theorem exists_exponentText (cs : List Char) : ∃ e, ExponentText (cs.take (exponentLength cs)) e := by
  cases cs with
  | nil => exact ⟨0, .missing⟩
  | cons c cs =>
    by_cases hc : c = 'e' ∨ c = 'E'
    · rw [exponentLength_cons hc]
      split_ifs with hzero
      · exact ⟨0, .missing⟩
      · obtain ⟨ds, rest, hcs, hds, -, hcount⟩ := exists_digits (cs.drop (signLength cs))
        have hne : ds ≠ [] := by
          rintro rfl
          exact hzero hcount
        rw [hcount, Nat.add_assoc, Nat.add_comm 1, List.take_succ_cons]
        cases cs with
        | nil => exact absurd rfl hzero
        | cons s cs =>
          by_cases hs : s = '+' ∨ s = '-'
          · rw [signLength, if_pos hs, List.drop_succ_cons, List.drop_zero] at hcs
            rw [signLength, if_pos hs, Nat.add_comm 1, List.take_succ_cons, hcs, List.take_left]
            rcases hs with rfl | rfl
            · exact ⟨_, .plus hc hne hds⟩
            · exact ⟨_, .minus hc hne hds⟩
          · rw [signLength, if_neg hs, List.drop_zero] at hcs
            rw [signLength, if_neg hs, Nat.zero_add, hcs, List.take_left]
            exact ⟨_, .plain hc hne hds⟩
    · have hzero : exponentLength (c :: cs) = 0 := by simp [exponentLength, hc]
      rw [hzero]
      exact ⟨0, .missing⟩

/-- The length of the digits after a point and of the exponent. -/
def fractionLength (cs : List Char) : ℕ := digitCount cs + exponentLength (cs.drop (digitCount cs))

theorem length_le_fractionLength {fs es : List Char} {e : ℤ} (hfs : Digits fs) (hes : ExponentText es e)
    (rest : List Char) : (fs ++ es).length ≤ fractionLength (fs ++ es ++ rest) := by
  cases es with
  | nil =>
    rw [List.append_nil, fractionLength, digitCount_append hfs]
    omega
  | cons c es =>
    have hzero : digitCount (c :: es ++ rest) = 0 := digitCount_eq_zero hes.notDigit
    have hle := hes.length_le rest
    rw [List.append_assoc, fractionLength, digitCount_append hfs, hzero, Nat.add_zero, List.drop_left,
      List.length_append]
    omega

theorem exists_fraction (cs : List Char) :
    ∃ fs es e, cs.take (fractionLength cs) = fs ++ es ∧ Digits fs ∧ ExponentText es e ∧ fs.length = digitCount cs := by
  obtain ⟨fs, rest, hcs, hfs, -, hcount⟩ := exists_digits cs
  obtain ⟨e, hes⟩ := exists_exponentText rest
  refine ⟨fs, _, e, ?_, hfs, hes, hcount.symm⟩
  have hdrop : cs.drop fs.length = rest := by rw [hcs, List.drop_left]
  rw [fractionLength, hcount, hdrop, hcs, List.take_length_add_append]

/-! ### One lexeme -/

theorem take_takeWhile (p : Char → Bool) (cs : List Char) : cs.take (cs.takeWhile p).length = cs.takeWhile p :=
  (List.prefix_iff_eq_take.1 (List.takeWhile_prefix p)).symm

theorem take_past (ws : List Char) (c : Char) (rest : List Char) (k : ℕ) :
    (ws ++ c :: rest).take (ws.length + 1 + k) = ws ++ c :: rest.take k := by
  rw [Nat.add_assoc, List.take_length_add_append, Nat.add_comm 1, List.take_succ_cons]

theorem scan_point_numeral {c : Char} (hc : c.isDigit = true) {ws : List Char} (hws : Digits ws) (rest : List Char) :
    scan c (ws ++ '.' :: rest) =
      (floatToken (c :: (ws ++ '.' :: rest.take (fractionLength rest))), ws.length + 1 + fractionLength rest) := by
  have hcount : digitCount (ws ++ '.' :: rest) = ws.length := by
    rw [digitCount_append hws, digitCount_eq_zero (by simp [NotDigit]), Nat.add_zero]
  simp only [scan, hc, if_true, hcount, List.drop_left]
  rw [← take_past, fractionLength, Nat.add_assoc _ (digitCount rest)]

theorem scan_numeral {c : Char} (hc : c.isDigit = true) {ws : List Char} (hws : Digits ws) {rest : List Char}
    (hrest : NotDigit rest) (hpoint : ∀ r, rest ≠ '.' :: r) :
    scan c (ws ++ rest) =
      if exponentLength rest = 0 then (intToken (c :: ws), ws.length)
      else (floatToken (c :: (ws ++ rest.take (exponentLength rest))), ws.length + exponentLength rest) := by
  have hcount : digitCount (ws ++ rest) = ws.length := by
    rw [digitCount_append hws, digitCount_eq_zero hrest, Nat.add_zero]
  simp only [scan, hc, if_true, hcount, List.drop_left]
  split
  · rw [List.take_left]
  · rw [List.take_length_add_append]

theorem scan_point (cs : List Char) :
    scan '.' cs =
      if digitCount cs = 0 then (none, 0)
      else (floatToken ('.' :: cs.take (fractionLength cs)), fractionLength cs) := rfl

theorem scan_word {c : Char} (hc : isIdentStart c = true) (cs : List Char) :
    scan c cs = (some (identToken (c :: cs.takeWhile isIdentRest)), (cs.takeWhile isIdentRest).length) := by
  have hpoint : c ≠ '.' := by
    rintro rfl
    exact absurd hc (by decide)
  simp [scan, isDigit_eq_false_of_isIdentStart hc, hpoint, hc, take_takeWhile]

theorem scan_star (cs : List Char) :
    scan '*' cs = if cs.head? = some '*' then (some .power, 1) else (some .star, 0) := rfl

/-- How a lexeme begins. -/
theorem Spelled.head_cases {c : Char} {text : List Char} {token? : Option Token} (h : Spelled (c :: text) token?) :
    c.isDigit = true ∨ (c = '.' ∧ digitCount text ≠ 0) ∨ isIdentStart c = true ∨
      c = '+' ∨ c = '-' ∨ c = '*' ∨ c = '^' := by
  generalize hx : c :: text = x at h
  cases h with
  | plus => simp_all
  | minus => simp_all
  | star => simp_all
  | caret => simp_all
  | stars => simp_all
  | imaginaryUnit => simp_all [show isIdentStart 'I' = true from rfl]
  | ident hc => simp_all
  | int hne hds =>
    subst hx
    exact .inl (digits_cons.1 hds).1
  | tooLarge hne hds =>
    subst hx
    exact .inl (digits_cons.1 hds).1
  | @point ws fs es e hws hfs hne hes =>
    cases ws with
    | nil =>
      obtain ⟨rfl, rfl⟩ := List.cons.inj hx
      have hpos := List.length_pos_of_ne_nil (hne.resolve_left (by simp))
      refine .inr (.inl ⟨rfl, ?_⟩)
      rw [digitCount_append hfs]
      omega
    | cons w ws =>
      obtain ⟨rfl, rfl⟩ := List.cons.inj hx
      exact .inl (digits_cons.1 hws).1
  | @scientific ws es e hne hws =>
    obtain ⟨w, ws, rfl⟩ := List.exists_cons_of_ne_nil hne
    obtain ⟨rfl, rfl⟩ := List.cons.inj hx
    exact .inl (digits_cons.1 hws).1

theorem length_le_scan_digits {c : Char} (hc : c.isDigit = true) {ws : List Char} (hws : Digits ws) (rest : List Char) :
    ws.length ≤ (scan c (ws ++ rest)).2 := by
  obtain ⟨ds, rest, rfl, hds, hrest, -⟩ := exists_digits rest
  have hall : Digits (ws ++ ds) := fun x hx => (List.mem_append.1 hx).elim (hws x) (hds x)
  rw [← List.append_assoc]
  by_cases hpoint : ∃ r, rest = '.' :: r
  · obtain ⟨r, rfl⟩ := hpoint
    rw [scan_point_numeral hc hall, List.length_append]
    omega
  · rw [scan_numeral hc hall hrest (not_exists.1 hpoint)]
    split <;> simp only [List.length_append] <;> omega

/-- A lexeme at the front is not longer than what the lexer takes. -/
theorem Spelled.length_le_scan {c : Char} {text : List Char} {token? : Option Token} (h : Spelled (c :: text) token?)
    (rest : List Char) : text.length ≤ (scan c (text ++ rest)).2 := by
  generalize hx : c :: text = x at h
  cases h with
  | plus => simp_all
  | minus => simp_all
  | star => simp_all
  | caret => simp_all
  | stars =>
    obtain ⟨rfl, rfl⟩ := List.cons.inj hx
    exact le_rfl
  | imaginaryUnit => simp_all
  | ident hc hcs =>
    obtain ⟨rfl, rfl⟩ := List.cons.inj hx
    rw [scan_word hc, List.takeWhile_append_of_pos hcs, List.length_append]
    omega
  | int hne hds =>
    subst hx
    exact length_le_scan_digits (digits_cons.1 hds).1 (digits_cons.1 hds).2 rest
  | tooLarge hne hds =>
    subst hx
    exact length_le_scan_digits (digits_cons.1 hds).1 (digits_cons.1 hds).2 rest
  | @point ws fs es e hws hfs hne hes =>
    have hle := length_le_fractionLength hfs hes rest
    cases ws with
    | nil =>
      obtain ⟨rfl, rfl⟩ := List.cons.inj hx
      have hpos := List.length_pos_of_ne_nil (hne.resolve_left (by simp))
      have hcount : digitCount (fs ++ es ++ rest) ≠ 0 := by
        rw [List.append_assoc, digitCount_append hfs]
        omega
      rw [scan_point, if_neg hcount]
      exact hle
    | cons w ws =>
      rw [List.cons_append, List.cons.injEq] at hx
      obtain ⟨rfl, rfl⟩ := hx
      obtain ⟨hw, hws⟩ := digits_cons.1 hws
      rw [List.append_assoc, List.cons_append, scan_point_numeral hw hws, List.length_append, List.length_cons]
      omega
  | @scientific ws es e hne hws hes hmark =>
    obtain ⟨w, ws, rfl⟩ := List.exists_cons_of_ne_nil hne
    rw [List.cons_append, List.cons.injEq] at hx
    obtain ⟨rfl, rfl⟩ := hx
    obtain ⟨hw, hws⟩ := digits_cons.1 hws
    obtain ⟨m, es, rfl⟩ := List.exists_cons_of_ne_nil hmark
    have hle := hes.length_le rest
    have hdigit : NotDigit (m :: es ++ rest) := hes.notDigit
    have hpoint (r : List Char) : m :: es ++ rest ≠ '.' :: r := fun e => hes.ne_point es (by simp_all)
    rw [List.length_cons] at hle
    rw [List.append_assoc, scan_numeral hw hws hdigit hpoint, if_neg (by omega), List.length_append, List.length_cons]
    omega

theorem spelled_scan_digit {c : Char} (hc : c.isDigit = true) (cs : List Char) :
    Spelled (c :: cs.take (scan c cs).2) (scan c cs).1 := by
  obtain ⟨ws, rest, rfl, hws, hrest, -⟩ := exists_digits cs
  have hcws : Digits (c :: ws) := digits_cons.2 ⟨hc, hws⟩
  have hne : c :: ws ≠ [] := List.cons_ne_nil c ws
  by_cases hpoint : ∃ r, rest = '.' :: r
  · obtain ⟨r, rfl⟩ := hpoint
    obtain ⟨fs, es, e, htake, hfs, hes, -⟩ := exists_fraction r
    have htoken : floatToken (c :: (ws ++ '.' :: (fs ++ es))) =
        some (.float ⟨Decimal.ofDigits (c :: ws ++ fs), e - fs.length⟩) :=
      congrArg (Option.map Token.float) (read?_point hcws hfs (.inl hne) hes)
    rw [scan_point_numeral hc hws, take_past, htake, htoken]
    exact .point hcws hfs (.inl hne) hes
  · rw [scan_numeral hc hws hrest (not_exists.1 hpoint)]
    split_ifs with hzero
    · rw [List.take_left]
      simp only [intToken]
      split_ifs with hlt
      · exact .int hne hcws hlt
      · exact .tooLarge hne hcws (not_lt.1 hlt)
    · obtain ⟨e, hes⟩ := exists_exponentText rest
      have hmark : rest.take (exponentLength rest) ≠ [] := by
        rw [ne_eq, List.take_eq_nil_iff]
        rintro (h | rfl)
        · exact hzero h
        · exact hzero rfl
      have htoken : floatToken (c :: (ws ++ rest.take (exponentLength rest))) =
          some (.float ⟨Decimal.ofDigits (c :: ws), e⟩) :=
        congrArg (Option.map Token.float) (read?_scientific hne hcws hes)
      rw [List.take_length_add_append, htoken]
      exact .scientific hne hcws hes hmark

theorem spelled_scan_word {c : Char} (hc : isIdentStart c = true) (cs : List Char) :
    Spelled (c :: cs.take (scan c cs).2) (scan c cs).1 := by
  rw [scan_word hc, take_takeWhile]
  unfold identToken
  split_ifs with hunit
  · rw [hunit]
    exact .imaginaryUnit
  · exact .ident hc (fun x hx => List.mem_takeWhile_imp hx) hunit

theorem spelled_scan_star (cs : List Char) : Spelled ('*' :: cs.take (scan '*' cs).2) (scan '*' cs).1 := by
  rw [scan_star]
  split_ifs with hstar
  · obtain ⟨cs, rfl⟩ : ∃ rest, cs = '*' :: rest := by
      cases cs <;> simp_all
    exact .stars
  · exact .star

/-- What the lexer takes is a lexeme with its token, unless no lexeme begins there. -/
theorem spelled_scan (c : Char) (cs : List Char) :
    Spelled (c :: cs.take (scan c cs).2) (scan c cs).1 ∨
      scan c cs = (none, 0) ∧ ∀ text token?, text <+: cs → ¬ Spelled (c :: text) token? := by
  by_cases hdigit : c.isDigit = true
  · exact .inl (spelled_scan_digit hdigit cs)
  by_cases hword : isIdentStart c = true
  · exact .inl (spelled_scan_word hword cs)
  by_cases hpoint : c = '.'
  · subst hpoint
    rw [scan_point]
    split_ifs with hzero
    · refine .inr ⟨rfl, fun text token? hpre h => ?_⟩
      rcases h.head_cases with h | ⟨-, h⟩ | h | h
      · exact hdigit h
      · obtain ⟨rest, rfl⟩ := hpre
        obtain ⟨ds, tail, rfl, hds, -, hcount⟩ := exists_digits text
        rw [List.append_assoc, digitCount_append hds] at hzero
        omega
      · exact hword h
      · simp at h
    · obtain ⟨fs, es, e, htake, hfs, hes, hlen⟩ := exists_fraction cs
      have hne : fs ≠ [] := by
        rintro rfl
        exact hzero hlen.symm
      have htoken : floatToken ('.' :: (fs ++ es)) = some (.float ⟨Decimal.ofDigits fs, e - fs.length⟩) :=
        congrArg (Option.map Token.float) (read?_point digits_nil hfs (.inr hne) hes)
      simp only [htake, htoken]
      exact .inl (.point digits_nil hfs (.inr hne) hes)
  by_cases hsymbol : c = '+' ∨ c = '-' ∨ c = '*' ∨ c = '^'
  · left
    rcases hsymbol with rfl | rfl | rfl | rfl
    · exact .plus
    · exact .minus
    · exact spelled_scan_star cs
    · exact .caret
  · refine .inr ⟨?_, fun text token? _ h => ?_⟩
    · simp only [not_or] at hsymbol
      simp [scan, hdigit, hpoint, hword, hsymbol]
    · rcases h.head_cases with h | ⟨h, -⟩ | h | h
      · exact hdigit h
      · exact hpoint h
      · exact hword h
      · exact hsymbol h

/-- The token of a lexeme by the class of its text. -/
def classify : List Char → Option Token
  | [] => none
  | c :: cs =>
    if c.isDigit || c = '.' then
      if (c :: cs).all Char.isDigit then intToken (c :: cs) else floatToken (c :: cs)
    else if isIdentStart c then some (identToken (c :: cs))
    else match c with
      | '+' => some .plus
      | '-' => some .minus
      | '^' => some .power
      | '*' => if cs = [] then some .star else some .power
      | _ => none

theorem classify_digits {ds : List Char} (hne : ds ≠ []) (hds : Digits ds) : classify ds = intToken ds := by
  obtain ⟨d, ds, rfl⟩ := List.exists_cons_of_ne_nil hne
  have hall : (d :: ds).all Char.isDigit = true := List.all_eq_true.2 hds
  simp only [classify, (digits_cons.1 hds).1, Bool.true_or, if_true, hall]

theorem classify_numeral {c : Char} {cs : List Char} (hc : c.isDigit = true ∨ c = '.') (hcs : ¬ Digits (c :: cs)) :
    classify (c :: cs) = floatToken (c :: cs) := by
  have hall : ¬ (c :: cs).all Char.isDigit = true := fun h => hcs (List.all_eq_true.1 h)
  have hnum : (c.isDigit || decide (c = '.')) = true := by simpa using hc
  simp only [classify, hnum, if_true, if_neg hall]

/-- A text has at most one token. -/
theorem Spelled.classify_eq {text : List Char} {token? : Option Token} (h : Spelled text token?) :
    classify text = token? := by
  cases h with
  | plus => rfl
  | minus => rfl
  | star => rfl
  | caret => rfl
  | stars => rfl
  | imaginaryUnit => rfl
  | @ident c cs hc hcs hne =>
    have hpoint : c ≠ '.' := by
      rintro rfl
      exact absurd hc (by decide)
    simp [classify, isDigit_eq_false_of_isIdentStart hc, hpoint, hc, identToken, hne]
  | int hne hds hlt =>
    rw [classify_digits hne hds]
    exact if_pos hlt
  | tooLarge hne hds hle =>
    rw [classify_digits hne hds]
    exact if_neg (not_lt.2 hle)
  | @point ws fs es e hws hfs hne hes =>
    have hpoint : ¬ Digits (ws ++ '.' :: (fs ++ es)) := fun h => absurd (h '.' (by simp)) (by decide)
    have htoken := congrArg (Option.map Token.float) (read?_point hws hfs hne hes)
    cases ws with
    | nil => exact (classify_numeral (.inr rfl) hpoint).trans htoken
    | cons w ws => exact (classify_numeral (.inl (digits_cons.1 hws).1) hpoint).trans htoken
  | @scientific ws es e hne hws hes hmark =>
    have htoken := congrArg (Option.map Token.float) (read?_scientific hne hws hes)
    obtain ⟨w, ws, rfl⟩ := List.exists_cons_of_ne_nil hne
    obtain ⟨m, es, rfl⟩ := List.exists_cons_of_ne_nil hmark
    have hdigits : ¬ Digits (w :: ws ++ m :: es) := fun h =>
      absurd (h m (by simp)) (by simp [hes.notDigit m rfl])
    exact (classify_numeral (.inl (digits_cons.1 hws).1) hdigits).trans htoken

/-! ### Blanks -/

theorem isBlank_eq_false_of {p : Char → Bool} (hp : p ' ' = false ∧ p '\t' = false ∧ p '\r' = false ∧ p '\n' = false)
    {c : Char} (hc : p c = true) : isBlank c = false := by
  obtain ⟨hspace, htab, hreturn, hnewline⟩ := hp
  rw [Bool.eq_false_iff]
  intro hblank
  have hcases : ((c = ' ' ∨ c = '\t') ∨ c = '\r') ∨ c = '\n' := by simpa [isBlank] using hblank
  rcases hcases with ((rfl | rfl) | rfl) | rfl <;> simp_all

theorem Digits.notBlank {ds : List Char} (h : Digits ds) : ∀ c ∈ ds, isBlank c = false := fun c hc =>
  isBlank_eq_false_of (by decide) (h c hc)

theorem ExponentText.notBlank {es : List Char} {e : ℤ} (h : ExponentText es e) : ∀ c ∈ es, isBlank c = false := by
  have hmark {c : Char} (hc : c = 'e' ∨ c = 'E') : isBlank c = false := by rcases hc with rfl | rfl <;> decide
  cases h with
  | missing => simp
  | plain hc hne hds => simpa [hmark hc] using hds.notBlank
  | plus hc hne hds => simpa [hmark hc, show isBlank '+' = false by decide] using hds.notBlank
  | minus hc hne hds => simpa [hmark hc, show isBlank '-' = false by decide] using hds.notBlank

/-- No lexeme contains a blank. -/
theorem Spelled.notBlank {text : List Char} {token? : Option Token} (h : Spelled text token?) :
    ∀ c ∈ text, isBlank c = false := by
  cases h with
  | plus => simp [isBlank]
  | minus => simp [isBlank]
  | star => simp [isBlank]
  | caret => simp [isBlank]
  | stars => simp [isBlank]
  | imaginaryUnit => simp [isBlank]
  | ident hc hcs hne =>
    exact List.forall_mem_cons.2
      ⟨isBlank_eq_false_of (by decide) hc, fun x hx => isBlank_eq_false_of (by decide) (hcs x hx)⟩
  | int hne hds => exact hds.notBlank
  | tooLarge hne hds => exact hds.notBlank
  | point hws hfs hne hes =>
    refine List.forall_mem_append.2 ⟨hws.notBlank, List.forall_mem_cons.2 ⟨by decide, ?_⟩⟩
    exact List.forall_mem_append.2 ⟨hfs.notBlank, hes.notBlank⟩
  | scientific hne hws hes => exact List.forall_mem_append.2 ⟨hws.notBlank, hes.notBlank⟩

/-! ### Whole texts -/

theorem Spelled.exists_cons {text : List Char} {token? : Option Token} (h : Spelled text token?) :
    ∃ c cs, text = c :: cs := by
  refine List.exists_cons_of_ne_nil ?_
  cases h with
  | int hne => exact hne
  | tooLarge hne => exact hne
  | point => simp
  | scientific hne => simp [hne]
  | _ => simp

theorem lexed_nil_iff {ts : List Token} : Lexed [] ts ↔ ts = [] := by
  refine ⟨fun h => ?_, fun h => h ▸ .nil⟩
  generalize hx : [] = x at h
  cases h with
  | nil => rfl
  | blank => simp at hx
  | token ht =>
    obtain ⟨c, cs, rfl⟩ := ht.exists_cons
    simp at hx

theorem not_spelled_blank {c : Char} (hc : isBlank c = true) {text : List Char} {token? : Option Token} :
    ¬ Spelled (c :: text) token? := fun h => by
  rw [h.notBlank c List.mem_cons_self] at hc
  cases hc

theorem lexed_blank_iff {c : Char} (hc : isBlank c = true) {cs : List Char} {ts : List Token} :
    Lexed (c :: cs) ts ↔ Lexed cs ts := by
  refine ⟨fun h => ?_, .blank hc⟩
  generalize hx : c :: cs = x at h
  cases h with
  | nil => simp at hx
  | blank _ h =>
    obtain ⟨rfl, rfl⟩ := List.cons.inj hx
    exact h
  | token ht =>
    obtain ⟨d, text, rfl⟩ := ht.exists_cons
    obtain ⟨rfl, rfl⟩ := List.cons.inj hx
    exact absurd ht (not_spelled_blank hc)

/-- The next token of a text that does not begin with a blank is the one that the lexer takes. -/
theorem lexed_cons_iff {c : Char} (hc : ¬ isBlank c = true) {cs : List Char} {ts : List Token} :
    Lexed (c :: cs) ts ↔
      ∃ t rest, ts = t :: rest ∧ (scan c cs).1 = some t ∧ Lexed (cs.drop (scan c cs).2) rest := by
  constructor
  · intro h
    generalize hx : c :: cs = x at h
    cases h with
    | nil => simp at hx
    | blank hblank =>
      obtain ⟨rfl, rfl⟩ := List.cons.inj hx
      exact absurd hblank hc
    | @token text rest t ts ht hlongest h =>
      obtain ⟨d, text, rfl⟩ := ht.exists_cons
      rw [List.cons_append, List.cons.injEq] at hx
      obtain ⟨rfl, rfl⟩ := hx
      have hge := ht.length_le_scan rest
      rcases spelled_scan c (text ++ rest) with hscan | ⟨-, hnone⟩
      · have hle := hlongest _ _ hscan ((List.prefix_cons_inj c).2 (List.take_prefix _ _))
        have htake : (text ++ rest).take (scan c (text ++ rest)).2 = text := by
          rw [List.take_append, List.take_of_length_le hge] at hle ⊢
          rw [List.length_cons, List.length_append, List.length_cons] at hle
          have hnil : rest.take ((scan c (text ++ rest)).2 - text.length) = [] :=
            List.length_eq_zero_iff.1 (by omega)
          rw [hnil, List.append_nil]
        have hdrop : (text ++ rest).drop (scan c (text ++ rest)).2 = rest := by
          have := List.take_append_drop (scan c (text ++ rest)).2 (text ++ rest)
          rw [htake] at this
          exact List.append_cancel_left this
        rw [htake] at hscan
        exact ⟨t, ts, rfl, hscan.classify_eq.symm.trans ht.classify_eq, by rwa [hdrop]⟩
      · exact absurd ht (hnone text _ (List.prefix_append text rest))
  · rintro ⟨t, rest, rfl, htoken, h⟩
    rcases spelled_scan c cs with hscan | ⟨hnone, -⟩
    · rw [htoken] at hscan
      have hsplit : c :: cs = c :: cs.take (scan c cs).2 ++ cs.drop (scan c cs).2 := by
        rw [List.cons_append, List.take_append_drop]
      rw [hsplit]
      refine .token hscan (fun other token? hother hpre => ?_) h
      rw [← hsplit] at hpre
      obtain ⟨d, other, rfl⟩ := hother.exists_cons
      obtain ⟨rfl, r, rfl⟩ := List.cons_prefix_cons.1 hpre
      have hle := hother.length_le_scan r
      rw [List.length_cons, List.length_cons, List.length_take, List.length_append]
      omega
    · rw [hnone] at htoken
      cases htoken

/-- Where a lexeme starts changes nothing but positions. -/
theorem map_token?_lexFrom (pos pos' k : ℕ) (cs : List Char) :
    (lexFrom pos k cs).map Lexeme.token? = (lexFrom pos' 0 (cs.drop k)).map Lexeme.token? := by
  induction cs generalizing pos pos' k with
  | nil => simp [lexFrom]
  | cons c cs ih =>
    cases k with
    | zero =>
      rw [List.drop_zero, lexFrom, lexFrom]
      split_ifs with hblank
      · exact ih _ _ 0
      · rw [List.map_cons, List.map_cons, ih _ 0, ih (pos' + c.utf8Size) 0]
    | succ k => exact ih _ _ k

/-- The lexer finds the tokens of a text, if it has tokens. -/
theorem map_token?_lexFrom_eq_iff (pos : ℕ) {cs : List Char} {ts : List Token} :
    (lexFrom pos 0 cs).map Lexeme.token? = ts.map some ↔ Lexed cs ts := by
  induction hlen : cs.length using Nat.strongRecOn generalizing pos cs ts with
  | _ len ih =>
    cases cs with
    | nil =>
      rw [lexed_nil_iff, lexFrom, List.map_nil, eq_comm, List.map_eq_nil_iff]
    | cons c cs =>
      by_cases hblank : isBlank c = true
      · rw [lexed_blank_iff hblank, lexFrom, if_pos hblank]
        exact ih _ (by rw [← hlen, List.length_cons]; omega) _ rfl
      · rw [lexed_cons_iff hblank, lexFrom, if_neg hblank, List.map_cons, map_token?_lexFrom _ 0]
        have hdrop : (cs.drop (scan c cs).2).length < len := by
          rw [← hlen, List.length_drop, List.length_cons]
          omega
        cases ts with
        | nil => simp
        | cons t ts =>
          rw [List.map_cons, List.cons.injEq, ih _ hdrop 0 rfl]
          simp

/-- A text has one row of tokens. -/
theorem Lexed.unique {cs : List Char} {ts us : List Token} (hts : Lexed cs ts) (hus : Lexed cs us) : ts = us := by
  have hmap := ((map_token?_lexFrom_eq_iff 0).2 hts).symm.trans ((map_token?_lexFrom_eq_iff 0).2 hus)
  exact (List.map_inj_right fun _ _ => Option.some.inj).1 hmap

theorem placedTokens_eq_ok_iff {ls : List Lexeme} {tokens : List Token} :
    (∃ ts, placedTokens ls = .ok ts ∧ ts.map PlacedToken.token = tokens) ↔
      ls.map Lexeme.token? = tokens.map some := by
  induction ls generalizing tokens with
  | nil =>
    constructor
    · rintro ⟨ts, h, rfl⟩
      cases h
      rfl
    · intro h
      exact ⟨[], rfl, (List.map_eq_nil_iff.1 h.symm).symm⟩
  | cons l ls ih =>
    rw [List.map_cons, placedTokens]
    cases l.token? with
    | none => cases tokens <;> simp
    | some t =>
      constructor
      · rintro ⟨ts, h, rfl⟩
        cases hls : placedTokens ls with
        | error e => simp [hls, Except.map] at h
        | ok us =>
          obtain rfl : ⟨t, l.start⟩ :: us = ts := by simpa [hls, Except.map] using h
          rw [ih.1 ⟨us, hls, rfl⟩]
          rfl
      · intro h
        cases tokens with
        | nil => simp at h
        | cons t' tokens =>
          rw [List.map_cons, List.cons.injEq, Option.some.injEq] at h
          obtain ⟨us, hus, rfl⟩ := ih.2 h.2
          exact ⟨⟨t, l.start⟩ :: us, by simp [hus, Except.map], by simp [h.1]⟩

/-- A text has tokens exactly when the lexer finds them. -/
theorem lexed_iff {source : String} {tokens : List Token} :
    Lexed source.toList tokens ↔
      ∃ ts, placedTokens (lex source) = .ok ts ∧ ts.map PlacedToken.token = tokens := by
  rw [placedTokens_eq_ok_iff, lex, map_token?_lexFrom_eq_iff]

end QubitDynamics
