import Mathlib.Data.Finset.Card
import Mathlib.Data.Nat.Digits.Defs
import QubitDynamics.Proofs.Lexing

/-! Names of symbols. A Pauli operator is named by its letter and the digits of its
qubit. Zeros at the front of the digits count for nothing, so that every such name
stands for the one without them. A table answers with the symbols that were added to
it, the latest of each name, and leaves every other name to the Pauli operators. -/

namespace QubitDynamics

/-! ### Rows of digits -/

namespace Decimal

def digitValue (c : Char) : ℕ := c.toNat - '0'.toNat

theorem ofDigits_concat (cs : List Char) (c : Char) : ofDigits (cs ++ [c]) = 10 * ofDigits cs + digitValue c := by
  rw [ofDigits, List.foldl_append]
  rfl

/-- A row of digits denotes the sum of its digits, each times the power of ten of its place. -/
theorem ofDigits_eq_sum_places (cs : List Char) : ofDigits cs = Nat.ofDigits 10 (cs.reverse.map digitValue) := by
  induction cs using List.reverseRecOn with
  | nil => rfl
  | append_singleton cs c ih =>
    rw [ofDigits_concat, ih, List.reverse_concat, List.map_cons, Nat.ofDigits_cons, Nat.add_comm]

theorem digitValue_lt {c : Char} (hc : c.isDigit = true) : digitValue c < 10 := by
  have hle : c.val.toNat ≤ 57 := of_decide_eq_true (Bool.and_eq_true_iff.1 hc).2
  have hval : c.toNat = c.val.toNat := rfl
  have hzero : '0'.toNat = 48 := rfl
  rw [digitValue]
  omega

theorem toDigits_digitValue {c : Char} (hc : c.isDigit = true) : Nat.toDigits 10 (digitValue c) = [c] := by
  have hlt := digitValue_lt hc
  have hge : 48 ≤ c.toNat := of_decide_eq_true (Bool.and_eq_true_iff.1 hc).1
  have hzero : '0'.toNat = 48 := rfl
  rw [Nat.toDigits_of_lt_base hlt]
  refine congrArg (· :: []) (Char.toNat_inj.1 ?_)
  rw [Nat.toNat_digitChar_of_lt_ten hlt, digitValue]
  omega

/-- A row of digits consists of zeros and the decimal text of its number. -/
theorem exists_eq_zeros_append {cs : List Char} (hne : cs ≠ []) (hcs : Digits cs) :
    ∃ k, cs = List.replicate k '0' ++ Nat.toDigits 10 (ofDigits cs) := by
  induction cs using List.reverseRecOn with
  | nil => exact absurd rfl hne
  | append_singleton cs c ih =>
    have hc : c.isDigit = true := hcs c (by simp)
    rw [ofDigits_concat]
    by_cases hempty : cs = []
    · subst hempty
      refine ⟨0, ?_⟩
      rw [show ofDigits [] = 0 from rfl, Nat.mul_zero, Nat.zero_add, toDigits_digitValue hc]
      rfl
    · obtain ⟨k, hk⟩ := ih hempty fun d hd => hcs d (List.mem_append_left _ hd)
      by_cases hzero : ofDigits cs = 0
      · -- all digits so far are zeros
        refine ⟨k + 1, ?_⟩
        rw [hzero, Nat.toDigits_zero, ← List.replicate_succ'] at hk
        rw [hzero, Nat.mul_zero, Nat.zero_add, toDigits_digitValue hc, ← hk]
      · refine ⟨k, ?_⟩
        rw [← Nat.toDigits_append_toDigits (by omega) (Nat.pos_of_ne_zero hzero) (digitValue_lt hc),
          toDigits_digitValue hc, ← List.append_assoc, ← hk]

/-- The digits without the zeros at the front. -/
def significant (cs : List Char) : List Char := cs.dropWhile (· = '0')

theorem ofDigits_significant (cs : List Char) : ofDigits (significant cs) = ofDigits cs := by
  induction cs with
  | nil => rfl
  | cons c cs ih =>
    by_cases hc : c = '0'
    · subst hc
      exact ih
    · rw [significant, List.dropWhile_cons_of_neg (by simpa using hc)]

theorem significant_zeros_append (k : ℕ) (cs : List Char) : significant (List.replicate k '0' ++ cs) = significant cs :=
  List.dropWhile_append_of_pos (by simp)

theorem ofDigits_eq_iff {cs ds : List Char} (hcs : cs ≠ []) (hcs' : Digits cs) (hds : ds ≠ []) (hds' : Digits ds) :
    ofDigits cs = ofDigits ds ↔ significant cs = significant ds := by
  constructor
  · intro h
    obtain ⟨k, hk⟩ := exists_eq_zeros_append hcs hcs'
    obtain ⟨l, hl⟩ := exists_eq_zeros_append hds hds'
    rw [hk, hl, h, significant_zeros_append, significant_zeros_append]
  · intro h
    rw [← ofDigits_significant cs, h, ofDigits_significant]

end Decimal

/-! ### Names of Pauli operators -/

/-- The name of a Pauli operator: its letter and at least one of the digits `0` to `9`. -/
structure PauliName where
  pauli : Pauli
  digits : List Char
  digits_ne_nil : digits ≠ []
  isDecimal : Digits digits

namespace PauliName

def text (n : PauliName) : String := n.pauli.letter ++ String.ofList n.digits

/-- The number of the qubit: the sum of the digits by their places. -/
def number (n : PauliName) : ℕ := Nat.ofDigits 10 (n.digits.reverse.map Decimal.digitValue)

/-- The name without zeros at the front. -/
def canonical (p : Pauli) (q : ℕ) : PauliName where
  pauli := p
  digits := Nat.toDigits 10 q
  digits_ne_nil := Nat.toDigits_ne_nil
  isDecimal _ hc := Nat.isDigit_of_mem_toDigits (by omega) (by omega) hc

theorem number_eq (n : PauliName) : n.number = Decimal.ofDigits n.digits := (Decimal.ofDigits_eq_sum_places n.digits).symm

theorem number_canonical (p : Pauli) (q : ℕ) : (canonical p q).number = q := by
  rw [number_eq]
  exact Nat.ofDigitChars_ten_toDigits

theorem text_canonical (p : Pauli) (q : ℕ) : (canonical p q).text = p.letter ++ q.repr := by
  rw [Nat.repr_eq_ofList_toDigits]
  rfl

theorem number_eq_iff (m n : PauliName) :
    m.number = n.number ↔ Decimal.significant m.digits = Decimal.significant n.digits := by
  rw [number_eq, number_eq, Decimal.ofDigits_eq_iff m.digits_ne_nil m.isDecimal n.digits_ne_nil n.isDecimal]

end PauliName

theorem SymbolTable.pauliOfLetter?_eq_some_iff {c : Char} {p : Pauli} :
    pauliOfLetter? c = some p ↔ p.letter.toList = [c] := by
  constructor
  · intro h
    unfold pauliOfLetter? at h
    split at h <;> cases h <;> rfl
  · intro h
    cases p <;> cases h <;> rfl

theorem Pauli.exists_toList_letter (p : Pauli) : ∃ c, p.letter.toList = [c] := by cases p <;> exact ⟨_, rfl⟩

namespace Symbol

variable {K R : Type} [Zero K] [One K] [Neg K] [Zero R] [One R] [ComplexScalar K R] {p p' : Pauli} {q q' : ℕ}

theorem name_pauli (p : Pauli) (q : ℕ) : (.pauli p q : Symbol K).name = p.letter ++ q.repr := rfl

theorem pauli_eq_iff : (.pauli p q : Symbol K) = .pauli p' q' ↔ p = p' ∧ q = q' := by
  constructor
  · intro h
    obtain rfl : q = q' := Int.ofNat_inj.1 (congrArg Symbol.qubit h)
    have hname := congrArg (String.toList ∘ Symbol.name) h
    simp only [Function.comp_apply, name_pauli, String.toList_append] at hname
    obtain ⟨c, hc⟩ := p.exists_toList_letter
    have hc' : p'.letter.toList = [c] := List.append_cancel_right hname ▸ hc
    rw [← SymbolTable.pauliOfLetter?_eq_some_iff] at hc hc'
    exact ⟨Option.some_inj.1 (hc.symm.trans hc'), rfl⟩
  · rintro ⟨rfl, rfl⟩
    rfl

end Symbol

/-! ### Tables -/

namespace SymbolTable

theorem builtin?_text (n : PauliName) :
    builtin? n.text = if n.number < 2 ^ 63 then some (n.pauli, n.number) else none := by
  obtain ⟨c, hc⟩ := n.pauli.exists_toList_letter
  have htext : n.text.toList = c :: n.digits := by
    rw [PauliName.text, String.toList_append, hc, String.toList_ofList]
    rfl
  have hall : n.digits.all Char.isDigit = true := List.all_eq_true.2 n.isDecimal
  rw [builtin?, htext, n.number_eq]
  simp [pauliOfLetter?_eq_some_iff.2 hc, n.digits_ne_nil, hall, Nat.one_shiftLeft]

theorem exists_text_eq_of_builtin? {name : String} (h : (builtin? name).isSome) : ∃ n : PauliName, n.text = name := by
  unfold builtin? at h
  split at h
  · cases h
  · rename_i c digits hname
    cases hp : pauliOfLetter? c with
    | none => simp [hp] at h
    | some p =>
      by_cases hdigits : digits.isEmpty || !digits.all Char.isDigit
      · simp [hp, hdigits] at h
      · simp only [Bool.or_eq_true, List.isEmpty_iff, Bool.not_eq_true', Bool.not_eq_false, not_or] at hdigits
        refine ⟨⟨p, digits, hdigits.1, List.all_eq_true.1 hdigits.2⟩, String.toList_injective ?_⟩
        rw [hname, PauliName.text, String.toList_append, pauliOfLetter?_eq_some_iff.1 hp, String.toList_ofList]
        rfl

variable {K R : Type}

def names (table : SymbolTable K) : List String := table.symbols.map (·.name)

theorem map_name_insertInto (s : Symbol K) (symbols : List (Symbol K)) :
    (insertInto s symbols).map (·.name) =
      if s.name ∈ symbols.map (·.name) then symbols.map (·.name) else symbols.map (·.name) ++ [s.name] := by
  induction symbols with
  | nil => rfl
  | cons t ts ih =>
    by_cases ht : t.name = s.name
    · simp [insertInto, ht]
    · rw [insertInto, if_neg ht, List.map_cons, List.map_cons, ih]
      simp only [List.mem_cons, Ne.symm ht, false_or]
      split <;> rfl

theorem find?_insertInto (s : Symbol K) (symbols : List (Symbol K)) (name : String) :
    (insertInto s symbols).find? (·.name = name) =
      if s.name = name then some s else symbols.find? (·.name = name) := by
  induction symbols with
  | nil => by_cases h : s.name = name <;> simp [insertInto, h]
  | cons t ts ih =>
    by_cases ht : t.name = s.name
    · rw [insertInto, if_pos ht]
      by_cases h : s.name = name <;> simp [h, ht]
    · rw [insertInto, if_neg ht, List.find?_cons, ih, List.find?_cons]
      by_cases h : s.name = name
      · have hne : t.name ≠ name := h ▸ ht
        simp [h, hne]
      · simp [h]

theorem names_insert (table : SymbolTable K) (s : Symbol K) :
    (table.insert s).names = if s.name ∈ table.names then table.names else table.names ++ [s.name] :=
  map_name_insertInto s table.symbols

theorem nodup_names_insert {table : SymbolTable K} (h : table.names.Nodup) (s : Symbol K) :
    (table.insert s).names.Nodup := by
  rw [names_insert]
  split
  · exact h
  · rename_i hs
    rw [← List.concat_eq_append]
    exact h.concat hs

theorem mem_names_insert {table : SymbolTable K} {s : Symbol K} {name : String} :
    name ∈ (table.insert s).names ↔ name ∈ table.names ∨ s.name = name := by
  rw [names_insert]
  split
  · rename_i hs
    exact ⟨Or.inl, fun h => h.elim id fun e => e ▸ hs⟩
  · rw [List.mem_append, List.mem_singleton, eq_comm]

/-- The table after symbols were added one by one to the empty one. -/
def ofInsertions (calls : List (Symbol K)) : SymbolTable K := calls.foldl insert empty

theorem ofInsertions_concat (calls : List (Symbol K)) (s : Symbol K) :
    ofInsertions (calls ++ [s]) = (ofInsertions calls).insert s := List.foldl_concat ..

theorem nodup_names_ofInsertions (calls : List (Symbol K)) : (ofInsertions calls).names.Nodup := by
  induction calls using List.reverseRecOn with
  | nil => exact List.nodup_nil
  | append_singleton calls s ih =>
    rw [ofInsertions_concat]
    exact nodup_names_insert ih s

theorem mem_names_ofInsertions {calls : List (Symbol K)} {name : String} :
    name ∈ (ofInsertions calls).names ↔ name ∈ calls.map (·.name) := by
  induction calls using List.reverseRecOn with
  | nil => rfl
  | append_singleton calls s ih =>
    rw [ofInsertions_concat, mem_names_insert, ih, List.map_append, List.mem_append, List.map_singleton,
      List.mem_singleton, eq_comm (a := name)]

theorem size_ofInsertions (calls : List (Symbol K)) :
    (ofInsertions calls).size = (calls.map (·.name)).toFinset.card := by
  have hnames : (ofInsertions calls).names.toFinset = (calls.map (·.name)).toFinset := by
    ext name
    rw [List.mem_toFinset, List.mem_toFinset, mem_names_ofInsertions]
  rw [← hnames, List.toFinset_card_of_nodup (nodup_names_ofInsertions calls), names, List.length_map]
  rfl

variable [Zero K] [One K] [Neg K] [Zero R] [One R] [ComplexScalar K R]

theorem resolve?_insert (table : SymbolTable K) (s : Symbol K) (name : String) :
    (table.insert s).resolve? name = if s.name = name then some s else table.resolve? name := by
  simp only [resolve?, insert, find?_insertInto]
  by_cases h : s.name = name <;> simp [h]

/-- A name stands for the symbol that was added last under it. -/
theorem exists_last_insertion {calls : List (Symbol K)} {name : String} (h : name ∈ calls.map (·.name)) :
    ∃ before s after, calls = before ++ s :: after ∧ s.name = name ∧ (∀ t ∈ after, t.name ≠ name) ∧
      (ofInsertions calls).resolve? name = some s := by
  induction calls using List.reverseRecOn with
  | nil => cases h
  | append_singleton calls t ih =>
    rw [ofInsertions_concat, resolve?_insert]
    by_cases ht : t.name = name
    · exact ⟨calls, t, [], rfl, ht, by simp, if_pos ht⟩
    · rw [List.map_append, List.mem_append, List.map_singleton, List.mem_singleton] at h
      obtain ⟨before, s, after, rfl, hs, hafter, hresolve⟩ := ih (h.resolve_right (Ne.symm ht))
      refine ⟨before, s, after ++ [t], by simp, hs, fun u hu => ?_, by rw [if_neg ht, hresolve]⟩
      rcases List.mem_append.1 hu with hu | hu
      · exact hafter u hu
      · rwa [List.mem_singleton.1 hu]

theorem resolve?_of_notMem {table : SymbolTable K} {name : String} (h : name ∉ table.names) :
    table.resolve? name = (builtin? name).map fun (p, q) => .pauli p q := by
  have hnone : table.symbols.find? (·.name = name) = none := by
    rw [List.find?_eq_none]
    intro s hs hname
    exact h (List.mem_map.2 ⟨s, hs, of_decide_eq_true hname⟩)
  rw [resolve?, hnone]

theorem resolve?_text {table : SymbolTable K} {n : PauliName} (h : n.text ∉ table.names) :
    table.resolve? n.text = if n.number < 2 ^ 63 then some (.pauli n.pauli n.number) else none := by
  rw [resolve?_of_notMem h, builtin?_text]
  split <;> rfl

theorem resolve?_eq_some_iff {table : SymbolTable K} {name : String} (h : name ∉ table.names) (s : Symbol K) :
    table.resolve? name = some s ↔ ∃ n : PauliName, n.text = name ∧ n.number < 2 ^ 63 ∧ s = .pauli n.pauli n.number := by
  constructor
  · intro hs
    obtain ⟨n, rfl⟩ : ∃ n : PauliName, n.text = name := by
      refine exists_text_eq_of_builtin? ?_
      rw [resolve?_of_notMem h] at hs
      rw [← Option.isSome_map, hs]
      rfl
    rw [resolve?_text h] at hs
    split at hs
    · rename_i hn
      exact ⟨n, rfl, hn, (Option.some_inj.1 hs).symm⟩
    · cases hs
  · rintro ⟨n, rfl, hn, rfl⟩
    rw [resolve?_text h, if_pos hn]

/-- The name of a Pauli operator stands for it. -/
theorem resolve?_name_pauli (p : Pauli) {q : ℕ} (hq : q < 2 ^ 63) :
    empty.resolve? (.pauli p q : Symbol K).name = some (.pauli p q : Symbol K) := by
  rw [Symbol.name_pauli, ← PauliName.text_canonical, resolve?_text List.not_mem_nil, PauliName.number_canonical,
    if_pos hq]
  rfl

theorem resolve?_text_eq_iff {table table' : SymbolTable K} {m n : PauliName} (hm : m.text ∉ table.names)
    (hn : n.text ∉ table'.names) (hlt : m.number < 2 ^ 63) :
    table.resolve? m.text = table'.resolve? n.text ↔ m.pauli = n.pauli ∧ m.number = n.number := by
  rw [resolve?_text hm, resolve?_text hn, if_pos hlt]
  split
  · rw [Option.some_inj, Symbol.pauli_eq_iff]
  · rename_i hge
    constructor
    · intro h
      cases h
    · rintro ⟨-, h⟩
      exact absurd (h ▸ hlt) hge

/-- A name that a table does not have stands for a Pauli operator if it is a letter and digits of a number below
`2 ^ 63`. The symbol has the name without zeros at the front, which stands for it too; two names stand for one symbol
if they differ in such zeros only. A name that was added stands for the symbol added last, and the size of a table is
the number of names that were added. -/
theorem resolve?_builtin_or_last_inserted :
    (∀ (table : SymbolTable K) (name : String), name ∉ table.names → ∀ s, table.resolve? name = some s ↔
      ∃ n : PauliName, n.text = name ∧ n.number ≤ 2 ^ 63 - 1 ∧
        s = ⟨n.pauli.letter ++ n.number.repr, n.number, .tensor n.pauli.matrix.toTensor⟩) ∧
    (∀ (table : SymbolTable K) (name : String), name ∉ table.names → ∀ s, table.resolve? name = some s →
      empty.resolve? s.name = some s) ∧
    (∀ (table table' : SymbolTable K) (m n : PauliName), m.text ∉ table.names → n.text ∉ table'.names →
      m.number ≤ 2 ^ 63 - 1 →
      (table.resolve? m.text = table'.resolve? n.text ↔ m.pauli = n.pauli ∧ m.number = n.number) ∧
      (m.number = n.number ↔ Decimal.significant m.digits = Decimal.significant n.digits)) ∧
    ∀ calls : List (Symbol K),
      (∀ name ∈ calls.map (·.name), ∃ before s after, calls = before ++ s :: after ∧ s.name = name ∧
        (∀ t ∈ after, t.name ≠ name) ∧ (ofInsertions calls).resolve? name = some s) ∧
      (∀ name, name ∈ (ofInsertions calls).names ↔ name ∈ calls.map (·.name)) ∧
      (ofInsertions calls).size = (calls.map (·.name)).toFinset.card := by
  have hbound (q : ℕ) : q ≤ 2 ^ 63 - 1 ↔ q < 2 ^ 63 := by omega
  simp only [hbound]
  refine ⟨fun table name h s => resolve?_eq_some_iff h s, fun table name h s hs => ?_,
    fun table table' m n hm hn hlt => ⟨resolve?_text_eq_iff hm hn hlt, m.number_eq_iff n⟩,
    fun calls => ⟨fun name h => exists_last_insertion h, fun name => mem_names_ofInsertions, size_ofInsertions calls⟩⟩
  obtain ⟨n, -, hlt, rfl⟩ := (resolve?_eq_some_iff h s).1 hs
  exact resolve?_name_pauli n.pauli hlt

/-- A name of a Pauli operator that was given away twice and is still reached by a zero at its front, and the first
number that is too large. -/
theorem resolve?_builtin_or_last_inserted_shadowed :
    let first : Symbol (Cartesian Float) := ⟨"X1", 4, .scalar 0⟩
    let other : Symbol (Cartesian Float) := ⟨"g", -1, .scalar 1⟩
    let last : Symbol (Cartesian Float) := ⟨"X1", 7, .scalar 1⟩
    let table := ofInsertions [first, other, last]
    table.resolve? "X1" = some last ∧ table.size = 2 ∧ "X01" ∉ table.names ∧
    table.resolve? "X01" = some ⟨"X1", 1, .tensor Pauli.x.matrix.toTensor⟩ ∧ empty.resolve? "X1" = table.resolve? "X01" ∧
    table.resolve? "X01" = table.resolve? "X001" ∧ table.resolve? "Z9223372036854775808" = none := by
  intro first other last table
  obtain ⟨hsome, hcanonical, hequal, hcalls⟩ := resolve?_builtin_or_last_inserted (K := Cartesian Float)
  obtain ⟨hlast, hnames, hsize⟩ := hcalls [first, other, last]
  let zeroOne : PauliName := ⟨.x, ['0', '1'], by simp, by simp [Digits]⟩
  let zeroZeroOne : PauliName := ⟨.x, ['0', '0', '1'], by simp, by simp [Digits]⟩
  have hfree : ∀ name ∈ ["X01", "X001", "Z9223372036854775808"], name ∉ table.names := by
    intro name hname
    rw [hnames]
    revert name
    decide
  have hX01 : table.resolve? "X01" = some ⟨"X1", 1, .tensor Pauli.x.matrix.toTensor⟩ := by
    have hnumber : zeroOne.number = 1 := by decide
    refine (hsome table "X01" (hfree _ (by decide)) _).2 ⟨zeroOne, by decide, by decide, ?_⟩
    rw [hnumber]
    rfl
  refine ⟨?_, hsize, hfree _ (by decide), hX01, ?_, ?_, ?_⟩
  · obtain ⟨before, s, after, hsplit, hname, hafter, hs⟩ := hlast "X1" (by decide)
    rcases before with _ | ⟨_, _ | ⟨_, _ | ⟨_, _⟩⟩⟩ <;> simp at hsplit
    · exact absurd rfl (hafter last (by simp [← hsplit.2]))
    · rw [← hsplit.2.1] at hname
      exact absurd hname (by decide)
    · rw [hs, hsplit.2.2.1]
  · exact (hcanonical table "X01" (hfree _ (by decide)) _ hX01).trans hX01.symm
  · exact (hequal table table zeroOne zeroZeroOne (hfree _ (by decide)) (hfree _ (by decide)) (by decide)).1.2 (by decide)
  · rw [Option.eq_none_iff_forall_ne_some]
    intro s hs
    obtain ⟨⟨p, digits, hne, hdecimal⟩, htext, hle, -⟩ := (hsome table _ (hfree _ (by decide)) s).1 hs
    have hlist := congrArg String.toList htext
    rw [PauliName.text, String.toList_append, String.toList_ofList] at hlist
    cases p <;> simp [Pauli.letter] at hlist
    subst hlist
    simp only [PauliName.number] at hle
    exact absurd hle (by decide)

end SymbolTable

end QubitDynamics
