import QubitDynamics.Proofs.Lexing

/-! Where lexemes lie in a source. The lexer counts bytes but looks at characters;
`Cut` describes how it cuts a source into blanks and lexemes, with the byte at which
each begins. Lexemes therefore follow each other in order, end where characters end,
and leave out exactly the blank bytes. Since a lexeme is the longest one at its place,
it is also the only one of its own text. -/

namespace QubitDynamics

open Lexer

/-! ### Blank bytes -/

/-- The bytes that separate lexemes: space, tab, carriage return and newline. -/
def isBlankByte (b : UInt8) : Bool :=
  b = ' '.toUInt8 || b = '\t'.toUInt8 || b = '\r'.toUInt8 || b = '\n'.toUInt8

theorem isBlankByte_eq_false {b : UInt8} (h : 128 ≤ b.toNat) : isBlankByte b = false := by
  have hne {c : Char} (hc : c.toUInt8.toNat < 128) : b ≠ c.toUInt8 := by
    rintro rfl
    omega
  simp [isBlankByte, hne (c := ' ') (by decide), hne (c := '\t') (by decide), hne (c := '\r') (by decide),
    hne (c := '\n') (by decide)]

theorem isBlank_eq_false_of_lt {c : Char} (h : 127 < c.toNat) : isBlank c = false := by
  have hne {d : Char} (hd : d.toNat ≤ 127) : c ≠ d := by
    rintro rfl
    omega
  simp [isBlank, hne (d := ' ') (by decide), hne (d := '\t') (by decide), hne (d := '\r') (by decide),
    hne (d := '\n') (by decide)]

/-- The bytes of a character are blank exactly when the character is. -/
theorem isBlankByte_of_mem {c : Char} {b : UInt8} (h : b ∈ String.utf8EncodeChar c) : isBlankByte b = isBlank c := by
  by_cases hc : c.toNat ≤ 127
  · have hsize : c.utf8Size = 1 := Char.utf8Size_eq_one_iff.2 (UInt32.le_iff_toNat_le.2 hc)
    obtain rfl : b = c.toUInt8 := by simpa [String.utf8EncodeChar_eq_singleton hsize] using h
    -- a character of one byte is determined by it
    have hiff {d : Char} (hd : d.toNat ≤ 127) : c.toUInt8 = d.toUInt8 ↔ c = d := by
      refine ⟨fun h => ?_, fun h => h ▸ rfl⟩
      have h : c.val.toNat % 2 ^ 8 = d.val.toNat % 2 ^ 8 := by
        rw [← UInt32.toNat_toUInt8, ← UInt32.toNat_toUInt8]
        exact congrArg UInt8.toNat h
      simp only [Char.toNat] at hc hd
      exact Char.ext (UInt32.toNat_inj.1 (by omega))
    simp [isBlankByte, isBlank, hiff (d := ' ') (by decide), hiff (d := '\t') (by decide), hiff (d := '\r') (by decide),
      hiff (d := '\n') (by decide)]
  · rw [isBlank_eq_false_of_lt (by omega)]
    refine isBlankByte_eq_false ?_
    have hv : ¬ c.val.toNat ≤ 127 := hc
    simp only [String.utf8EncodeChar, if_neg hv] at h
    split_ifs at h <;> simp only [List.mem_cons, List.not_mem_nil, or_false] at h
    · rcases h with rfl | rfl <;> simp <;> omega
    · rcases h with rfl | rfl | rfl <;> simp <;> omega
    · rcases h with rfl | rfl | rfl | rfl <;> simp <;> omega

/-! ### Bytes of texts -/

theorem byteLength_cons (c : Char) (cs : List Char) : byteLength (c :: cs) = c.utf8Size + byteLength cs := rfl

def bytes (cs : List Char) : List UInt8 := cs.flatMap String.utf8EncodeChar

theorem bytes_append (xs ys : List Char) : bytes (xs ++ ys) = bytes xs ++ bytes ys := List.flatMap_append

theorem length_bytes (cs : List Char) : (bytes cs).length = byteLength cs := by
  induction cs with
  | nil => rfl
  | cons c cs ih =>
    rw [bytes, List.flatMap_cons, List.length_append, String.length_utf8EncodeChar, byteLength_cons, ← ih]
    rfl

theorem byteLength_append (xs ys : List Char) : byteLength (xs ++ ys) = byteLength xs + byteLength ys := by
  rw [← length_bytes, bytes_append, List.length_append, length_bytes, length_bytes]

theorem size_utf8Encode (cs : List Char) : cs.utf8Encode.size = byteLength cs := by
  rw [← length_bytes]
  exact List.size_toByteArray

/-- Which bytes are blank, if of the characters in front either all or none are. -/
theorem getElem?_map_isBlankByte {text : List Char} {b : Bool} (h : ∀ c ∈ text, isBlank c = b) (rest : List Char)
    (i : ℕ) :
    ((bytes (text ++ rest)).map isBlankByte)[i]? =
      if i < byteLength text then some b else ((bytes rest).map isBlankByte)[i - byteLength text]? := by
  have htext : (bytes text).map isBlankByte = List.replicate (byteLength text) b := by
    refine List.eq_replicate_iff.2 ⟨by rw [List.length_map, length_bytes], fun x hx => ?_⟩
    obtain ⟨y, hy, rfl⟩ := List.mem_map.1 hx
    obtain ⟨c, hc, hbyte⟩ := List.mem_flatMap.1 hy
    rw [isBlankByte_of_mem hbyte, h c hc]
  rw [bytes_append, List.map_append, htext, List.getElem?_append, List.length_replicate]
  split_ifs with hi
  · rw [List.getElem?_replicate, if_pos hi]
  · rfl

/-! ### Texts of lexemes -/

theorem lexFrom_skip (pos k : ℕ) (cs : List Char) :
    lexFrom pos k cs = lexFrom (pos + byteLength (cs.take k)) 0 (cs.drop k) := by
  induction cs generalizing pos k with
  | nil => simp [lexFrom]
  | cons c cs ih =>
    cases k with
    | zero => rfl
    | succ k => rw [lexFrom, ih, List.take_succ_cons, List.drop_succ_cons, byteLength_cons, Nat.add_assoc]

/-- The first lexeme of a source that does not begin with a blank, and those after it. -/
theorem lexFrom_cons {c : Char} (hc : ¬ isBlank c = true) (pos : ℕ) (cs : List Char) :
    lexFrom pos 0 (c :: cs) =
      ⟨(scan c cs).1, c :: cs.take (scan c cs).2, pos, pos + byteLength (c :: cs.take (scan c cs).2)⟩ ::
        lexFrom (pos + byteLength (c :: cs.take (scan c cs).2)) 0 (cs.drop (scan c cs).2) := by
  have hrest := lexFrom_skip (pos + c.utf8Size) (scan c cs).2 cs
  rw [Nat.add_assoc, ← byteLength_cons] at hrest
  rw [lexFrom, if_neg hc, ← hrest]

/-- What the lexer takes at one place: a spelled text, or a character with which none begins. -/
inductive LexemeText : List Char → Option Token → Prop
  | spelled {text : List Char} {token? : Option Token} (h : Spelled text token?) : LexemeText text token?
  | stray {c : Char} (hc : isBlank c = false) (h : ∀ token?, ¬ Spelled [c] token?) : LexemeText [c] none

namespace LexemeText

variable {text : List Char} {token? : Option Token}

theorem ne_nil (h : LexemeText text token?) : text ≠ [] := by
  cases h with
  | spelled h =>
    obtain ⟨c, cs, rfl⟩ := h.exists_cons
    exact List.cons_ne_nil c cs
  | stray => simp

theorem byteLength_pos (h : LexemeText text token?) : 0 < byteLength text := by
  obtain ⟨c, cs, rfl⟩ := List.exists_cons_of_ne_nil h.ne_nil
  exact Nat.add_pos_left c.utf8Size_pos _

theorem notBlank (h : LexemeText text token?) : ∀ c ∈ text, isBlank c = false := by
  cases h with
  | spelled h => exact h.notBlank
  | stray hc => simpa using hc

/-- What the lexer takes at a place that is not blank. -/
theorem of_scan {c : Char} (hc : isBlank c = false) (cs : List Char) :
    LexemeText (c :: cs.take (scan c cs).2) (scan c cs).1 := by
  rcases spelled_scan c cs with h | ⟨hnone, h⟩
  · exact .spelled h
  · rw [hnone, List.take_zero]
    exact .stray hc fun token? => h [] token? List.nil_prefix

/-- A lexeme that is read alone is read as itself. -/
theorem lexFrom_eq (h : LexemeText text token?) (pos : ℕ) :
    lexFrom pos 0 text = [⟨token?, text, pos, pos + byteLength text⟩] := by
  obtain ⟨c, cs, rfl⟩ := List.exists_cons_of_ne_nil h.ne_nil
  have hblank : ¬ isBlank c = true := by simp [h.notBlank c List.mem_cons_self]
  have hscan : cs.length ≤ (scan c cs).2 ∧ (scan c cs).1 = token? := by
    cases h with
    | spelled h =>
      have hlength := h.length_le_scan []
      rw [List.append_nil] at hlength
      rcases spelled_scan c cs with hs | ⟨-, hnone⟩
      · rw [List.take_of_length_le hlength] at hs
        exact ⟨hlength, hs.classify_eq.symm.trans h.classify_eq⟩
      · exact absurd h (hnone cs _ List.prefix_rfl)
    | stray hc h =>
      rcases spelled_scan c [] with hs | ⟨hnone, -⟩
      · rw [List.take_nil] at hs
        exact absurd hs (h _)
      · simp [hnone]
  rw [lexFrom_cons hblank, List.take_of_length_le hscan.1, List.drop_of_length_le hscan.1, hscan.2, lexFrom]

end LexemeText

/-! ### Cutting a source -/

/-- A source from byte `pos` on, cut into blanks and lexemes. -/
inductive Cut : ℕ → List Char → List Lexeme → Prop
  | nil (pos : ℕ) : Cut pos [] []
  | blank {pos : ℕ} {c : Char} {cs : List Char} {ls : List Lexeme} (hc : isBlank c = true)
      (h : Cut (pos + c.utf8Size) cs ls) : Cut pos (c :: cs) ls
  | lexeme {pos : ℕ} {text rest : List Char} {token? : Option Token} {ls : List Lexeme} (htext : LexemeText text token?)
      (h : Cut (pos + byteLength text) rest ls) :
      Cut pos (text ++ rest) (⟨token?, text, pos, pos + byteLength text⟩ :: ls)

/-- The lexer cuts every source. -/
theorem cut_lexFrom (pos : ℕ) (cs : List Char) : Cut pos cs (lexFrom pos 0 cs) := by
  induction hlen : cs.length using Nat.strongRecOn generalizing pos cs with
  | _ len ih =>
    cases cs with
    | nil => exact .nil pos
    | cons c cs =>
      by_cases hblank : isBlank c = true
      · rw [lexFrom, if_pos hblank]
        exact .blank hblank (ih cs.length (by rw [← hlen, List.length_cons]; omega) _ _ rfl)
      · have hdrop : (cs.drop (scan c cs).2).length < len := by
          rw [← hlen, List.length_drop, List.length_cons]
          omega
        have hcut : Cut pos (c :: cs.take (scan c cs).2 ++ cs.drop (scan c cs).2) _ :=
          .lexeme (.of_scan (Bool.eq_false_iff.2 hblank) cs) (ih _ hdrop _ _ rfl)
        rwa [← lexFrom_cons hblank, List.cons_append, List.take_append_drop] at hcut

namespace Cut

variable {pos : ℕ} {cs : List Char} {ls : List Lexeme}

/-- A lexeme lies after as many bytes as its position says, and is as long as its text. -/
theorem exists_before (h : Cut pos cs ls) {l : Lexeme} (hl : l ∈ ls) :
    ∃ before after, cs = before ++ l.text ++ after ∧ l.start = pos + byteLength before ∧
      l.stop = l.start + byteLength l.text ∧ LexemeText l.text l.token? := by
  induction h with
  | nil => simp at hl
  | @blank pos c cs ls hc h ih =>
    obtain ⟨before, after, rfl, hstart, hrest⟩ := ih hl
    refine ⟨c :: before, after, rfl, ?_, hrest⟩
    rw [hstart, byteLength_cons, Nat.add_assoc]
  | @lexeme pos text rest token? ls htext h ih =>
    rcases List.mem_cons.1 hl with rfl | hl
    · exact ⟨[], rest, rfl, rfl, rfl, htext⟩
    · obtain ⟨before, after, rfl, hstart, hrest⟩ := ih hl
      refine ⟨text ++ before, after, by simp, ?_, hrest⟩
      rw [hstart, byteLength_append, Nat.add_assoc]

theorem le_start (h : Cut pos cs ls) {l : Lexeme} (hl : l ∈ ls) : pos ≤ l.start := by
  obtain ⟨before, -, -, hstart, -⟩ := h.exists_before hl
  omega

theorem start_lt_stop (h : Cut pos cs ls) {l : Lexeme} (hl : l ∈ ls) : l.start < l.stop := by
  obtain ⟨-, -, -, -, hstop, htext⟩ := h.exists_before hl
  have := htext.byteLength_pos
  omega

theorem stop_le (h : Cut pos cs ls) {l : Lexeme} (hl : l ∈ ls) : l.stop ≤ pos + byteLength cs := by
  obtain ⟨before, after, rfl, hstart, hstop, -⟩ := h.exists_before hl
  rw [byteLength_append, byteLength_append]
  omega

/-- Lexemes follow each other without overlap. -/
theorem pairwise (h : Cut pos cs ls) : ls.Pairwise fun a b => a.stop ≤ b.start := by
  induction h with
  | nil => exact .nil
  | blank hc h ih => exact ih
  | lexeme htext h ih => exact .cons (fun l hl => h.le_start hl) ih

/-- A byte is blank exactly when no lexeme contains it. -/
theorem isBlankByte_iff (h : Cut pos cs ls) (i : ℕ) :
    ((bytes cs).map isBlankByte)[i]? = some true ↔
      i < byteLength cs ∧ ∀ l ∈ ls, ¬ (l.start ≤ pos + i ∧ pos + i < l.stop) := by
  induction h generalizing i with
  | nil => simp [bytes, byteLength]
  | @blank pos c cs ls hc h ih =>
    have hstart (l : Lexeme) (hl : l ∈ ls) : pos + c.utf8Size ≤ l.start := h.le_start hl
    have hone : byteLength [c] = c.utf8Size := rfl
    rw [← List.singleton_append, getElem?_map_isBlankByte (by simpa using hc), byteLength_append, hone]
    split_ifs with hi
    · refine iff_of_true rfl ⟨by omega, fun l hl hspan => ?_⟩
      have := hstart l hl
      omega
    · rw [ih, show pos + c.utf8Size + (i - c.utf8Size) = pos + i by omega]
      exact and_congr_left' (by omega)
  | @lexeme pos text rest token? ls htext h ih =>
    rw [getElem?_map_isBlankByte htext.notBlank, byteLength_append, List.forall_mem_cons]
    split_ifs with hi
    · refine iff_of_false (by simp) fun hspan => hspan.2.1 ?_
      exact ⟨Nat.le_add_right pos i, Nat.add_lt_add_left hi pos⟩
    · have hhead : ¬ (pos ≤ pos + i ∧ pos + i < pos + byteLength text) := by omega
      rw [ih, show pos + byteLength text + (i - byteLength text) = pos + i by omega, and_iff_right hhead]
      exact and_congr_left' (by omega)

end Cut

/-! ### Spans -/

theorem byteLength_toList (source : String) : byteLength source.toList = source.utf8ByteSize :=
  (size_utf8Encode _).symm.trans (congrArg ByteArray.size String.utf8Encode_toList)

theorem cut_lex (source : String) : Cut 0 source.toList (lex source) := cut_lexFrom 0 source.toList

theorem toList_data_toByteArray (source : String) : source.toByteArray.data.toList = bytes source.toList := by
  rw [← String.utf8Encode_toList, List.utf8Encode]
  simp [bytes]

/-- A source can be cut at the end of every text that it begins with. -/
theorem isValid_of_append {source : String} {before after : List Char} (h : source.toList = before ++ after) :
    String.Pos.Raw.IsValid source ⟨byteLength before⟩ := by
  refine String.Pos.Raw.isValid_iff_exists_append.2 ⟨String.ofList before, String.ofList after, ?_, ?_⟩
  · rw [← String.ofList_append, ← h, String.ofList_toList]
  · rw [← size_utf8Encode]
    rfl

/-- The bytes between two ends of a text are those of the text. -/
theorem extract_of_append {source : String} {before text after : List Char}
    (h : source.toList = before ++ text ++ after) :
    source.toByteArray.extract (byteLength before) (byteLength before + byteLength text) =
      (String.ofList text).toByteArray := by
  rw [← String.utf8Encode_toList, h, List.append_assoc, List.utf8Encode_append, ← size_utf8Encode, ← size_utf8Encode,
    String.toByteArray_ofList]
  calc (before.utf8Encode ++ (text ++ after).utf8Encode).extract (before.utf8Encode.size + 0)
        (before.utf8Encode.size + text.utf8Encode.size)
      = (text ++ after).utf8Encode.extract 0 text.utf8Encode.size := ByteArray.extract_append_size_add
    _ = text.utf8Encode := by rw [List.utf8Encode_append, ByteArray.extract_append_eq_left rfl]

/-- The spans of lexemes, with a token or without, are not empty, in order and disjoint; they lie in
the source, on boundaries of characters, and hold the bytes of their texts. The blank bytes are those
outside all spans. Each lexeme is also the only one of its text alone. -/
theorem lex_spans (source : String) :
    ((lex source).Pairwise fun a b => a.stop ≤ b.start) ∧
    (∀ l ∈ lex source, l.start < l.stop ∧ l.stop ≤ source.utf8ByteSize ∧
      String.Pos.Raw.IsValid source ⟨l.start⟩ ∧ String.Pos.Raw.IsValid source ⟨l.stop⟩ ∧
      source.toByteArray.extract l.start l.stop = (String.ofList l.text).toByteArray ∧
      lex (String.ofList l.text) = [⟨l.token?, l.text, 0, l.stop - l.start⟩]) ∧
    ∀ (i : ℕ) (hi : i < source.utf8ByteSize),
      isBlankByte source.toByteArray[i] = true ↔ ¬ ∃ l ∈ lex source, l.start ≤ i ∧ i < l.stop := by
  have hcut := cut_lex source
  refine ⟨hcut.pairwise, fun l hl => ?_, fun i hi => ?_⟩
  · obtain ⟨before, after, hsource, hstart, hstop, htext⟩ := hcut.exists_before hl
    rw [Nat.zero_add] at hstart
    have hend := isValid_of_append hsource
    rw [byteLength_append, ← hstart, ← hstop] at hend
    have hbegin := isValid_of_append (hsource.trans (List.append_assoc ..))
    rw [← hstart] at hbegin
    refine ⟨hcut.start_lt_stop hl, hend.le_rawEndPos, hbegin, hend, ?_, ?_⟩
    · rw [hstop, hstart]
      exact extract_of_append hsource
    · rw [lex, String.toList_ofList, htext.lexFrom_eq, hstop, Nat.zero_add, Nat.add_sub_cancel_left]
  · have hbyte : ((bytes source.toList).map isBlankByte)[i]? = some (isBlankByte source.toByteArray[i]) := by
      rw [← toList_data_toByteArray, List.getElem?_map, Array.getElem?_toList, Array.getElem?_eq_getElem hi]
      rfl
    have hiff := hcut.isBlankByte_iff i
    rw [hbyte, Option.some.injEq] at hiff
    rw [hiff, byteLength_toList, and_iff_right hi]
    simp

/-- An exponent without digits, a character of two bytes and an integer that is too large. -/
theorem lex_spans_strays :
    let source := "1e+é 9223372036854775808"
    lex source =
      [⟨some (.int 1), ['1'], 0, 1⟩, ⟨some (.ident "e"), ['e'], 1, 2⟩, ⟨some .plus, ['+'], 2, 3⟩, ⟨none, ['é'], 3, 5⟩,
        ⟨none, "9223372036854775808".toList, 6, 25⟩] ∧
    String.Pos.Raw.IsValid source ⟨5⟩ ∧ source.toByteArray.extract 3 5 = "é".toByteArray ∧
    lex "é" = [⟨none, ['é'], 0, 2⟩] := by
  intro source
  have hlex : lex source =
      [⟨some (.int 1), ['1'], 0, 1⟩, ⟨some (.ident "e"), ['e'], 1, 2⟩, ⟨some .plus, ['+'], 2, 3⟩, ⟨none, ['é'], 3, 5⟩,
        ⟨none, "9223372036854775808".toList, 6, 25⟩] := by decide +kernel
  obtain ⟨-, hspan, -⟩ := lex_spans source
  obtain ⟨-, -, -, hstop, hbytes, halone⟩ := hspan ⟨none, ['é'], 3, 5⟩ (by simp [hlex])
  exact ⟨hlex, hstop, hbytes, halone⟩

end QubitDynamics
