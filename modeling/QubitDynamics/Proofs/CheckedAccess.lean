import QubitDynamics.Proofs.InPlace
import QubitDynamics.Proofs.Loops

/-! Embedding and applying operators with every step checked. Indices are words of
sixty-four bits; a difference below zero, a shift by the width of a word, a bit
that is shifted out, and an access outside of the matrix or of the amplitudes all
make a checked computation fail. It never does: an operator is refused for the
first target outside of the register or for its dimension, and otherwise all
amounts and indices are in bounds, whatever the targets. -/

namespace QubitDynamics.Register

/-! ### Checked computations -/

namespace Checked

def wordBits : ℕ := 64

/-- A difference that is not below zero. -/
def difference (a b : ℕ) : Option ℕ := if b ≤ a then some (a - b) else none

/-- A shift by less than a word that loses no bit. -/
def shiftLeft (a k : ℕ) : Option ℕ := if k < wordBits ∧ a <<< k < 2 ^ wordBits then some (a <<< k) else none

/-- A shift by less than a word. -/
def shiftRight (a k : ℕ) : Option ℕ := if k < wordBits then some (a >>> k) else none

/-- The word with all bits changed. -/
def complement (a : ℕ) : ℕ := a ^^^ (2 ^ wordBits - 1)

/-- The place of a qubit in an index, or of a target in a sub-index, as two differences. -/
def place (n q : ℕ) : Option ℕ := do difference (← difference n 1) q

/-- The word with one bit, at the place of a qubit. -/
def qubitMask (n q : ℕ) : Option ℕ := do shiftLeft 1 (← place n q)

def targetMask (n : ℕ) (targets : List ℕ) : Option ℕ :=
  targets.foldlM (fun mask q => do return mask ||| (← qubitMask n q)) 0

/-- Puts the bit of a target into a sub-index of `k` bits. Targets come with their positions. -/
def collectBit (n k index acc : ℕ) (target : ℕ × ℕ) : Option ℕ := do
  let bit := (← shiftRight index (← place n target.1)) &&& 1
  return acc ||| (← shiftLeft bit (← place k target.2))

/-- The bits of the targets in an index, collected one by one. -/
def subIndex (n : ℕ) (targets : List ℕ) (index : ℕ) : Option ℕ :=
  targets.zipIdx.foldlM (collectBit n targets.length index) 0

/-- Joins the mask of a target if its bit is set in a sub-index of `k` bits. -/
def joinMask (k sub acc : ℕ) (mask : ℕ × ℕ) : Option ℕ := do
  let bit := (← shiftRight sub (← place k mask.2)) &&& 1
  return if bit = 1 then acc ||| mask.1 else acc

/-- The offset of a sub-index, joined from the masks of the targets. -/
def offset (k : ℕ) (masks : List ℕ) (sub : ℕ) : Option ℕ := masks.zipIdx.foldlM (joinMask k sub) 0

variable {K R : Type}

/-- The matrix whose entries are all computed without failure. -/
def build [Zero K] (rows cols : ℕ) (f : ℕ → ℕ → Option K) : Option (Mat K) :=
  if ∀ i < rows, ∀ j < cols, (f i j).isSome then some (.ofFn rows cols fun i j => (f i j).getD 0) else none

/-- An entry inside of the matrix. -/
def entry [Zero K] (m : Mat K) (i j : ℕ) : Option K := if i < m.rows ∧ j < m.cols then some (m.entry i j) else none

/-- The amplitude of an index below `len`, stored at its address. -/
def read (len : ℕ) (address : ℕ → ℕ) (data : Array K) (i : ℕ) : Option K := if i < len then data[address i]? else none

def write (len : ℕ) (address : ℕ → ℕ) (data : Array K) (i : ℕ) (z : K) : Option (Array K) :=
  if i < len ∧ address i < data.size then some (data.setIfInBounds (address i) z) else none

/-- Whether an operator fits; the dimension of the targets is computed after the targets are
found to lie in the register. -/
def checkFit (m : Mat K) (targets : List ℕ) (n : ℕ) : Option (Except RegisterError Unit) :=
  match targets.find? (n ≤ ·) with
  | some q => return .error (.qubitOutOfRange q n)
  | none => do
    let expected ← shiftLeft 1 targets.length
    return if m.rows ≠ expected ∨ m.cols ≠ expected then .error (.dimensionMismatch expected m.rows) else .ok ()

def embeddedEntry [Zero K] (m : Mat K) (targets : List ℕ) (n mask row col : ℕ) : Option K :=
  if row &&& complement mask ≠ col &&& complement mask then return 0
  else do entry m (← subIndex n targets row) (← subIndex n targets col)

def embed [Zero K] (m : Mat K) (targets : List ℕ) (n : ℕ) : Option (Except RegisterError (Mat K)) := do
  match ← checkFit m targets n with
  | .error e => return .error e
  | .ok () =>
    let dim ← shiftLeft 1 n
    let mask ← targetMask n targets
    return .ok (← build dim dim (embeddedEntry m targets n mask))

variable [Zero K] [Add K] [Mul K]

/-- Adds the product of an amplitude with its entry of a row. Amplitudes come with their
positions. -/
def addProduct (m : Mat K) (row : ℕ) (sum : K) (a : K × ℕ) : Option K := do return sum + (← entry m row a.2) * a.1

/-- Overwrites the amplitude at an offset by its row times the amplitudes of the block. Offsets
come with their positions. -/
def overwrite (m : Mat K) (gathered : List K) (len : ℕ) (address : ℕ → ℕ) (base : ℕ) (data : Array K) (o : ℕ × ℕ) :
    Option (Array K) := do
  write len address data (base ||| o.1) (← gathered.zipIdx.foldlM (addProduct m o.2) 0)

def updateBlock (m : Mat K) (offsets : List ℕ) (len : ℕ) (address : ℕ → ℕ) (data : Array K) (base : ℕ) :
    Option (Array K) := do
  let gathered ← offsets.mapM fun o => read len address data (base ||| o)
  offsets.zipIdx.foldlM (overwrite m gathered len address base) data

/-- Updates the block of an index that is the base of one. -/
def visit (m : Mat K) (offsets : List ℕ) (mask len : ℕ) (address : ℕ → ℕ) (data : Array K) (base : ℕ) :
    Option (Array K) :=
  if base &&& mask ≠ 0 then return data else updateBlock m offsets len address data base

def applyInPlace (m : Mat K) (targets : List ℕ) (n len : ℕ) (address : ℕ → ℕ) (data : Array K) :
    Option (Array K) := do
  let dim ← shiftLeft 1 targets.length
  let masks ← targets.mapM (qubitMask n)
  let offsets ← (List.range dim).mapM (offset targets.length masks)
  (List.range (← shiftLeft 1 n)).foldlM (visit m offsets (masks.foldl (· ||| ·) 0) len address) data

/-- Applies an operator to one column of a matrix, as amplitudes one row apart. -/
def applyToColumn (m : Mat K) (targets : List ℕ) (n : ℕ) (rho : Mat K) (j : ℕ) : Option (Mat K) := do
  let data ← applyInPlace m targets n rho.rows (fun i => i * rho.cols + j) rho.data
  if h : data.size = rho.rows * rho.cols then return ⟨rho.rows, rho.cols, data, h⟩ else none

def applyToColumns (m : Mat K) (targets : List ℕ) (n : ℕ) (rho : Mat K) : Option (Mat K) :=
  (List.range rho.cols).foldlM (applyToColumn m targets n) rho

def apply [ComplexScalar K R] (m : Mat K) (targets : List ℕ) (s : State K) : Option (Except RegisterError (State K)) := do
  match numQubits s.dim with
  | .error e => return .error e
  | .ok n =>
    match ← checkFit m targets n with
    | .error e => return .error e
    | .ok () =>
      match s with
      | .vector v => return .ok (.vector (← applyInPlace m targets n v.size id v))
      | .density rho =>
        let once := (← applyToColumns m targets n rho).conjTranspose
        return .ok (.density (← applyToColumns m targets n once).conjTranspose)

end Checked

namespace Checked

variable {n k q : ℕ} {targets : List ℕ}

/-! ### Words -/

theorem difference_eq_some {a b : ℕ} (h : b ≤ a) : difference a b = some (a - b) := if_pos h

theorem shiftRight_eq_some (a : ℕ) (hk : k < 64) : shiftRight a k = some (a >>> k) := if_pos hk

theorem shiftLeft_eq_some {a : ℕ} (ha : a ≤ 1) (hk : k < 64) : shiftLeft a k = some (a * 2 ^ k) := by
  have hpow : 2 ^ k < 2 ^ 64 := Nat.pow_lt_pow_right (by omega) hk
  have hlt : a * 2 ^ k ≤ 1 * 2 ^ k := Nat.mul_le_mul_right _ ha
  rw [shiftLeft, Nat.shiftLeft_eq, if_pos ⟨hk, by rw [wordBits]; omega⟩]

theorem shiftLeft_one (hk : k < 64) : shiftLeft 1 k = some (2 ^ k) := by
  rw [shiftLeft_eq_some le_rfl hk, Nat.one_mul]

/-- Whether bit `k` is set, as the shifted word says. -/
theorem shiftRight_and_one (a k : ℕ) : (a >>> k) &&& 1 = (a.testBit k).toNat := by
  rw [Nat.and_one_is_mod, Nat.shiftRight_eq_div_pow, Nat.testBit_eq_decide_div_mod_eq]
  obtain h | h := Nat.mod_two_eq_zero_or_one (a / 2 ^ k) <;> rw [h] <;> rfl

theorem place_eq_some (hq : q < n) : place n q = some (Register.place n q) := by
  rw [place, difference_eq_some (show 1 ≤ n by omega)]
  exact difference_eq_some (show q ≤ n - 1 by omega)

theorem qubitMask_eq_some (hn : n < 64) (hq : q < n) : qubitMask n q = some (2 ^ Register.place n q) := by
  rw [qubitMask, place_eq_some hq]
  exact shiftLeft_one ((place_lt hq).trans hn)

/-- Clearing the bits of a mask by its complement. -/
theorem and_complement {a mask : ℕ} (ha : a < 2 ^ 64) : a &&& complement mask = (a ||| mask) ^^^ mask := by
  apply Nat.eq_of_testBit_eq
  intro j
  simp only [complement, wordBits, Nat.testBit_and, Nat.testBit_xor, Nat.testBit_or, Nat.testBit_two_pow_sub_one]
  by_cases hj : j < 64
  · cases a.testBit j <;> cases mask.testBit j <;> simp [hj]
  · have haj : a.testBit j = false :=
      Nat.testBit_lt_two_pow (ha.trans_le (Nat.pow_le_pow_right (by omega) (by omega)))
    simp [haj]

/-! ### Masks, offsets and sub-indices -/

theorem foldl_or_eq (n : ℕ) (targets : List ℕ) (acc : ℕ) :
    targets.foldl (fun mask q => mask ||| 2 ^ Register.place n q) acc = acc ||| Register.targetMask n targets := by
  induction targets generalizing acc with
  | nil => rw [List.foldl_nil, Register.targetMask, Nat.or_zero]
  | cons q targets ih => rw [List.foldl_cons, ih, targetMask_cons, Nat.or_assoc]

theorem targetMask_eq_some (hn : n < 64) (ht : ∀ q ∈ targets, q < n) :
    targetMask n targets = some (Register.targetMask n targets) := by
  refine (foldlM_eq_some (g := fun mask q => mask ||| 2 ^ Register.place n q) (fun _ => True)
    (fun mask _ q hq => ⟨?_, trivial⟩) trivial).trans ?_
  · rw [qubitMask_eq_some hn (ht q hq)]
    rfl
  · rw [foldl_or_eq, Nat.zero_or]

/-- The place of a target is the number of targets after it. -/
theorem place_position {j r : ℕ} (hj : j + (r + 1) = k) : place k j = some r := by
  rw [place_eq_some (by omega), Register.place]
  congr 1
  omega

theorem joinMask_eq_some {j r : ℕ} (hj : j + (r + 1) = k) (hk : k < 64) (sub acc mask : ℕ) :
    joinMask k sub acc (mask, j) = some (acc ||| if sub.testBit r then mask else 0) := by
  simp only [joinMask, place_position hj, shiftRight_eq_some sub (show r < 64 by omega), shiftRight_and_one,
    Option.bind_eq_bind, Option.bind_some, Option.pure_def]
  cases sub.testBit r <;> simp

theorem foldlM_joinMask (n sub : ℕ) {rest : List ℕ} {j : ℕ} (hj : j + rest.length = k) (hk : k < 64) (acc : ℕ) :
    ((rest.map fun q => 2 ^ Register.place n q).zipIdx j).foldlM (joinMask k sub) acc =
      some (acc ||| Register.offset n rest sub) := by
  induction rest generalizing j acc with
  | nil => rw [Register.offset, Nat.or_zero]; rfl
  | cons q rest ih =>
    rw [List.length_cons] at hj
    rw [List.map_cons, List.zipIdx_cons, List.foldlM_cons, joinMask_eq_some hj hk, offset_cons, ← Nat.or_assoc]
    exact ih (by omega) _

theorem offset_eq_some (n : ℕ) (hk : targets.length < 64) (sub : ℕ) :
    offset targets.length (targets.map fun q => 2 ^ Register.place n q) sub = some (Register.offset n targets sub) := by
  rw [offset, foldlM_joinMask n sub (Nat.zero_add _) hk, Nat.zero_or]

theorem collectBit_eq_some {j r : ℕ} (hn : n < 64) (hq : q < n) (hj : j + (r + 1) = k) (hk : k < 64) (index acc : ℕ) :
    collectBit n k index acc (q, j) = some (acc ||| (bit n index q).toNat * 2 ^ r) := by
  simp only [collectBit, place_eq_some hq, shiftRight_eq_some index ((place_lt hq).trans hn), shiftRight_and_one,
    place_position hj, shiftLeft_eq_some (Bool.toNat_le _) (show r < 64 by omega), Option.bind_eq_bind, Option.bind_some,
    Option.pure_def]
  rfl

theorem foldlM_collectBit (index : ℕ) (hn : n < 64) {rest : List ℕ} (hrest : ∀ q ∈ rest, q < n) {j : ℕ}
    (hj : j + rest.length = k) (hk : k < 64) (acc : ℕ) :
    (rest.zipIdx j).foldlM (collectBit n k index) acc = some (acc ||| Register.subIndex n rest index) := by
  induction rest generalizing j acc with
  | nil => rw [Register.subIndex, Nat.or_zero]; rfl
  | cons q rest ih =>
    rw [List.length_cons] at hj
    -- the later bits stay below the bit of `q`
    have hsum : (bit n index q).toNat * 2 ^ rest.length + Register.subIndex n rest index =
        (bit n index q).toNat * 2 ^ rest.length ||| Register.subIndex n rest index := by
      rw [Nat.mul_comm]
      exact Nat.two_pow_add_eq_or_of_lt (subIndex_lt n rest index) _
    rw [List.zipIdx_cons, List.foldlM_cons, collectBit_eq_some hn (hrest q List.mem_cons_self) hj hk, subIndex_cons, hsum,
      ← Nat.or_assoc]
    exact ih (fun p hp => hrest p (List.mem_cons_of_mem q hp)) (by omega) _

theorem subIndex_eq_some (hn : n < 64) (ht : ∀ q ∈ targets, q < n) (hk : targets.length < 64) (index : ℕ) :
    subIndex n targets index = some (Register.subIndex n targets index) := by
  rw [subIndex, foldlM_collectBit index hn ht (Nat.zero_add _) hk, Nat.zero_or]

/-! ### Embeddings -/

variable {K R : Type}

theorem checkFit_eq_some (m : Mat K) (hk : targets.length < 64) (n : ℕ) :
    checkFit m targets n = some (Register.checkFit m targets n) := by
  rw [checkFit, Register.checkFit, shiftLeft_one hk, dimension_eq hk]
  cases targets.find? (n ≤ ·) <;> rfl

theorem entry_eq_some [Zero K] {m : Mat K} {i j : ℕ} (hi : i < m.rows) (hj : j < m.cols) :
    entry m i j = some (m.entry i j) := if_pos ⟨hi, hj⟩

theorem build_eq_some [Zero K] {rows cols : ℕ} {f : ℕ → ℕ → Option K} {g : ℕ → ℕ → K}
    (h : ∀ i < rows, ∀ j < cols, f i j = some (g i j)) : build rows cols f = some (.ofFn rows cols g) := by
  rw [build, if_pos fun i hi j hj => by rw [h i hi j hj]; rfl]
  refine congrArg some (Mat.ext rfl rfl fun i j hi hj => ?_)
  rw [Mat.rows_ofFn] at hi
  rw [Mat.cols_ofFn] at hj
  rw [Mat.entry_ofFn _ hi hj, Mat.entry_ofFn _ hi hj, h i hi j hj, Option.getD_some]

theorem embeddedEntry_eq_some [Zero K] {m : Mat K} (hn : n < 64) (hk : targets.length < 64)
    (ht : ∀ q ∈ targets, q < n) (hm : m.HasShape (2 ^ targets.length) (2 ^ targets.length)) {row col : ℕ}
    (hrow : row < 2 ^ n) (hcol : col < 2 ^ n) :
    embeddedEntry m targets n (Register.targetMask n targets) row col =
      some (if spectators n targets row = spectators n targets col then
        m.entry (Register.subIndex n targets row) (Register.subIndex n targets col) else 0) := by
  have hpow : 2 ^ n < 2 ^ 64 := Nat.pow_lt_pow_right (by omega) hn
  have hentry := entry_eq_some (m := m) (i := Register.subIndex n targets row) (j := Register.subIndex n targets col)
    (by rw [hm.rows]; exact subIndex_lt n targets row) (by rw [hm.cols]; exact subIndex_lt n targets col)
  rw [embeddedEntry, and_complement (hrow.trans hpow), and_complement (hcol.trans hpow), subIndex_eq_some hn ht hk,
    subIndex_eq_some hn ht hk]
  by_cases h : spectators n targets row = spectators n targets col
  · rw [if_pos h]
    exact (if_neg (not_not.2 h)).trans hentry
  · rw [if_neg h]
    exact if_pos h

/-! ### Blocks -/

section Blocks

variable [Zero K] [Add K] [Mul K] {m : Mat K} {len base row : ℕ} {address : ℕ → ℕ} {data : Array K}

theorem zipIdx_toList {α : Type} (xs : Array α) (d : α) :
    xs.toList.zipIdx = (List.range xs.size).map fun i => (xs.getD i d, i) := by
  refine List.ext_getElem (by simp) fun i hi hi' => ?_
  have hi : i < xs.size := by simpa using hi
  simp [Array.getD_eq_getD_getElem?, hi]

theorem foldlM_addProduct {gathered : Array K} (hrow : row < m.rows) (hcols : m.cols = gathered.size) :
    gathered.toList.zipIdx.foldlM (addProduct m row) 0 =
      some (rangeSum gathered.size fun col => m.entry row col * gathered.getD col 0) := by
  rw [zipIdx_toList gathered 0, List.foldlM_map, ← foldl_range_eq_rangeSum]
  refine foldlM_eq_some (fun _ => True) (fun sum _ col hcol => ⟨?_, trivial⟩) trivial
  rw [addProduct, entry_eq_some hrow (by rw [hcols]; exact List.mem_range.1 hcol)]
  rfl

/-- A block whose indices are in bounds is updated without failure. -/
theorem updateBlock_eq_some {offsets : Array ℕ} (hm : m.HasShape offsets.size offsets.size)
    (hlen : ∀ o ∈ offsets, base ||| o < len) (haddress : ∀ i < len, address i < data.size) :
    updateBlock m offsets.toList len address data base = some (Register.updateBlock m offsets address data base) := by
  have hread : offsets.toList.mapM (fun o => read len address data (base ||| o)) =
      some (offsets.map fun o => data.getD (address (base ||| o)) 0).toList := by
    rw [Array.toList_map]
    refine mapM_eq_some fun o ho => ?_
    have hi := hlen o (Array.mem_toList_iff.1 ho)
    simp [read, hi, haddress _ hi, Array.getD_eq_getD_getElem?]
  rw [updateBlock, hread, Option.bind_eq_bind, Option.bind_some, zipIdx_toList offsets 0, List.foldlM_map]
  -- writing keeps the size of the data, so the addresses stay in bounds
  refine foldlM_eq_some (fun d => d.size = data.size) (fun d hd row hrow => ⟨?_, ?_⟩) rfl
  · have hrow' : row < offsets.size := List.mem_range.1 hrow
    have hi : base ||| offsets.getD row 0 < len := hlen _ (by simp [Array.getD_eq_getD_getElem?, hrow'])
    rw [overwrite, foldlM_addProduct (by rwa [hm.rows]) (by rw [hm.cols, Array.size_map]), Array.size_map]
    exact if_pos ⟨hi, by rw [hd]; exact haddress _ hi⟩
  · rw [Array.size_setIfInBounds, hd]

theorem visit_eq_some {offsets : Array ℕ} (hm : m.HasShape offsets.size offsets.size)
    (hlen : ∀ o ∈ offsets, base ||| o < len) (haddress : ∀ i < len, address i < data.size) (mask : ℕ) :
    visit m offsets.toList mask len address data base =
      some (if base &&& mask = 0 then Register.updateBlock m offsets address data base else data) := by
  rw [visit]
  by_cases h : base &&& mask = 0
  · rw [if_pos h, if_neg (not_not.2 h), updateBlock_eq_some hm hlen haddress]
  · rw [if_neg h, if_pos h]
    rfl

theorem toList_offsets (n : ℕ) (targets : List ℕ) :
    (offsets n targets).toList = (List.range (2 ^ targets.length)).map (Register.offset n targets) := by
  refine List.ext_getElem (by simp [offsets]) fun i hi hi' => ?_
  simp [offsets]

/-- The amplitudes of a register are updated without failure, wherever they are stored. -/
theorem applyInPlace_eq_some (hn : n < 64) (hk : targets.length < 64) (ht : ∀ q ∈ targets, q < n)
    (hm : m.HasShape (2 ^ targets.length) (2 ^ targets.length)) (hlen : len = 2 ^ n)
    (haddress : ∀ i < len, address i < data.size) :
    applyInPlace m targets n len address data = some (Register.applyInPlace m targets n address data) := by
  have hmasks : targets.mapM (qubitMask n) = some (targets.map fun q => 2 ^ Register.place n q) :=
    mapM_eq_some fun q hq => qubitMask_eq_some hn (ht q hq)
  have hoffsets : (List.range (2 ^ targets.length)).mapM
      (offset targets.length (targets.map fun q => 2 ^ Register.place n q)) = some (offsets n targets).toList := by
    rw [toList_offsets]
    exact mapM_eq_some fun sub _ => offset_eq_some n hk sub
  have hmask : (targets.map fun q => 2 ^ Register.place n q).foldl (· ||| ·) 0 = Register.targetMask n targets := by
    rw [List.foldl_map, foldl_or_eq, Nat.zero_or]
  have hsize : (offsets n targets).size = 2 ^ targets.length := Array.size_ofFn
  simp only [applyInPlace, shiftLeft_one hk, shiftLeft_one hn, hmasks, hoffsets, hmask, Option.bind_eq_bind,
    Option.bind_some]
  rw [applyInPlace_eq_sweep hn hk, sweep]
  refine foldlM_eq_some (fun d => d.size = data.size) (fun d hd base hbase => ⟨?_, ?_⟩) rfl
  · refine visit_eq_some (by rwa [hsize]) (fun o ho => ?_) (by rwa [hd]) _
    obtain ⟨sub, rfl⟩ : ∃ sub, Register.offset n targets sub = o := by
      obtain ⟨i, hi, rfl⟩ := Array.mem_iff_getElem.1 ho
      exact ⟨i, by simp [offsets]⟩
    -- joined bits of the register are bits of the register, also if targets repeat
    rw [hlen]
    exact Nat.or_lt_two_pow (List.mem_range.1 hbase) (offset_lt ht sub)
  · split
    · rw [size_updateBlock, hd]
    · exact hd

/-- The columns of a matrix with as many rows as the register has indices are updated without
failure. -/
theorem applyToColumns_eq_some (hn : n < 64) (hk : targets.length < 64) (ht : ∀ q ∈ targets, q < n)
    (hm : m.HasShape (2 ^ targets.length) (2 ^ targets.length)) {rho : Mat K} (hrho : rho.rows = 2 ^ n) :
    applyToColumns m targets n rho = some (Register.applyToColumns m targets n rho) := by
  refine foldlM_eq_some (fun rho' => rho'.HasShape rho.rows rho.cols) (fun rho' h j hj => ⟨?_, ?_⟩) ⟨rfl, rfl⟩
  · have hj : j < rho'.cols := by rw [h.cols]; exact List.mem_range.1 hj
    have haddress : ∀ i < rho'.rows, i * rho'.cols + j < rho'.data.size := fun i hi => by
      rw [rho'.size_eq]
      exact Mat.index_lt hi hj
    rw [applyToColumn, applyInPlace_eq_some hn hk ht hm (h.rows.trans hrho) haddress]
    exact dif_pos (by rw [size_applyInPlace, rho'.size_eq])
  · exact hasShape_applyToColumn m targets n h j

end Blocks

end Checked

/-! ### Refusals -/

/-- Why an operator is refused by a register of `n` qubits: for the first target that is no
qubit of it, else for a dimension other than that of the targets. -/
inductive Misfit {K : Type} (m : Mat K) (targets : List ℕ) (n : ℕ) : RegisterError → Prop
  | outOfRange {before after : List ℕ} {q : ℕ} (htargets : targets = before ++ q :: after)
      (hbefore : ∀ p ∈ before, p < n) (hq : n ≤ q) : Misfit m targets n (.qubitOutOfRange q n)
  | wrongDimension (ht : ∀ q ∈ targets, q < n) (hm : ¬m.HasShape (2 ^ targets.length) (2 ^ targets.length)) :
      Misfit m targets n (.dimensionMismatch (2 ^ targets.length) m.rows)

section Refusals

variable {K R : Type} {m : Mat K} {targets : List ℕ} {n : ℕ}

theorem Misfit.checkFit_eq {e : RegisterError} (h : Misfit m targets n e) (hk : targets.length < 64) :
    checkFit m targets n = .error e := by
  cases h with
  | @outOfRange before after q htargets hbefore hq =>
    have hfind : targets.find? (n ≤ ·) = some q :=
      List.find?_eq_some_iff_append.2 ⟨by simpa using hq, before, after, htargets, by simpa using hbefore⟩
    rw [checkFit, hfind]
  | wrongDimension ht hm =>
    have hfind : targets.find? (n ≤ ·) = none := by simpa using ht
    rw [checkFit, hfind, dimension_eq hk]
    refine if_pos ?_
    by_contra! h
    exact hm ⟨h.1, h.2⟩

/-- An operator fits or there is a reason why it does not. -/
theorem fits_or_misfit (m : Mat K) (targets : List ℕ) (n : ℕ) :
    ((∀ q ∈ targets, q < n) ∧ m.HasShape (2 ^ targets.length) (2 ^ targets.length)) ∨ ∃ e, Misfit m targets n e := by
  cases hfind : targets.find? (n ≤ ·) with
  | some q =>
    obtain ⟨hq, before, after, htargets, hbefore⟩ := List.find?_eq_some_iff_append.1 hfind
    exact .inr ⟨_, .outOfRange htargets (by simpa using hbefore) (by simpa using hq)⟩
  | none =>
    have ht : ∀ q ∈ targets, q < n := by simpa using hfind
    by_cases hm : m.HasShape (2 ^ targets.length) (2 ^ targets.length)
    · exact .inl ⟨ht, hm⟩
    · exact .inr ⟨_, .wrongDimension ht hm⟩

/-- A result that is an error for every misfit, and none if the operator fits, is the error of a
misfit exactly. -/
theorem eq_error_iff_misfit {α : Type} {r : Except RegisterError α}
    (hok : (∀ q ∈ targets, q < n) → m.HasShape (2 ^ targets.length) (2 ^ targets.length) → ∃ a, r = .ok a)
    (herror : ∀ e, Misfit m targets n e → r = .error e) (e : RegisterError) :
    r = .error e ↔ Misfit m targets n e := by
  refine ⟨fun hr => ?_, herror e⟩
  obtain ⟨ht, hm⟩ | ⟨e', he'⟩ := fits_or_misfit m targets n
  · obtain ⟨a, ha⟩ := hok ht hm
    rw [ha] at hr
    cases hr
  · rw [herror e' he'] at hr
    cases hr
    exact he'

theorem Misfit.embed_eq [Zero K] {e : RegisterError} (h : Misfit m targets n e) (hk : targets.length < 64) :
    embed m targets n = .error e := by
  rw [embed, h.checkFit_eq hk]
  rfl

theorem embed_eq_error_iff [Zero K] (m : Mat K) (hk : targets.length < 64) (n : ℕ) (e : RegisterError) :
    embed m targets n = .error e ↔ Misfit m targets n e :=
  eq_error_iff_misfit (fun ht hm => ⟨_, embed_eq_fullMatrix ht hk hm⟩) (fun _ he => he.embed_eq hk) e

variable [Zero K] [Add K] [Mul K] [ComplexScalar K R] {s : State K}

theorem Misfit.apply_eq {e : RegisterError} (h : Misfit m targets n e) (hk : targets.length < 64)
    (hs : s.dim = 2 ^ n) : apply m targets s = .error e := by
  rw [apply, hs, numQubits_two_pow]
  simp only [bind, Except.bind, h.checkFit_eq hk]

theorem exists_apply_eq_ok (ht : ∀ q ∈ targets, q < n) (hk : targets.length < 64)
    (hm : m.HasShape (2 ^ targets.length) (2 ^ targets.length)) (hs : s.dim = 2 ^ n) :
    ∃ s', apply m targets s = .ok s' := by
  cases s with
  | vector v => exact ⟨_, apply_vector ht hk hm hs⟩
  | density rho => exact ⟨_, apply_density ht hk hm hs⟩

theorem apply_eq_error_iff (hk : targets.length < 64) (hs : s.dim = 2 ^ n) (e : RegisterError) :
    apply m targets s = .error e ↔ Misfit m targets n e :=
  eq_error_iff_misfit (fun ht hm => exists_apply_eq_ok ht hk hm hs) (fun _ he => he.apply_eq hk hs) e

theorem numQubits_of_not_two_pow {d : ℕ} (hd : ¬∃ n, d = 2 ^ n) : numQubits d = .error (.notPowerOfTwo d) :=
  if_neg fun h => hd ⟨d.log2, h⟩

/-- The only complaint about the dimension of a state is that it is no power of two. -/
theorem apply_eq_notPowerOfTwo_iff (hk : targets.length < 64) {d : ℕ} :
    apply m targets s = .error (.notPowerOfTwo d) ↔ d = s.dim ∧ ¬∃ n, s.dim = 2 ^ n := by
  by_cases hdim : ∃ n, s.dim = 2 ^ n
  · refine iff_of_false (fun happly => ?_) fun h => h.2 hdim
    obtain ⟨n, hs⟩ := hdim
    cases (apply_eq_error_iff hk hs _).1 happly
  · rw [apply, numQubits_of_not_two_pow hdim]
    exact ⟨fun h => ⟨by cases h; rfl, hdim⟩, fun h => by rw [h.1]; rfl⟩

end Refusals

/-! ### Safety -/

namespace Checked

variable {K R : Type} {m : Mat K} {targets : List ℕ} {n : ℕ}

theorem embed_eq_some [Zero K] (hn : n < 64) (hk : targets.length < 64) :
    embed m targets n = some (Register.embed m targets n) := by
  rw [embed, checkFit_eq_some m hk]
  obtain ⟨ht, hm⟩ | ⟨e, he⟩ := fits_or_misfit m targets n
  · have hbuild : build (2 ^ n) (2 ^ n) (embeddedEntry m targets n (Register.targetMask n targets)) =
        some (embedding m targets n) :=
      build_eq_some fun row hrow col hcol => embeddedEntry_eq_some hn hk ht hm hrow hcol
    rw [embed_eq_ok hn ht hk hm, checkFit_eq_ok ht hk hm]
    simp only [Option.bind_eq_bind, Option.bind_some, shiftLeft_one hn, targetMask_eq_some hn ht, hbuild]
    rfl
  · rw [he.embed_eq hk, he.checkFit_eq hk]
    rfl

variable [Zero K] [Add K] [Mul K] [ComplexScalar K R] {s : State K}

theorem apply_eq_some (hn : n < 64) (hk : targets.length < 64) (hs : s.dim = 2 ^ n)
    (hsquare : ∀ rho, s = .density rho → rho.rows = rho.cols) :
    apply m targets s = some (Register.apply m targets s) := by
  obtain ⟨ht, hm⟩ | ⟨e, he⟩ := fits_or_misfit m targets n
  · cases s with
    | vector v =>
      have hdata : applyInPlace m targets n v.size id v = some (Register.applyInPlace m targets n id v) :=
        applyInPlace_eq_some hn hk ht hm hs fun i hi => hi
      rw [apply_vector ht hk hm hs, apply, hs, numQubits_two_pow]
      simp only [checkFit_eq_some m hk, checkFit_eq_ok ht hk hm, Option.bind_eq_bind, Option.bind_some, hdata]
      rfl
    | density rho =>
      have hrho : rho.HasShape (2 ^ n) (2 ^ n) := ⟨hs, (hsquare rho rfl).symm.trans hs⟩
      have honce : (Register.applyToColumns m targets n rho).conjTranspose.rows = 2 ^ n :=
        (hasShape_applyToColumns m targets n hrho).cols
      rw [apply_density ht hk hm hs, apply, hs, numQubits_two_pow]
      simp only [checkFit_eq_some m hk, checkFit_eq_ok ht hk hm, Option.bind_eq_bind, Option.bind_some,
        applyToColumns_eq_some hn hk ht hm hs, applyToColumns_eq_some hn hk ht hm honce]
      rfl
  · rw [he.apply_eq hk hs, apply, hs, numQubits_two_pow]
    simp only [checkFit_eq_some m hk, he.checkFit_eq hk, Option.bind_eq_bind, Option.bind_some]
    rfl

end Checked

/-- The dimension of a state is refused exactly if it is no power of two. A register of fewer
than sixty-four qubits refuses the same operators in applying and in embedding, for the same
misfit, and no step of either computation fails. -/
theorem apply_embed_safe {K R : Type} [Zero K] [Add K] [Mul K] [ComplexScalar K R] (m : Mat K) (targets : List ℕ)
    (hk : targets.length < 64) (s : State K) (hsquare : ∀ rho, s = .density rho → rho.rows = rho.cols) :
    (∀ d, apply m targets s = .error (.notPowerOfTwo d) ↔ d = s.dim ∧ ¬∃ n, s.dim = 2 ^ n) ∧
      ∀ n < 64, s.dim = 2 ^ n →
        ((∃ e, apply m targets s = .error e ∧ embed m targets n = .error e) ∨
          ∃ s' full, apply m targets s = .ok s' ∧ embed m targets n = .ok full) ∧
        (∀ e, apply m targets s = .error e ↔ Misfit m targets n e) ∧
        (∀ e, embed m targets n = .error e ↔ Misfit m targets n e) ∧
        Checked.apply m targets s = some (apply m targets s) ∧
        Checked.embed m targets n = some (embed m targets n) := by
  refine ⟨fun d => apply_eq_notPowerOfTwo_iff hk, fun n hn hs => ⟨?_, apply_eq_error_iff hk hs,
    embed_eq_error_iff m hk n, Checked.apply_eq_some hn hk hs hsquare, Checked.embed_eq_some hn hk⟩⟩
  obtain ⟨ht, hm⟩ | ⟨e, he⟩ := fits_or_misfit m targets n
  · obtain ⟨s', hs'⟩ := exists_apply_eq_ok ht hk hm hs
    exact .inr ⟨s', _, hs', embed_eq_fullMatrix ht hk hm⟩
  · exact .inl ⟨e, he.apply_eq hk hs, he.embed_eq hk⟩

/-- More targets than qubits, all of them the same. -/
theorem apply_embed_safe_repeated :
    [1, 1, 1].length < 64 ∧ (Mat.identity 4 : Mat ℂ).rows = (Mat.identity 4 : Mat ℂ).cols ∧
      (∃ s' full, apply (Mat.identity 8 : Mat ℂ) [1, 1, 1] (.density (Mat.identity 4)) = .ok s' ∧
        embed (Mat.identity 8 : Mat ℂ) [1, 1, 1] 2 = .ok full) ∧
      Checked.apply (Mat.identity 8 : Mat ℂ) [1, 1, 1] (.density (Mat.identity 4)) =
        some (apply (Mat.identity 8) [1, 1, 1] (.density (Mat.identity 4))) ∧
      Checked.embed (Mat.identity 8 : Mat ℂ) [1, 1, 1] 2 = some (embed (Mat.identity 8) [1, 1, 1] 2) := by
  have hk : [1, 1, 1].length < 64 := by decide
  have hsquare : ∀ rho, State.density (Mat.identity 4 : Mat ℂ) = .density rho → rho.rows = rho.cols := by
    rintro rho ⟨⟩
    rfl
  obtain ⟨hboth, -, hmisfit, happly, hembed⟩ :=
    (apply_embed_safe (Mat.identity 8 : Mat ℂ) [1, 1, 1] hk _ hsquare).2 2 (by decide) rfl
  refine ⟨hk, rfl, hboth.resolve_left ?_, happly, hembed⟩
  rintro ⟨e, -, he⟩
  cases (hmisfit e).1 he with
  | @outOfRange before after q htargets _ hq =>
    have hmem : q ∈ [1, 1, 1] := by simp [htargets]
    simp at hmem
    omega
  | wrongDimension _ hm => exact hm ⟨rfl, rfl⟩

end QubitDynamics.Register
