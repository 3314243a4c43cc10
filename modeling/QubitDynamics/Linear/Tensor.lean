import QubitDynamics.Linear.Mat

/-! Tensors of any rank, stored with the last axis varying fastest. A tensor can
be given another shape of the same size, have its axes permuted, and be read as
a matrix when its rank is two. -/

namespace QubitDynamics

/-- The number of entries that a shape has room for. -/
def volume (shape : List Nat) : Nat := shape.foldr (· * ·) 1

@[simp] theorem volume_pair (rows cols : Nat) : volume [rows, cols] = rows * cols := by simp [volume]

structure Tensor (K : Type) where
  shape : List Nat
  data : Array K
  size_eq : data.size = volume shape
  deriving DecidableEq

namespace Tensor

variable {K : Type}

def ofData? (shape : List Nat) (data : Array K) : Option (Tensor K) :=
  if h : data.size = volume shape then some ⟨shape, data, h⟩ else none

/-- The steps in storage that one step along each axis takes. -/
def strides : List Nat → List Nat
  | [] => []
  | _ :: shape => volume shape :: strides shape

/-- The position along each axis of the entry stored at `i`. -/
def position : List Nat → Nat → List Nat
  | [], _ => []
  | _ :: shape, i => i / volume shape :: position shape (i % volume shape)

/-- The nonzero dimensions multiply to less than `2 ^ 63`. -/
def addressable (shape : List Nat) : Bool :=
  volume (shape.filter (· ≠ 0)) < 1 <<< 63

/-- The same entries in another shape of the same size. A shape without entries has to be
addressable all the same; one with entries is, being as large as what is stored already. -/
def reshape? (t : Tensor K) (shape : List Nat) : Option (Tensor K) :=
  if h : volume t.shape = volume shape ∧ (volume shape = 0 → addressable shape) then
    some ⟨shape, t.data, t.size_eq.trans h.1⟩
  else none

/-- The tensor whose axis `i` is axis `axes[i]` of `t`, if `axes` lists every axis once. -/
def permute? [Zero K] (t : Tensor K) (axes : List Nat) : Option (Tensor K) :=
  if axes.length = t.shape.length ∧ (List.range t.shape.length).all (axes.contains ·) then
    let shape := axes.map (t.shape.getD · 0)
    let steps := axes.map ((strides t.shape).getD · 0)
    some ⟨shape,
      Array.ofFn fun i : Fin (volume shape) =>
        t.data.getD ((List.zipWith (· * ·) (position shape i) steps).foldr (· + ·) 0) 0,
      Array.size_ofFn⟩
  else none

def toMat? (t : Tensor K) : Option (Mat K) :=
  match t with
  | ⟨[rows, cols], data, h⟩ => some ⟨rows, cols, data, by simpa using h⟩
  | _ => none

/-- Tensors that can act as operators: square of rank two and not empty. -/
def isOperator (t : Tensor K) : Bool :=
  match t.shape with
  | [rows, cols] => rows = cols && rows ≠ 0
  | _ => false

end Tensor

def Mat.toTensor {K : Type} (m : Mat K) : Tensor K :=
  ⟨[m.rows, m.cols], m.data, by simp [m.size_eq]⟩

end QubitDynamics
