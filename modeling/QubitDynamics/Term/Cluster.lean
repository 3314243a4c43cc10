import QubitDynamics.Term.Merge

/-! Clusters of terms whose qubits nest. A cluster collapses into one dense term on
the qubits of its parent, the first member. A list of terms is partitioned by
first fit: wide terms come before narrow ones, and each term joins the first
cluster that covers its qubits or becomes the parent of a new one. Members carry
a label, by which a caller recognises them again. -/

namespace QubitDynamics

/-- Coefficients for the terms of some Hamiltonians. -/
abbrev Weights (K : Type) := OwnerId → Option K

/-- Weights that change no term. -/
def Weights.none {K : Type} : Weights K := fun _ => .none

structure Member (ι K : Type) where
  label : ι
  term : Term K

/-- Inserts a number into an ascending list without repetitions. -/
def insertAscending (q : Nat) : List Nat → List Nat
  | [] => [q]
  | p :: ps => if q < p then q :: p :: ps else if q = p then p :: ps else p :: insertAscending q ps

/-- Terms to be merged. `support` is the ascending union of the members' qubits, and `memo`
holds the merged term once it has been computed. -/
structure Cluster (ι K : Type) where
  parent : Member ι K
  rest : List (Member ι K)
  support : List Nat
  memo : Option (Term K)

namespace Cluster

variable {ι K R : Type} [Zero K] [One K] [Add K] [Mul K]

def ofParent (m : Member ι K) : Cluster ι K :=
  ⟨m, [], m.term.qubits.foldr insertAscending [], none⟩

def members (c : Cluster ι K) : List (Member ι K) := c.parent :: c.rest

/-- The cluster with one more member. A merged term that was kept is forgotten. -/
def append (c : Cluster ι K) (m : Member ι K) : Cluster ι K :=
  ⟨c.parent, c.rest ++ [m], m.term.qubits.foldr insertAscending c.support, none⟩

/-- All qubits of the term are among those of the cluster. -/
def covers (c : Cluster ι K) (t : Term K) : Bool := t.qubits.all (c.support.contains ·)

/-- Adds a member to the first cluster that covers it, or opens a new cluster at the end. -/
def place (m : Member ι K) : List (Cluster ι K) → List (Cluster ι K)
  | [] => [ofParent m]
  | c :: cs => if c.covers m.term then c.append m :: cs else c :: place m cs

/-- Members by decreasing number of qubits; members with equally many keep their order. -/
def byArity (ms : List (Member ι K)) : List (Member ι K) :=
  let widest := (ms.map (·.term.arity)).foldl max 0
  (List.range (widest + 1)).reverse.flatMap fun k => ms.filter (·.term.arity = k)

/-- Partitions terms into clusters by first fit, wide terms first. -/
def partition (ms : List (Member ι K)) : List (Cluster ι K) :=
  (byArity ms).foldl (fun cs m => place m cs) []

/-- A member's term, scaled if its owner has a weight. -/
def weighted (w : Weights K) (t : Term K) : Term K :=
  match t.owner.bind w with
  | some k => t.scaled k
  | none => t

/-- The weighted sum of the members on the qubits of the parent. -/
def collapse (w : Weights K) (c : Cluster ι K) : Except TermFault (Term K) :=
  c.rest.foldlM (fun acc m => acc.merge (weighted w m.term)) (weighted w c.parent.term)

/-- The sum of the members, together with the cluster that remembers it. -/
def merged (c : Cluster ι K) : Except TermFault (Term K) × Cluster ι K :=
  match c.memo with
  | some t => (.ok t, c)
  | none =>
    match c.collapse Weights.none with
    | .ok t => (.ok t, { c with memo := some t })
    | .error e => (.error e, c)

end Cluster

end QubitDynamics
