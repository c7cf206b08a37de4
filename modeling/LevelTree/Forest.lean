import LevelTree.Region

/-!
# Forests

The nodes of a forest are emitted one after the other, and the children of a node were emitted
before it. Emitting a region makes a node of it, with the nodes it refers to as children. The main
statement is the invariant `children_lt`; `size_emit` says that the forest grows by one node.
-/

namespace LevelTree

/-- A completed region. -/
structure Node (α : Type) where
  level : α
  /-- The number of positions, those of all descendants included. -/
  size : Nat
  /-- The positions of no child. -/
  points : PointList
  parent : Option Nat
  children : List Nat
  deriving Repr, DecidableEq

/-- The positions of a node that belong to none of its children. -/
def Node.own {α : Type} (n : Node α) : List Position := n.points.points

/-- Nodes in the order in which they were emitted. -/
structure Forest (α : Type) where
  /-- The side lengths of the picture. -/
  sides : List Nat
  nodes : Array (Node α)
  children_lt : ∀ i (h : i < nodes.size), ∀ c ∈ nodes[i].children, c < i

namespace Forest

variable {α : Type}

/-- The number of nodes that can be told apart. -/
def nodeLimit : Nat := 0x100000000

/-- The index of a node, if it is small enough. -/
def nodeIndex? (index : Nat) : Option Nat := if index < nodeLimit then some index else none

/-- The index of a node, which must be small enough. -/
def nodeIndex (index : Nat) : Except Fault Nat :=
  match nodeIndex? index with
  | some index => .ok index
  | none => .error (.nodeLimit index)

/-- No nodes. -/
def empty (sides : List Nat) : Forest α := ⟨sides, #[], by simp⟩

instance : Inhabited (Forest α) := ⟨empty []⟩

/-- The number of nodes. -/
def size (f : Forest α) : Nat := f.nodes.size

/-- The last node, if there is one. -/
def root? (f : Forest α) : Option Nat := if f.size = 0 then none else some (f.size - 1)

/-- The node with an index, if there is one. -/
def get? (f : Forest α) (index : Nat) : Option (Node α) := f.nodes[index]?

/-- The node with an index, which must exist. -/
def node (f : Forest α) (index : Nat) : Except Fault (Node α) :=
  match f.get? index with
  | some n => .ok n
  | none => .error .outOfRange

/-- Makes `parent` the parent of the listed nodes. -/
def adopt (nodes : Array (Node α)) (parent : Nat) (children : List Nat) : Array (Node α) :=
  children.foldl (fun nodes c => nodes.modify c fun n => { n with parent := some parent }) nodes

@[simp] theorem size_adopt {nodes : Array (Node α)} {parent : Nat} {children : List Nat} :
    (adopt nodes parent children).size = nodes.size := by
  unfold adopt
  induction children generalizing nodes with
  | nil => rfl
  | cons c cs ih => simp [ih]

/-- A new parent leaves the children of every node as they are. -/
theorem children_adopt {nodes : Array (Node α)} {parent : Nat} {children : List Nat} {i : Nat}
    (h : i < (adopt nodes parent children).size) (hi : i < nodes.size) :
    (adopt nodes parent children)[i].children = nodes[i].children := by
  unfold adopt at h ⊢
  induction children generalizing nodes with
  | nil => rfl
  | cons c cs ih =>
    simp only [List.foldl_cons] at h ⊢
    rw [ih h (by simpa using hi), Array.getElem_modify]
    split <;> rfl

/-- The node that a region becomes. -/
def nodeOf (r : Region α) : Node α := ⟨r.level, r.size, r.points, none, r.references⟩

/-- Makes a node of a region; the nodes it refers to must exist, and become its children. -/
def emit (f : Forest α) (r : Region α) : Except Fault (Region α × Forest α) := do
  let index ← nodeIndex f.nodes.size
  if h : ∀ c ∈ r.references, c < f.nodes.size then
    return (r.settled index, {
      sides := f.sides
      nodes := (adopt f.nodes f.nodes.size r.references).push (nodeOf r)
      children_lt := by
        intro i hi c hc
        rw [Array.getElem_push] at hc
        split at hc
        · next hlt =>
          rw [size_adopt] at hlt
          rw [children_adopt _ hlt] at hc
          exact f.children_lt i hlt c hc
        · have : i = f.nodes.size := by simp at hi; rename_i hn; simp at hn; omega
          rw [this]
          exact h c hc })
  else throw .outOfRange

/-- An emission adds one node. -/
theorem size_emit {f g : Forest α} {r s : Region α} (h : f.emit r = .ok (s, g)) :
    g.size = f.size + 1 := by
  simp only [emit, bind, Except.bind] at h
  split at h
  · simp at h
  · split at h
    · cases h; simp [size]
    · cases h

end Forest

end LevelTree
