import LevelTree.Forest
import LevelTree.Mask

/-!
# Listing the positions of a node

The positions of a node are its own and those of its descendants. They are listed depth first
with a list of the nodes that are still to be visited, the last child of a node first
(`Forest.gather`), and as the recursive rule says (`Forest.listing`).
-/

namespace LevelTree.Forest

variable {α : Type} (f : Forest α)

/-- The children of a node, as nodes of the forest. -/
def kids (i : Fin f.nodes.size) : List (Fin f.nodes.size) :=
  f.nodes[i].children.attach.map fun ⟨c, h⟩ => ⟨c, Nat.lt_trans (f.children_lt i i.2 c h) i.2⟩

variable {f}

theorem lt_of_mem_kids {i c : Fin f.nodes.size} (h : c ∈ f.kids i) : c < i := by
  obtain ⟨⟨d, hd⟩, -, rfl⟩ := List.mem_map.1 h
  exact f.children_lt i i.2 d hd

/-- The own positions of a node, then those of its children from last to first. -/
def listing (i : Fin f.nodes.size) : List Position :=
  f.nodes[i].own ++ ((f.kids i).reverse.attach.map fun ⟨c, _⟩ => listing c).flatten
termination_by i.1
decreasing_by exact lt_of_mem_kids (List.mem_reverse.1 ‹_›)

/-- The number of ways down from a node, itself included. -/
def weight (i : Fin f.nodes.size) : Nat :=
  (f.kids i).attach.foldr (fun ⟨c, _⟩ n => weight c + n) 1
termination_by i.1
decreasing_by exact lt_of_mem_kids ‹_›

/-- The number of ways down from the listed nodes. -/
def weights : List (Fin f.nodes.size) → Nat
  | [] => 0
  | i :: is => weight i + weights is

theorem weights_append (is js : List (Fin f.nodes.size)) :
    weights (is ++ js) = weights is + weights js := by
  induction is with
  | nil => simp [weights]
  | cons i is ih => simp only [List.cons_append, weights, ih]; omega

theorem weights_reverse (is : List (Fin f.nodes.size)) : weights is.reverse = weights is := by
  induction is with
  | nil => rfl
  | cons i is ih => simp only [List.reverse_cons, weights_append, weights, ih]; omega

/-- A way down from a node ends there or goes on at a child. -/
theorem weight_eq (i : Fin f.nodes.size) : weight i = weights (f.kids i) + 1 := by
  rw [weight, List.foldr_attach (f := fun c n => weight c + n)]
  induction f.kids i with
  | nil => rfl
  | cons c cs ih => simp only [List.foldr_cons, weights, ih]; omega

/-- Lists the first node that is to be visited, puts its children in front, and goes on. -/
def gather : List (Fin f.nodes.size) → List Position
  | [] => []
  | i :: pending => f.nodes[i].own ++ gather ((f.kids i).reverse ++ pending)
termination_by pending => weights pending
decreasing_by
  have := weight_eq i
  simp only [weights_append, weights_reverse, weights]
  omega

variable (f)

/-- The positions of the node with an index, which must exist. -/
def positions (index : Nat) : Except Fault (List Position) :=
  if h : index < f.nodes.size then .ok (gather [⟨index, h⟩]) else .error .outOfRange

/-- The mask of the positions of a node. -/
def mask (index : Nat) : Except Fault Mask := do
  let blank ← Mask.blank f.sides
  let ps ← f.positions index
  ps.foldlM (fun m p => (m.set p true).map (·.2)) blank

end LevelTree.Forest
