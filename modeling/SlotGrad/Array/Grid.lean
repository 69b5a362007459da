import SlotGrad.Array.Shape

/-!
# Grids

A grid is a rectangular array of any rank: a shape and the elements in row-major order.  All
operations on grids are index maps: the result is given by its shape and the element at each
position.

## Main definitions

* `Grid`, `Grid.ofFn`, `Grid.at` — grids, building one from its elements, reading a position.
* `Grid.map`, `Grid.reshape?`, `Grid.broadcastTo?`, `Grid.zipWith?` — elementwise operations.
* `Grid.foldAxis` — folding along one axis.
* `Grid.insertAxis`, `Grid.swapLast` — moving axes.
-/

namespace SlotGrad

/-- A rectangular array: extents and elements in row-major order. -/
structure Grid (α : Type) where
  /-- The extents, outermost first. -/
  shape : Shape
  /-- The elements in row-major order. -/
  data : Array α
  /-- There is one element for each position. -/
  size_eq : data.size = shape.size

namespace Grid

variable {α β γ : Type}

/-- The grid of the given shape whose element at each position is given by a function. -/
def ofFn (s : Shape) (f : List Nat → α) : Grid α :=
  ⟨s, ((s.indices).map f).toArray, by simp [Shape.length_indices]⟩

@[simp] theorem shape_ofFn (s : Shape) (f : List Nat → α) : (ofFn s f).shape = s := rfl

/-- The element at a position; a default element outside the grid. -/
def «at» [Inhabited α] (a : Grid α) (i : List Nat) : α :=
  a.data.getD (a.shape.ravel i) default

/-- The number of elements. -/
def size (a : Grid α) : Nat := a.data.size

/-- The number of axes. -/
def rank (a : Grid α) : Nat := a.shape.length

/-- The elements in row-major order. -/
def toList (a : Grid α) : List α := a.data.toList

/-- The grid of the given shape with one element everywhere. -/
def full (s : Shape) (x : α) : Grid α := ofFn s fun _ => x

/-- The grid without axes that holds one element. -/
def single (x : α) : Grid α := ⟨[], #[x], rfl⟩

@[simp] theorem shape_single (x : α) : (single x).shape = [] := rfl

/-- The first element; a default element if there is none. -/
def first [Inhabited α] (a : Grid α) : α := a.data.getD 0 default

/-- The vector of the elements of a list. -/
def ofList (xs : List α) : Grid α := ⟨[xs.length], xs.toArray, by simp⟩

/-- Apply a function to every element. -/
def map (f : α → β) (a : Grid α) : Grid β :=
  ⟨a.shape, a.data.map f, by simp [a.size_eq]⟩

@[simp] theorem shape_map (f : α → β) (a : Grid α) : (a.map f).shape = a.shape := rfl

/-- The same elements in row-major order under another shape of the same size. -/
def reshape? (a : Grid α) (s : Shape) : Option (Grid α) :=
  if h : s.size = a.shape.size then some ⟨s, a.data, by rw [a.size_eq, h]⟩ else none

theorem shape_reshape? {a b : Grid α} {s : Shape} (h : a.reshape? s = some b) : b.shape = s := by
  unfold reshape? at h
  split at h
  · cases h; rfl
  · simp at h

/-- The elements in row-major order as a vector. -/
def flatten (a : Grid α) : Grid α := ⟨[a.data.size], a.data, by simp⟩

/-- The grid stretched to a shape that it broadcasts to. -/
def broadcastTo? [Inhabited α] (a : Grid α) (s : Shape) : Option (Grid α) :=
  if a.shape = s then some a
  else if Shape.broadcast? a.shape s = some s then
    some (ofFn s fun i => a.at (a.shape.project i))
  else none

/-- Combine two grids elementwise over their common shape. -/
def zipWith? [Inhabited α] [Inhabited β] (f : α → β → γ) (a : Grid α) (b : Grid β) :
    Option (Grid γ) :=
  (Shape.broadcast? a.shape b.shape).map fun s =>
    ofFn s fun i => f (a.at (a.shape.project i)) (b.at (b.shape.project i))

/-! ### Axes -/

/-- Fold along axis `k`, from the first element to the last; the axis disappears. -/
def foldAxis [Inhabited α] (k : Nat) (f : β → α → β) (start : β) (a : Grid α) : Grid β :=
  ofFn (a.shape.eraseIdx k) fun i =>
    (List.range (a.shape.getD k 0)).foldl (fun acc j => f acc (a.at (i.insertIdx k j))) start

/-- Fold along several axes, given in increasing order. -/
def foldAxes [Inhabited α] (axes : List Nat) (f : α → α → α) (start : α) (a : Grid α) : Grid α :=
  axes.foldr (fun k acc => acc.foldAxis k f start) a

/-- Fold along axis `k` starting from its first element; no result along an empty axis unless the
result is empty as well. -/
def foldAxisFromFirst? [Inhabited α] (k : Nat) (f : α → α → α) (a : Grid α) : Option (Grid α) :=
  let n := a.shape.getD k 0
  let rest := a.shape.eraseIdx k
  if n = 0 ∧ Shape.size rest ≠ 0 then none
  else some <| ofFn rest fun i =>
    (List.range (n - 1)).foldl (fun acc j => f acc (a.at (i.insertIdx k (j + 1))))
      (a.at (i.insertIdx k 0))

/-- A new axis of extent one at place `k`. -/
def insertAxis (k : Nat) (a : Grid α) : Grid α :=
  match a.reshape? (a.shape.insertIdx k 1) with
  | some b => b
  | none => a

/-- A list with its last two members exchanged. -/
def swapEnd (i : List Nat) : List Nat :=
  match i.reverse with
  | x :: y :: rest => (y :: x :: rest).reverse
  | _ => i

/-- The grid with its last two axes exchanged. -/
def swapLast [Inhabited α] (a : Grid α) : Grid α :=
  ofFn (swapEnd a.shape) fun i => a.at (swapEnd i)

end Grid
end SlotGrad
