import SlotGrad.Array.Tensor
import SlotGrad.Value.Reference

/-!
# Values

A slot, an argument or a constant holds a value: a plain number, text, a sequence, a tensor, or a
reference.  Values know their kind when they are used, not before: an op applied to a value it has
no meaning for is a fault of that run.

Read as an array, a value has contents: numbers of one element type, texts, or objects that no
element type describes.

## Main definitions

* `Value` — the values.
* `Value.kindName` — the name of a value's kind in messages.
* `Contents`, `Value.contents` — a value read as an array.
* `Value.shape`, `Value.rank`, `Value.size` — extents of a value read as an array.
* `Value.ofTensor`, `Value.reduced` — a tensor as a value.
-/

namespace SlotGrad

/-- The values that slots and arguments hold. -/
inductive Value (F : Type) where
  /-- The absent value. -/
  | none
  /-- A flag. -/
  | flag (b : Bool)
  /-- An integer of any size. -/
  | integer (n : Int)
  /-- A real number. -/
  | real (x : F)
  /-- Text. -/
  | text (s : String)
  /-- A list. -/
  | list (xs : List (Value F))
  /-- A tuple. -/
  | tuple (xs : List (Value F))
  /-- A dictionary, in order of insertion. -/
  | dict (entries : List (Value F × Value F))
  /-- A run of coordinates, by its start, stop and step. -/
  | slice (start stop step : Value F)
  /-- The index that stands for all remaining axes. -/
  | ellipsis
  /-- A tensor. -/
  | array (t : Tensor F)
  /-- A single element of a tensor, taken out of it. -/
  | scalar (d : Dtype) (x : Elem F d)
  /-- A tensor of the accelerator library. -/
  | device (t : Tensor F)
  /-- An array of objects that no element type describes: extents and members in row-major
  order. -/
  | objects (s : List Nat) (xs : List (Value F))
  /-- A node of the graph. -/
  | node (h : Handle)
  /-- A function. -/
  | function (f : Fn)
  /-- An op. -/
  | op (o : Op)
  /-- An object without any operation. -/
  | other
  deriving Inhabited

namespace Value

variable {F : Type}

/-- The name of a value's kind in messages. -/
def kindName : Value F → String
  | none => "NoneType"
  | flag _ => "bool"
  | integer _ => "int"
  | real _ => "float"
  | text _ => "str"
  | list _ => "list"
  | tuple _ => "tuple"
  | dict _ => "dict"
  | slice .. => "slice"
  | ellipsis => "ellipsis"
  | array _ => "ndarray"
  | scalar d _ => d.name
  | device _ => "Tensor"
  | objects .. => "ndarray"
  | node h => h.kind.name
  | function _ => "function"
  | op _ => "OpDef"
  | other => "Opaque"

/-- Whether the value is the absent one. -/
def isNone : Value F → Bool
  | none => true
  | _ => false

@[simp] theorem isNone_none : (none : Value F).isNone = true := rfl

/-- Whether the value is text. -/
def isText : Value F → Bool
  | text _ => true
  | _ => false

/-- The graph node that the value is, if it is one. -/
def node? : Value F → Option Handle
  | node h => some h
  | _ => Option.none

@[simp] theorem node?_node (h : Handle) : (node h : Value F).node? = some h := rfl

/-- The members of a list or tuple. -/
def members? : Value F → Option (List (Value F))
  | list xs => some xs
  | tuple xs => some xs
  | _ => Option.none

variable [Arith F]

/-- A tensor as a value. -/
def ofTensor (t : Tensor F) : Value F := array t

/-- The result of an elementwise operation or a full reduction: one without axes is taken out of
its tensor. -/
def reduced (t : Tensor F) : Value F :=
  match t with
  | ⟨d, g⟩ => if g.shape = [] then scalar d g.first else array ⟨d, g⟩

/-- An element as a plain value. -/
def ofElem : (d : Dtype) → Elem F d → Value F
  | .bool, b => flag b
  | .int32, n => integer (Int32.toInt n)
  | .int64, n => integer (Int64.toInt n)
  | .float32, x => real x
  | .float64, x => real x

end Value

/-! ### Values as arrays -/

/-- What a value holds when it is read as an array. -/
inductive Contents (F : Type) where
  /-- Numbers of one element type. -/
  | numbers (t : Tensor F)
  /-- Texts. -/
  | texts (g : Grid String)
  /-- Objects that no element type describes. -/
  | objects (g : Grid (Value F))

namespace Contents

variable {F : Type} [Arith F]

/-- The extents. -/
def shape : Contents F → Shape
  | numbers t => t.shape
  | texts g => g.shape
  | objects g => g.shape

/-- The members as plain values. -/
def toObjects : Contents F → Grid (Value F)
  | numbers t => t.grid.map (Value.ofElem t.dtype)
  | texts g => g.map Value.text
  | objects g => g

/-- The numbers, if they are numbers. -/
def tensor? : Contents F → Option (Tensor F)
  | numbers t => some t
  | _ => none

/-- The texts, if they are texts. -/
def texts? : Contents F → Option (Grid String)
  | texts g => some g
  | _ => none

/-- Whether the contents are objects. -/
def isObjects : Contents F → Bool
  | objects _ => true
  | _ => false

end Contents

/-- Grids of one shape stacked along a new first axis. -/
def Grid.stack {α : Type} [Inhabited α] (s : Shape) (gs : List (Grid α)) : Grid α :=
  Grid.ofFn (gs.length :: s) fun i => ((gs[i.headD 0]?).map fun g => g.at (i.drop 1)).getD default

/-- The grid of given extents and members, padded with a default member if there are too few. -/
def Grid.ofMembers {α : Type} [Inhabited α] (s : Shape) (xs : List α) : Grid α :=
  let a := xs.toArray
  Grid.ofFn s fun i => a.getD (s.ravel i) default

/-- The contents of a sequence whose members have the given contents.  The members must have one
shape; one object among them makes objects of all, and one text makes texts of all. -/
def Contents.stack {F : Type} [Arith F] (parts : List (Contents F)) : Fallible (Contents F) :=
  let s := (parts.head?.map Contents.shape).getD []
  if parts.isEmpty then .ok (.numbers (Tensor.zeros [0] .float64))
  else if !(parts.all fun c => c.shape = s) then .error .badValue
  else if parts.any Contents.isObjects then
    .ok (.objects (Grid.stack s (parts.map Contents.toObjects)))
  else if parts.any fun c => c.texts?.isSome then
    .ok (.texts (Grid.stack s (parts.map fun c => (c.texts?).getD (.full s ""))))
  else
    let ts := parts.filterMap Contents.tensor?
    let d := Tensor.commonDtype ts
    .ok (.numbers ⟨d, Grid.stack s (ts.map fun t => t.gridAs d)⟩)

/-- Whether an integer fits a 64-bit machine integer. -/
def fitsInt64 (n : Int) : Bool := -(Nat.pow 2 63 : Nat) ≤ n && n < (Nat.pow 2 63 : Nat)

/-- Whether an integer fits a 32-bit machine integer. -/
def fitsInt32 (n : Int) : Bool := -(Nat.pow 2 31 : Nat) ≤ n && n < (Nat.pow 2 31 : Nat)

namespace Value

variable {F : Type} [Arith F]

mutual

/-- The value read as an array. -/
def contents : Value F → Fallible (Contents F)
  | flag b => .ok (.numbers (.single .bool b))
  | integer n =>
    if fitsInt64 n then .ok (.numbers (.single .int64 (Int64.ofInt n)))
    else .ok (.objects (.single (integer n)))
  | real x => .ok (.numbers (.single .float64 x))
  | text s => .ok (.texts (.single s))
  | list xs => do Contents.stack (← contentsOfMembers xs)
  | tuple xs => do Contents.stack (← contentsOfMembers xs)
  | array t => .ok (.numbers t)
  | scalar d x => .ok (.numbers (.single d x))
  | device t => .ok (.numbers t)
  | objects s xs => .ok (.objects (Grid.ofMembers s xs))
  | v => .ok (.objects (.single v))

/-- The members of a sequence, each read as an array. -/
def contentsOfMembers : List (Value F) → Fallible (List (Contents F))
  | [] => .ok []
  | x :: xs => do
    let c ← contents x
    let cs ← contentsOfMembers xs
    return c :: cs

end

/-- The extents of the value read as an array. -/
def shape (v : Value F) : Fallible Shape := do return (← v.contents).shape

/-- The number of axes of the value read as an array. -/
def rank (v : Value F) : Fallible Nat := do return (← v.shape).length

/-- The number of members of the value read as an array. -/
def size (v : Value F) : Fallible Nat := do return Shape.size (← v.shape)

/-- Contents as a value: an array, whatever its rank. -/
def ofContents : Contents F → Value F
  | .numbers t => array t
  | .texts g => objects g.shape (g.toList.map text)
  | .objects g => objects g.shape g.toList

/-- Contents as the result of an elementwise operation: a single member is taken out. -/
def reducedContents : Contents F → Value F
  | .numbers t => reduced t
  | .texts g => if g.shape = [] then text g.first else objects g.shape (g.toList.map text)
  | .objects g => if g.shape = [] then g.first else objects g.shape g.toList

end Value
end SlotGrad
