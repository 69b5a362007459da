import SlotGrad.Value.Basic

/-!
# Operators on values

The operators `+`, `-`, `*` and `/` on values.  Two plain numbers follow the arithmetic of the
host program: integers are exact and of any size, and dividing by zero is a fault.  As soon as a
tensor or an element of one takes part, the operands are brought to a common element type, the
shapes are broadcast, and division by zero gives what the number system has for it.  Sequences can
be joined and repeated.

## Main definitions

* `Operator` — the four operators.
* `Weak` — plain numbers, with `Weak.combine` for two of them.
* `Operand` — a plain number or a tensor.
* `Value.operate` — an operator on any two values.
* `Value.negate`, `Value.mapReal`, `Value.greatestOfZero`, `Value.power`, `Value.isPositive` —
  elementwise functions.
-/

namespace SlotGrad

/-- The arithmetic operators. -/
inductive Operator where
  /-- Addition. -/
  | add
  /-- Subtraction. -/
  | sub
  /-- Multiplication. -/
  | mul
  /-- Division. -/
  | div
  deriving DecidableEq, Repr

/-! ### Plain numbers -/

/-- A plain number of the host program. -/
inductive Weak (F : Type) where
  /-- A flag, which counts as zero or one. -/
  | flag (b : Bool)
  /-- An integer of any size. -/
  | integer (n : Int)
  /-- A real number. -/
  | real (x : F)

namespace Weak

variable {F : Type} [Arith F]

/-- The sort of a plain number. -/
def sort : Weak F → WeakSort
  | flag _ => .flag
  | integer _ => .integer
  | real _ => .real

/-- The real number nearest to an integer, if there is a finite one. -/
def realOfInt (n : Int) : Fallible F :=
  let x : F := Arith.ofInt n
  if Arith.isFinite x then .ok x else .error .overflow

/-- The plain number as a real number. -/
def toReal : Weak F → Fallible F
  | flag b => .ok (Arith.ofInt (if b then 1 else 0))
  | integer n => realOfInt n
  | real x => .ok x

/-- The plain number as an integer, unless it is real. -/
def toInt? : Weak F → Option Int
  | flag b => some (if b then 1 else 0)
  | integer n => some n
  | real _ => none

/-- The plain number as an element of a given type. -/
def toElem (d : Dtype) (w : Weak F) : Fallible (Elem F d) :=
  match d with
  | .bool => .ok (match w with
    | flag b => b
    | integer n => n != 0
    | real x => !Arith.same x (Arith.ofInt 0))
  -- A real number never meets an integer type, so the default is for no operand.
  | .int32 =>
    let n := (w.toInt?).getD 0
    if fitsInt32 n then .ok (Int32.ofInt n) else .error .overflow
  | .int64 =>
    let n := (w.toInt?).getD 0
    if fitsInt64 n then .ok (Int64.ofInt n) else .error .overflow
  | .float32 => do return Arith.toSingle (← w.toReal)
  | .float64 => w.toReal

/-- An operator on two real numbers. -/
def combineReals (op : Operator) (x y : F) : Fallible (Value F) :=
  match op with
  | .add => .ok (.real (Arith.add x y))
  | .sub => .ok (.real (Arith.sub x y))
  | .mul => .ok (.real (Arith.mul x y))
  | .div =>
    if Arith.same y (Arith.ofInt 0) then .error .divisionByZero else .ok (.real (Arith.div x y))

/-- The real number nearest to a quotient of integers.  It is negative exactly when the signs of the
two integers differ, also where it is zero: zero counts as positive. -/
def quotient (m n : Int) : Fallible (Value F) :=
  if n = 0 then .error .divisionByZero
  else
    let x : F := Arith.ofRatio m.natAbs n.natAbs
    if !Arith.isFinite x then .error .overflow
    else if decide (m < 0) = decide (n < 0) then .ok (.real x) else .ok (.real (Arith.neg x))

/-- An operator on two integers. -/
def combineInts (op : Operator) (m n : Int) : Fallible (Value F) :=
  match op with
  | .add => .ok (.integer (m + n))
  | .sub => .ok (.integer (m - n))
  | .mul => .ok (.integer (m * n))
  | .div => quotient m n

/-- An operator on two plain numbers: integers unless one of them is real. -/
def combine (op : Operator) (a b : Weak F) : Fallible (Value F) :=
  match a.toInt?, b.toInt? with
  | some m, some n => combineInts op m n
  | _, _ => do combineReals op (← a.toReal) (← b.toReal)

end Weak

/-! ### Operands of elementwise functions -/

/-- An operand of an elementwise function. -/
inductive Operand (F : Type) where
  /-- A plain number, which takes the element type of the other operand. -/
  | weak (w : Weak F)
  /-- A tensor, whose element type counts. -/
  | solid (t : Tensor F)

namespace Operand

variable {F : Type} [Arith F]

/-- The element type in which two operands meet. -/
def meetDtype : Operand F → Operand F → Dtype
  | weak a, weak b => a.sort.default.common b.sort.default
  | weak a, solid t => t.dtype.withWeak a.sort
  | solid t, weak b => t.dtype.withWeak b.sort
  | solid s, solid t => s.dtype.common t.dtype

/-- The operand as a tensor whose elements can be converted to the given type. -/
def toTensor (d : Dtype) : Operand F → Fallible (Tensor F)
  | weak w => do return Tensor.single d (← w.toElem d)
  | solid t => .ok t

/-- Apply an elementwise operation in a given type. -/
def apply (op : Tensor.ElementOp F) (d : Dtype) (a b : Operand F) : Fallible (Tensor F) := do
  Tensor.binary op d (← a.toTensor d) (← b.toTensor d)

end Operand

/-- The element type in which an operator is computed on operands that meet in `d`. -/
def Operator.dtype (op : Operator) (d : Dtype) : Fallible Dtype :=
  match op with
  | .sub => if d = .bool then .error .wrongKind else .ok d
  | .div => .ok d.toReal
  | _ => .ok d

/-- The operator on two elements of one type. -/
def Operator.onElements {F : Type} [Arith F] : Operator → Tensor.ElementOp F
  | .add => Elem.add
  | .sub => Elem.sub
  | .mul => Elem.mul
  | .div => Elem.div

namespace Value

variable {F : Type} [Arith F]

/-- The plain number that a value is, if it is one. -/
def weak? : Value F → Option (Weak F)
  | flag b => some (.flag b)
  | integer n => some (.integer n)
  | real x => some (.real x)
  | _ => Option.none

/-- The tensor that a value is or is an element of. -/
def solid? : Value F → Option (Tensor F)
  | array t => some t
  | scalar d x => some (.single d x)
  | device t => some t
  | _ => Option.none

/-- Whether arithmetic with the value is elementwise. -/
def isArrayLike : Value F → Bool
  | array _ => true
  | scalar .. => true
  | device _ => true
  | objects .. => true
  | _ => false

/-! ### Sequences -/

/-- The longest sequence that repetition builds. -/
def longestRepetition : Nat := Nat.pow 2 28

/-- A list repeated; a negative count gives none of it.  The count has to fit in 64 bits. -/
def repeatList {α : Type} (xs : List α) (n : Int) : Fallible (List α) :=
  if !fitsInt64 n then .error .overflow
  else if xs.isEmpty then .ok []
  else if longestRepetition < xs.length * n.toNat then .error .outOfMemory
  else .ok ((List.replicate n.toNat xs).flatten)

/-- A text repeated.  Its length has to fit in 64 bits, whatever memory there is. -/
def repeatText (s : String) (n : Int) : Fallible String :=
  if fitsInt64 n && !fitsInt64 (s.length * n.toNat) then .error .overflow
  else do return String.ofList (← repeatList s.toList n)

/-- A sequence repeated, if the value is a sequence. -/
def repeat? (v : Value F) (n : Int) : Option (Fallible (Value F)) :=
  match v with
  | text s => some do return text (← repeatText s n)
  | list xs => some do return list (← repeatList xs n)
  | tuple xs => some do return tuple (← repeatList xs n)
  | _ => Option.none

/-- Two sequences of one kind joined. -/
def append? : Value F → Value F → Option (Value F)
  | text s, text t => some (text (s ++ t))
  | list xs, list ys => some (list (xs ++ ys))
  | tuple xs, tuple ys => some (tuple (xs ++ ys))
  | _, _ => Option.none

/-- The count that a value stands for when a sequence is repeated: an integer or a flag, or an
integer element of a tensor. -/
def count? : Value F → Option Int
  | flag b => some (if b then 1 else 0)
  | integer n => some n
  | scalar .int32 n => some (Int32.toInt n)
  | scalar .int64 n => some (Int64.toInt n)
  | _ => Option.none

/-- Whether the value is an element of a tensor. -/
def isScalar : Value F → Bool
  | scalar .. => true
  | _ => false

/-- Whether the value is a sequence. -/
def isSequence : Value F → Bool
  | text _ => true
  | list _ => true
  | tuple _ => true
  | _ => false

/-! ### Elementwise operators -/

/-- The operand that contents are; texts have no arithmetic, and objects are handled apart. -/
def operandOf (v : Value F) : Fallible (Option (Operand F)) :=
  match v.weak? with
  | some w => .ok (some (.weak w))
  | Option.none => do
    match ← v.contents with
    | .numbers t => return some (.solid t)
    | .texts _ => throw .wrongKind
    | .objects _ => return Option.none

/-- An operator on two plain members of object arrays. -/
def operateMembers (op : Operator) (a b : Value F) : Fallible (Value F) :=
  match a.weak?, b.weak? with
  | some x, some y => x.combine op y
  | _, _ => .error .wrongKind

/-- Combine the members of two object arrays. -/
def zipObjects (f : Value F → Value F → Fallible (Value F)) (a b : Grid (Value F)) :
    Fallible (Value F) :=
  match Grid.zipWith? f a b with
  | Option.none => .error .badValue
  | some g => do
    let xs ← g.toList.mapM id
    match g.shape, xs with
    | [], [x] => return x
    | s, xs => return objects s xs

/-- An operator on two operands of which at least one is a tensor or an array of objects. -/
def operateArrays (op : Operator) (a b : Value F) : Fallible (Value F) := do
  match ← operandOf a, ← operandOf b with
  | some x, some y =>
    let d ← op.dtype (x.meetDtype y)
    return reduced (← Operand.apply op.onElements d x y)
  | _, _ => zipObjects (operateMembers op) (← a.contents).toObjects (← b.contents).toObjects

/-- A sequence times an element of a tensor: repetition. -/
def repeatByScalar (s n : Value F) : Fallible (Value F) :=
  match n.count? with
  | some k => (s.repeat? k).getD (.error .wrongKind)
  | Option.none => .error .wrongKind

/-- An operator on two values. -/
def operate (op : Operator) (a b : Value F) : Fallible (Value F) :=
  match a.weak?, b.weak? with
  | some x, some y => x.combine op y
  | _, _ =>
    -- An element of a tensor repeats a sequence; an array reads it as an array.
    if op = .mul ∧ a.isSequence ∧ b.isScalar then repeatByScalar a b
    else if op = .mul ∧ b.isSequence ∧ a.isScalar then repeatByScalar b a
    else if a.isArrayLike ∨ b.isArrayLike then operateArrays op a b
    else match op with
      | .add => Fallible.ofOption .wrongKind (a.append? b)
      | .mul =>
        match a.count?, b.count? with
        | some n, _ => (b.repeat? n).getD (.error .wrongKind)
        | _, some n => (a.repeat? n).getD (.error .wrongKind)
        | _, _ => .error .wrongKind
      | _ => .error .wrongKind

/-- The sum of two values. -/
def add (a b : Value F) : Fallible (Value F) := operate .add a b

/-- The difference of two values. -/
def sub (a b : Value F) : Fallible (Value F) := operate .sub a b

/-- The product of two values. -/
def mul (a b : Value F) : Fallible (Value F) := operate .mul a b

/-- The quotient of two values. -/
def div (a b : Value F) : Fallible (Value F) := operate .div a b

/-- The members of an array of objects, each replaced. -/
def mapObjects (f : Value F → Fallible (Value F)) (g : Grid (Value F)) : Fallible (Value F) := do
  let xs ← g.toList.mapM f
  match g.shape, xs with
  | [], [x] => return x
  | s, xs => return objects s xs

/-- The negated plain number. -/
def negateMember (v : Value F) : Fallible (Value F) :=
  match v with
  | flag b => .ok (integer (if b then -1 else 0))
  | integer n => .ok (integer (-n))
  | real x => .ok (real (Arith.neg x))
  | _ => .error .wrongKind

/-- The negated value. -/
def negate (v : Value F) : Fallible (Value F) :=
  match v.solid?, v with
  | some t, _ =>
    if t.dtype = .bool then .error .wrongKind else .ok (reduced (t.unary Elem.neg t.dtype))
  | Option.none, objects s xs => mapObjects negateMember (Grid.ofMembers s xs)
  | Option.none, v => negateMember v

/-! ### Elementwise functions -/

/-- The tensor on which a function of real numbers is computed. -/
def realTensor (v : Value F) : Fallible (Option (Tensor F)) :=
  match v.weak? with
  | some w => do return some (Tensor.single .float64 (← w.toReal))
  | Option.none => do
    match ← v.contents with
    | .numbers t => return some t
    | .texts _ => throw .wrongKind
    | .objects _ => return Option.none

/-- A function on real numbers applied to every member. -/
def mapReal (f : F → F) (v : Value F) : Fallible (Value F) := do
  match ← v.realTensor with
  | some t => return reduced (t.unary (Elem.realFunction f) t.dtype.toReal)
  | Option.none => mapObjects (fun _ => .error .wrongKind) (← v.contents).toObjects

/-- Every member, or zero where it is below. -/
def positivePart (v : Value F) : Fallible (Value F) := do
  match ← v.operandOf with
  | some x =>
    let zero : Operand F := .weak (.integer 0)
    return reduced (← Operand.apply Elem.maximum (x.meetDtype zero) x zero)
  | Option.none => mapObjects (fun _ => .error .wrongKind) (← v.contents).toObjects

/-- Where the members of the value read as an array are above zero. -/
def isPositive (v : Value F) : Fallible (Value F) := do
  match ← v.contents with
  | .numbers t => return reduced ⟨.bool, t.grid.map (Elem.isPositive t.dtype)⟩
  | .texts _ => throw .wrongKind
  | .objects g => mapObjects (fun v => match v.weak? with
      | some (.flag b) => .ok (flag b)
      | some (.integer n) => .ok (flag (0 < n))
      | some (.real x) => .ok (flag (Arith.less (Arith.ofInt 0) x))
      | Option.none => .error .wrongKind) g

/-- Every member of the first value to the power of the corresponding member of the second.  A
negative exponent of integers is outside the domain. -/
def power (a b : Value F) : Fallible (Value F) := do
  match ← operandOf a, ← operandOf b with
  | some x, some y =>
    let d := x.meetDtype y
    let s ← x.toTensor d
    let t ← y.toTensor d
    let result ← Tensor.binary Elem.pow d s t
    if result.size ≠ 0 ∧ (t.gridAs d).data.any (Elem.isNegativeInteger d) then throw .badValue
    return reduced result
  | _, _ =>
    zipObjects (fun _ _ => .error .wrongKind) (← a.contents).toObjects (← b.contents).toObjects

end Value
end SlotGrad
