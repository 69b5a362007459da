import SlotGrad.Array.Grid

/-!
# Matrix products of grids

The last two axes of a grid are read as a matrix and the axes before them as a batch; batches
broadcast.  A grid of one axis is read as a row on the left and as a column on the right, and the
axis added for that disappears from the product.

## Main definitions

* `Grid.matrixProduct?` — the product of two grids of at least two axes.
* `Grid.product?` — the product with vectors allowed.
-/

namespace SlotGrad
namespace Grid

variable {α : Type}

/-- The product of two stacks of matrices: `f` combines two entries and `g` adds a term to the
running sum, which starts at `start`. -/
def matrixProduct? [Inhabited α] (f g : α → α → α) (start : α) (a b : Grid α) : Option (Grid α) :=
  let ra := a.rank - 2
  let rb := b.rank - 2
  let batchA := a.shape.take ra
  let batchB := b.shape.take rb
  let m := a.shape.getD ra 0
  let inner := a.shape.getD (ra + 1) 0
  let n := b.shape.getD (rb + 1) 0
  if 2 ≤ a.rank ∧ 2 ≤ b.rank ∧ inner = b.shape.getD rb 0 then
    (Shape.broadcast? batchA batchB).map fun batch =>
      ofFn (batch ++ [m, n]) fun i =>
        let at' := i.take batch.length
        let row := i.getD batch.length 0
        let column := i.getD (batch.length + 1) 0
        (List.range inner).foldl
          (fun acc j => g acc (f (a.at (Shape.project batchA at' ++ [row, j]))
            (b.at (Shape.project batchB at' ++ [j, column])))) start
  else none

/-- The product of two grids of at least one axis each. -/
def product? [Inhabited α] (f g : α → α → α) (start : α) (a b : Grid α) : Option (Grid α) := do
  let a' := if a.rank = 1 then a.insertAxis 0 else a
  let b' := if b.rank = 1 then b.insertAxis 1 else b
  let c ← matrixProduct? f g start a' b'
  let batch := c.rank - 2
  let s := c.shape.take batch ++ (if a.rank = 1 then [] else [c.shape.getD batch 0])
    ++ (if b.rank = 1 then [] else [c.shape.getD (batch + 1) 0])
  c.reshape? s

end Grid
end SlotGrad
