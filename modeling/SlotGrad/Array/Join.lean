import SlotGrad.Array.Grid

/-!
# Joining and cutting grids along an axis

Joining puts grids one after another along an axis on which alone they may differ; cutting takes a
run of consecutive layers along an axis.

## Main definitions

* `Grid.join?` — the grids one after another along an axis.
* `Grid.layers` — a run of consecutive layers.
* `Grid.cut` — the runs between successive cutting points.
-/

namespace SlotGrad
namespace Grid

variable {α : Type}

/-- The extents other than the one along axis `k`. -/
def crossSection (k : Nat) (s : Shape) : Shape := s.eraseIdx k

/-- Read position `i` of grids joined along axis `k`: the grid in which the coordinate falls, at
the coordinate counted from its first layer. -/
def atJoined [Inhabited α] (k : Nat) (i : List Nat) : List (Grid α) → Nat → α
  | [], _ => default
  | a :: rest, j =>
    let n := a.shape.getD k 0
    if j < n then a.at (i.set k j) else atJoined k i rest (j - n)

/-- The grids one after another along axis `k`, if they agree on every other axis. -/
def join? [Inhabited α] (k : Nat) : List (Grid α) → Option (Grid α)
  | [] => none
  | a :: rest =>
    if k < a.rank ∧ rest.all (fun b => b.rank = a.rank ∧
        crossSection k b.shape = crossSection k a.shape) then
      let total := (a :: rest).foldl (fun n b => n + b.shape.getD k 0) 0
      some (ofFn (a.shape.set k total) fun i => atJoined k i (a :: rest) (i.getD k 0))
    else none

/-- `count` consecutive layers along axis `k`, from layer `start` on. -/
def layers [Inhabited α] (k start count : Nat) (a : Grid α) : Grid α :=
  ofFn (a.shape.set k count) fun i => a.at (i.set k (i.getD k 0 + start))

/-- The runs of layers along axis `k` between the start, the given cutting points and the end.  A
cutting point beyond the end cuts at the end, and a run that would end before it starts is
empty. -/
def cut [Inhabited α] (k : Nat) (points : List Nat) (a : Grid α) : List (Grid α) :=
  let n := a.shape.getD k 0
  let starts := (0 :: points).map (min n)
  let stops := (points ++ [n]).map (min n)
  List.zipWith (fun from' to' => a.layers k from' (to' - from')) starts stops

end Grid
end SlotGrad
