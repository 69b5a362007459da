import SlotGrad.Array.Grid
import SlotGrad.Fault

/-!
# Selecting parts of a grid

An index is a list of picks, one for each axis or group of axes.  Resolved against a shape it
becomes a selection: the shape of the selected part and, for each of its positions, the source
position that it reads.  Reading a part and adding into a part go through the same selection, which
makes one the transpose of the other.

Picks of two sorts mix.  A coordinate, a run of coordinates and a new axis act on their own axis.
Lists of coordinates and masks act together: they are stretched to one common shape, walked in
step, and their axes come where the first of them stands, or first of all when a pick of the other
sort stands between two of them.

## Main definitions

* `Pick` — what an index says about one axis.
* `Selection`, `Selection.resolve` — an index resolved against a shape.
* `Grid.select`, `Grid.update` — reading the selected part, and changing one element.
-/

namespace SlotGrad

/-- What an index says about one axis, or about a group of axes. -/
inductive Pick where
  /-- One coordinate; a negative one counts from the end. -/
  | coordinate (i : Int)
  /-- The coordinates from a start up to a stop by a step, each with its usual default. -/
  | run (start stop step : Option Int)
  /-- A new axis of extent one. -/
  | newAxis
  /-- All axes that no other pick speaks about. -/
  | rest
  /-- A grid of coordinates. -/
  | gather (places : Grid Int)
  /-- The positions of a group of axes where the flag is up. -/
  | mask (flags : Grid Bool)

namespace Pick

/-- How many axes of the source a pick speaks about. -/
def axes : Pick → Nat
  | coordinate _ => 1
  | run .. => 1
  | newAxis => 0
  | rest => 0
  | gather _ => 1
  | mask flags => flags.rank

/-- Whether the pick stands for all remaining axes. -/
def isRest : Pick → Bool
  | rest => true
  | _ => false

end Pick

/-! ### Runs of coordinates -/

/-- The resolved run `start, start + step, …` of `count` coordinates. -/
structure Run where
  /-- First coordinate. -/
  start : Int
  /-- Distance between neighbours, never zero. -/
  step : Int
  /-- Number of coordinates. -/
  count : Nat

/-- Clamp a bound of a run over `n` coordinates; `least` and `greatest` are where a bound beyond
an end is moved. -/
def clampBound (n : Nat) (least greatest : Int) (bound : Int) : Int :=
  let b := if bound < 0 then bound + n else bound
  if b < least then least else if greatest < b then greatest else b

/-- Resolve a run over `n` coordinates. -/
def Run.resolve (n : Nat) (start stop step : Option Int) : Fallible Run :=
  let by' := step.getD 1
  if by' = 0 then .error .badValue
  else if 0 < by' then
    let first := (start.map (clampBound n 0 n)).getD 0
    let last := (stop.map (clampBound n 0 n)).getD n
    .ok ⟨first, by', if first < last then ((last - first - 1) / by' + 1).toNat else 0⟩
  else
    -- A falling run may stop before the first coordinate, hence the bound below zero.
    let first := (start.map (clampBound n (-1) (n - 1))).getD (n - 1)
    let last := (stop.map (clampBound n (-1) (n - 1))).getD (-1)
    .ok ⟨first, by', if last < first then ((first - last - 1) / (-by') + 1).toNat else 0⟩

/-! ### Resolved picks -/

/-- A pick resolved against the extents it speaks about. -/
inductive Part where
  /-- One coordinate of an axis. -/
  | fixed (j : Nat)
  /-- A run of coordinates of an axis. -/
  | run (r : Run)
  /-- A new axis of extent one. -/
  | new
  /-- A grid of coordinates of an axis. -/
  | places (g : Grid Nat)
  /-- No axis, but a member of the common shape of the coordinate lists with this extent. -/
  | stretch (n : Nat)

namespace Part

/-- Whether the part is a list of coordinates. -/
def isList : Part → Bool
  | places _ => true
  | stretch _ => true
  | _ => false

/-- Whether the part is walked in step with the lists of coordinates when there are any. -/
def inStep : Part → Bool
  | run _ => false
  | new => false
  | _ => true

/-- The shape that the part contributes to the common shape of the coordinate lists. -/
def listShape : Part → Shape
  | places g => g.shape
  | stretch n => [n]
  | _ => []

/-- The extent that the part contributes on its own. -/
def extent? : Part → Option Nat
  | run r => some r.count
  | new => some 1
  | _ => none

end Part

/-- The coordinate `i` of an axis of extent `n`, counted from either end. -/
def coordinate (n : Nat) (i : Int) : Fallible Nat :=
  Fallible.ofOption .outOfRange (Shape.axis? n i)

/-- All coordinates of a grid of coordinates for an axis of extent `n`. -/
def coordinates (n : Nat) (g : Grid Int) : Fallible (Grid Nat) :=
  if g.data.all fun i => (Shape.axis? n i).isSome then
    .ok (g.map fun i => (Shape.axis? n i).getD 0)
  else .error .outOfRange

/-- The positions where a mask is up, as one list of coordinates for each of its axes. -/
def maskLists (flags : Grid Bool) : List (Grid Nat) :=
  let up := (Shape.indices flags.shape).filter fun i => flags.at i
  (List.range flags.rank).map fun k => Grid.ofList (up.map fun i => i.getD k 0)

/-- Resolve the picks of an index from left to right against the extents they speak about.  The
pick for all remaining axes takes `spare` of them. -/
def resolveParts (spare : Nat) : List Pick → Shape → Fallible (List Part)
  | [], _ => .ok []
  | pick :: picks, s => do
    let taken := if pick.isRest then spare else pick.axes
    let here ← (match pick with
      | .coordinate i => do return [Part.fixed (← coordinate (s.headD 0) i)]
      | .run start stop step => do return [Part.run (← Run.resolve (s.headD 0) start stop step)]
      | .newAxis => .ok [Part.new]
      | .rest => .ok ((s.take spare).map fun n => Part.run ⟨0, 1, n⟩)
      | .gather g => do return [Part.places (← coordinates (s.headD 0) g)]
      | .mask flags =>
        if flags.shape = s.take flags.rank then
          -- A mask without axes keeps the grid once or not at all.
          if flags.rank = 0 then .ok [Part.stretch (if flags.first then 1 else 0)]
          else .ok ((maskLists flags).map Part.places)
        else .error .outOfRange : Fallible (List Part))
    let rest ← resolveParts spare picks (s.drop taken)
    return here ++ rest

/-! ### Selections -/

/-- A part of a grid: its shape, and the source position of each of its positions. -/
structure Selection where
  /-- The shape of the selected part. -/
  shape : Shape
  /-- The source position that a position of the part reads. -/
  source : List Nat → List Nat
  /-- Whether the selected part is a single element taken out of the grid. -/
  isElement : Bool

namespace Selection

/-- The source position read by the coordinates `own` of the parts with an axis of their own and
the common position `shared` of the lists. -/
def sourceOf : List Part → (own shared : List Nat) → List Nat
  | [], _, _ => []
  | .fixed j :: rest, own, shared => j :: sourceOf rest own shared
  | .run r :: rest, own, shared =>
    (r.start + own.headD 0 * r.step).toNat :: sourceOf rest (own.drop 1) shared
  | .new :: rest, own, shared => sourceOf rest (own.drop 1) shared
  | .places g :: rest, own, shared =>
    g.at (Shape.project g.shape shared) :: sourceOf rest own shared
  | .stretch _ :: rest, own, shared => sourceOf rest own shared

/-- Whether the parts walked in step stand next to each other. -/
def adjacent (parts : List Part) : Bool :=
  let trimmed := (parts.dropWhile fun p => !p.inStep).reverse.dropWhile fun p => !p.inStep
  trimmed.all Part.inStep

/-- The selection of resolved parts. -/
def ofParts (parts : List Part) (isElement : Bool) : Fallible Selection :=
  let own := parts.filterMap Part.extent?
  if parts.any Part.isList then
    match Shape.broadcastAll? (parts.map Part.listShape) with
    | none => .error .outOfRange
    | some shared =>
      let place :=
        if adjacent parts then ((parts.takeWhile fun p => !p.inStep).filterMap Part.extent?).length
        else 0
      .ok ⟨own.take place ++ shared ++ own.drop place,
        fun i => sourceOf parts (i.take place ++ i.drop (place + shared.length))
          ((i.drop place).take shared.length), false⟩
  else .ok ⟨own, fun i => sourceOf parts i [], isElement⟩

/-- Resolve an index against a shape.  An index that speaks about fewer axes than there are is
followed by a pick for all remaining axes. -/
def resolve (picks : List Pick) (s : Shape) : Fallible Selection := do
  let named := picks.foldl (fun n pick => n + pick.axes) 0
  let rests := (picks.filter Pick.isRest).length
  if 1 < rests ∨ s.length < named then throw .outOfRange
  let parts ← resolveParts (s.length - named) (if rests = 0 then picks ++ [.rest] else picks) s
  ofParts parts (rests = 0 ∧ named = s.length)

end Selection

namespace Grid

variable {α : Type}

/-- The selected part of a grid. -/
def select [Inhabited α] (a : Grid α) (sel : Selection) : Grid α :=
  ofFn sel.shape fun i => a.at (sel.source i)

/-- Replace the element at a position. -/
def update (a : Grid α) (i : List Nat) (f : α → α) : Grid α :=
  ⟨a.shape, a.data.modify (a.shape.ravel i) f, by simp [a.size_eq]⟩

@[simp] theorem shape_update (a : Grid α) (i : List Nat) (f : α → α) :
    (a.update i f).shape = a.shape := rfl

end Grid
end SlotGrad
