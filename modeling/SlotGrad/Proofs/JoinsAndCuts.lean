import SlotGrad.Proofs.OperandShapes

/-!
# Joining and cutting undo each other

Values are joined along an axis after a change of shape that keeps their elements: as vectors, or as
vectors only where they have no axes.  The adjoint of a join cuts a derivative at the places between
the joined values and gives every part the shape of its value.  Applied to the join itself it gives
the values back; and the parts of any derivative of the join's shape join to that derivative.

Both directions are seen on grids first: the layers of a grid that belong to joined grids are these
grids if the grid is their join, and they join to the grid in any case.

## Main definitions

* `Recast`, `Grid.recast` — changes of shape that keep the elements in their row-major order.
* `Contents.dtype?` — the element type of contents that are numbers.
* `Member`, `Contents.ofGrid`, `Contents.Holds` — contents as a grid of members of one type.

## Main results

* `Grid.partsOf_join?`, `Grid.join?_partsOf` — joined grids are cut back, and parts joined again.
* `Contents.Holds.join`, `Contents.Holds.cut`, `Contents.Holds.reshape` — contents are joined, cut
  and reshaped as the grids that they hold.
* `Kernel.exists_parts` — the parts of a derivative of a join, by the shapes of the joined values.
* `Kernel.joins_cut_back` — the kernels that join and their adjoints.
-/

namespace SlotGrad

/-! ### Grids under other shapes -/

/-- A change of shape that keeps the number of elements. -/
structure Recast where
  /-- The shape in the place of another one. -/
  of : Shape → Shape
  /-- It has as many elements. -/
  size_of : ∀ s, (of s).size = s.size

/-- All elements as one vector. -/
def Recast.vector : Recast := ⟨fun s => [s.size], fun s => Nat.mul_one s.size⟩

/-- A vector in the place of a single element, and no change otherwise. -/
def Recast.atLeastVector : Recast := ⟨fun s => if s = [] then [1] else s, fun s => by
  split_ifs with h
  · rw [h]
    rfl
  · rfl⟩

namespace Grid

variable {α : Type}

/-- The elements of a grid under the shape that is put in the place of its own. -/
def recast (f : Recast) (g : Grid α) : Grid α :=
  ⟨f.of g.shape, g.data, by rw [g.size_eq, f.size_of]⟩

@[simp] theorem shape_recast (f : Recast) (g : Grid α) : (g.recast f).shape = f.of g.shape := rfl

theorem recast_eq_self {f : Recast} {g : Grid α} (h : f.of g.shape = g.shape) : g.recast f = g :=
  ext_toList h rfl

theorem flatten_eq_recast (g : Grid α) : g.flatten = g.recast .vector :=
  ext_toList (congrArg (fun n => [n]) g.size_eq) rfl

/-- A grid is found again under its own shape. -/
theorem reshape?_recast (f : Recast) (g : Grid α) : (g.recast f).reshape? g.shape = some g := by
  have hsize : g.shape.size = (g.recast f).shape.size := (f.size_of g.shape).symm
  unfold reshape?
  rw [dif_pos hsize]
  rfl

/-- Grids of the shapes that are put in the places of others are the grids of these others. -/
theorem exists_recast {β : Type} {f : Recast} {ps : List (Grid α)} {gs : List (Grid β)}
    (h : List.Forall₂ (fun p g => p.shape = f.of g.shape) ps gs) :
    ∃ qs : List (Grid α), ps = qs.map (recast f) ∧ qs.map shape = gs.map shape := by
  induction h with
  | nil => exact ⟨[], rfl, rfl⟩
  | @cons p g ps gs hp _ ih =>
    obtain ⟨qs, rfl, hshapes⟩ := ih
    have hsize : p.data.size = g.shape.size := by rw [p.size_eq, hp, f.size_of]
    refine ⟨⟨g.shape, p.data, hsize⟩ :: qs, ?_, congrArg (g.shape :: ·) hshapes⟩
    rw [List.map_cons]
    exact congrArg (· :: qs.map (recast f)) (ext_toList hp rfl)

/-! ### Joined grids -/

section

variable [Inhabited α] {k : Nat} {cross : Shape}

/-- Positions are those of a cross-section with a coordinate put in. -/
theorem ext_insertIdx {a b : Grid α} {n : Nat} (hk : k ≤ cross.length)
    (ha : a.shape = cross.insertIdx k n) (hb : b.shape = cross.insertIdx k n)
    (h : ∀ i ∈ cross.indices, ∀ j < n, a.at (i.insertIdx k j) = b.at (i.insertIdx k j)) :
    a = b := by
  refine ext_at (ha.trans hb.symm) fun i hi => ?_
  rw [ha] at hi
  have hlength : (cross.insertIdx k n).length = cross.length + 1 :=
    List.length_insertIdx_of_le_length hk _
  have hki : k < i.length := by
    rw [Shape.length_of_mem_indices hi]
    omega
  have hcross : i.eraseIdx k ∈ cross.indices := by
    have := Shape.eraseIdx_mem_indices hi k
    rwa [List.eraseIdx_insertIdx_self] at this
  have hcoordinate : i[k] < n := by
    have := Shape.getD_lt_of_mem_indices hi (k := k) (by omega)
    rwa [List.getD_eq_getElem _ _ hki, List.getD_eq_getElem _ _ (by omega),
      List.getElem_insertIdx_self] at this
  have heq : (i.eraseIdx k).insertIdx k i[k] = i := by
    rw [List.insertIdx_eraseIdx_self (Nat.ne_of_lt hki), List.set_getElem_self]
  rw [← heq]
  exact h _ hcross _ hcoordinate

/-- A run of layers is read behind its first layer. -/
theorem at_layers {d : Grid α} {n start count : Nat} (hk : k ≤ cross.length)
    (hd : d.shape = cross.insertIdx k n) {i : List Nat} (hi : i ∈ cross.indices) {j : Nat}
    (hj : j < count) :
    (d.layers k start count).at (i.insertIdx k j) = d.at (i.insertIdx k (start + j)) := by
  have hmem : i.insertIdx k j ∈ Shape.indices (d.shape.set k count) := by
    rw [hd, set_insertIdx_self]
    exact Shape.insertIdx_mem_indices hi hk hj
  have hlen : k < (i.insertIdx k j).length := by
    rw [List.length_insertIdx_of_le_length] <;> rw [Shape.length_of_mem_indices hi] <;> omega
  unfold layers
  rw [at_ofFn hmem, set_insertIdx_self, List.getD_eq_getElem _ _ hlen, List.getElem_insertIdx_self,
    Nat.add_comm j start]

/-- Grids that agree but for one axis can be joined along it. -/
theorem exists_join? {gs : List (Grid α)} (hne : gs ≠ []) (h : Joinable k cross gs) :
    ∃ w, join? k gs = some w := by
  obtain ⟨a, rest, rfl⟩ := List.exists_cons_of_ne_nil hne
  have hlength : ∀ g ∈ a :: rest, g.shape.length = cross.length + 1 := by
    intro g hg
    have := congrArg List.length (h.agree g hg)
    rw [List.length_eraseIdx_of_lt (h.axis g hg)] at this
    have := h.axis g hg
    omega
  have hall : rest.all (fun b => b.rank = a.rank ∧
      crossSection k b.shape = crossSection k a.shape) = true := by
    rw [List.all_eq_true]
    intro b hb
    have hb := List.mem_cons_of_mem a hb
    have ha := List.mem_cons_self (a := a) (l := rest)
    exact decide_eq_true ⟨(hlength b hb).trans (hlength a ha).symm,
      (h.agree b hb).trans (h.agree a ha).symm⟩
  unfold join?
  dsimp only
  rw [if_pos ⟨h.axis a (List.mem_cons_self ..), hall⟩]
  exact ⟨_, rfl⟩

/-- A grid that reads as joined grids from a layer on has these grids as its parts. -/
theorem partsOf_eq {gs : List (Grid α)} (hk : k ≤ cross.length) (hgs : Joinable k cross gs)
    {d : Grid α} {n : Nat} (hd : d.shape = cross.insertIdx k n) (start : Nat)
    (h : ∀ i ∈ cross.indices, ∀ j < extentSum k gs,
      d.at (i.insertIdx k (start + j)) = atJoined k (i.insertIdx k j) gs j) :
    partsOf k d start gs = gs := by
  induction gs generalizing start with
  | nil => rfl
  | cons g gs ih =>
    have hsum : extentSum k (g :: gs) = g.shape.getD k 0 + extentSum k gs := rfl
    rw [hsum] at h
    have hshape := hgs.shape_eq (List.mem_cons_self ..)
    have hfirst : d.layers k start (g.shape.getD k 0) = g := by
      refine ext_insertIdx hk ?_ hshape fun i hi j hj => ?_
      · unfold layers
        rw [shape_ofFn, hd, set_insertIdx_self]
      · rw [at_layers hk hd hi hj, h i hi j (by omega), atJoined_cons, if_pos hj,
          set_insertIdx_self]
    unfold partsOf
    rw [hfirst, ih hgs.tail _ fun i hi j hj => ?_]
    -- Behind the first grid the coordinate is counted from its end.
    rw [Nat.add_assoc, h i hi _ (by omega), atJoined_cons, if_neg (by omega),
      Nat.add_sub_cancel_left, atJoined_insertIdx k i gs (g.shape.getD k 0 + j) j]

/-- Read as joined grids, the parts of a grid are the grid from a layer on. -/
theorem atJoined_partsOf {β : Type} {gs : List (Grid β)} (hk : k ≤ cross.length)
    (hgs : Joinable k cross gs) {d : Grid α} {n : Nat} (hd : d.shape = cross.insertIdx k n)
    (start : Nat) {i : List Nat} (hi : i ∈ cross.indices) {j : Nat} (hj : j < extentSum k gs) :
    atJoined k (i.insertIdx k j) (partsOf k d start gs) j = d.at (i.insertIdx k (start + j)) := by
  induction gs generalizing start j with
  | nil => exact absurd hj (Nat.not_lt_zero j)
  | cons g gs ih =>
    have hsum : extentSum k (g :: gs) = g.shape.getD k 0 + extentSum k gs := rfl
    rw [hsum] at hj
    have hextent : (d.layers k start (g.shape.getD k 0)).shape.getD k 0 = g.shape.getD k 0 := by
      unfold layers
      rw [shape_ofFn, hd, set_insertIdx_self, ← hgs.shape_eq (List.mem_cons_self ..)]
    unfold partsOf
    rw [atJoined_cons, hextent]
    split_ifs with hlt
    · rw [set_insertIdx_self, at_layers hk hd hi hlt]
    · rw [atJoined_insertIdx k i _ j (j - g.shape.getD k 0),
        ih hgs.tail (start + g.shape.getD k 0) (by omega), Nat.add_assoc,
        Nat.add_sub_cancel' (Nat.le_of_not_lt hlt)]

/-- **Joined grids are the layers of their join.** -/
theorem partsOf_join? {gs : List (Grid α)} {w : Grid α} (hw : join? k gs = some w) :
    partsOf k w 0 gs = gs := by
  obtain ⟨cross, -, hk, hjoin, hws, hat⟩ := join?_eq_some hw
  refine partsOf_eq hk hjoin hws 0 fun i hi j hj => ?_
  rw [Nat.zero_add]
  exact hat i hi j hj

/-- **The layers of a grid of the shape of a join are joined to the grid.** -/
theorem join?_partsOf {β : Type} [Inhabited β] {gs : List (Grid β)} {w : Grid β} {d : Grid α}
    (hw : join? k gs = some w) (hd : d.shape = w.shape) :
    join? k (partsOf k d 0 gs) = some d := by
  obtain ⟨cross, hne, hk, hjoin, hws, -⟩ := join?_eq_some hw
  have hds := hd.trans hws
  have hshapes := shape_partsOf 0 hjoin hds
  have hshapes' : (partsOf k d 0 gs).map shape = gs.map shape := by
    rw [← List.forall₂_eq_eq_eq, List.forall₂_map_left_iff, List.forall₂_map_right_iff]
    exact hshapes
  -- The parts have the shapes of the grids, and so they can be joined.
  have hmem : ∀ p ∈ partsOf k d 0 gs, ∃ g ∈ gs, g.shape = p.shape := fun p hp =>
    List.mem_map.mp (hshapes' ▸ List.mem_map_of_mem hp)
  have hjoin' : Joinable k cross (partsOf k d 0 gs) := by
    constructor
    · intro p hp
      obtain ⟨g, hg, hgp⟩ := hmem p hp
      exact hgp ▸ hjoin.axis g hg
    · intro p hp
      obtain ⟨g, hg, hgp⟩ := hmem p hp
      exact hgp ▸ hjoin.agree g hg
  have hne' : partsOf k d 0 gs ≠ [] := fun h => hne (by simpa [h] using hshapes'.symm)
  obtain ⟨v, hv⟩ := exists_join? hne' hjoin'
  obtain ⟨cross', -, -, hagree, hvs, hat⟩ := join?_eq_some hv
  obtain ⟨p, hp⟩ := List.exists_mem_of_ne_nil _ hne'
  obtain rfl : cross' = cross := (hagree.agree p hp).symm.trans (hjoin'.agree p hp)
  have hextents : extentSum k (partsOf k d 0 gs) = extentSum k gs := by
    have := congrArg (fun ss : List Shape => (ss.map fun s => s.getD k 0).sum) hshapes'
    simpa [extentSum, Function.comp_def] using this
  rw [hextents] at hvs hat
  rw [hv, ext_insertIdx hk hvs hds fun i hi j hj => ?_]
  rw [hat i hi j hj, atJoined_partsOf hk hjoin hds 0 hi hj, Nat.zero_add]

end

/-! ### Grids under a function -/

section

variable {β γ : Type} [Inhabited α] [Inhabited β] {f : α → β} {k n : Nat} {cross : Shape}
  {d : Grid α}

/-- A function goes along the layers inside a grid. -/
theorem map_layers (hk : k ≤ cross.length) (hd : d.shape = cross.insertIdx k n) {start count : Nat}
    (h : start + count ≤ n) : (d.layers k start count).map f = (d.map f).layers k start count := by
  have hshape : (d.layers k start count).shape = cross.insertIdx k count := by
    unfold layers
    rw [shape_ofFn, hd, set_insertIdx_self]
  refine ext_insertIdx hk hshape hshape fun i hi j hj => ?_
  have hinside : i.insertIdx k j ∈ (d.layers k start count).shape.indices :=
    hshape ▸ Shape.insertIdx_mem_indices hi hk hj
  have hinside' : i.insertIdx k (start + j) ∈ d.shape.indices :=
    hd ▸ Shape.insertIdx_mem_indices hi hk (by omega)
  rw [at_map_of_mem hinside, at_layers hk hd hi hj, at_layers (d := d.map f) hk hd hi hj,
    at_map_of_mem hinside']

/-- A function goes along the parts of a grid. -/
theorem map_partsOf (hk : k ≤ cross.length) (hd : d.shape = cross.insertIdx k n)
    {gs : List (Grid γ)} {start : Nat} (h : start + extentSum k gs ≤ n) :
    (partsOf k d start gs).map (map f) = partsOf k (d.map f) start gs := by
  induction gs generalizing start with
  | nil => rfl
  | cons g gs ih =>
    have hsum : extentSum k (g :: gs) = g.shape.getD k 0 + extentSum k gs := rfl
    unfold partsOf
    rw [List.map_cons, map_layers hk hd (by omega), ih (by omega)]

end

end Grid

/-! ### Contents as grids -/

variable {F : Type}

/-- Tensors of one element type have it in common. -/
theorem Tensor.commonDtype_of_forall {d : Dtype} {ts : List (Tensor F)} (hne : ts ≠ [])
    (h : ∀ t ∈ ts, t.dtype = d) : Tensor.commonDtype ts = d := by
  have hfold : ∀ us : List (Tensor F), (∀ t ∈ us, t.dtype = d) →
      us.foldl (fun e t => e.common t.dtype) d = d := by
    intro us hus
    induction us with
    | nil => rfl
    | cons t us ih =>
      rw [List.foldl_cons, hus t (List.mem_cons_self ..), Dtype.common_self]
      exact ih fun t ht => hus t (List.mem_cons_of_mem _ ht)
  obtain ⟨t, us, rfl⟩ := List.exists_cons_of_ne_nil hne
  have hfirst : Dtype.common .bool t.dtype = d := h t (List.mem_cons_self ..)
  unfold Tensor.commonDtype
  rw [List.foldl_cons, hfirst]
  exact hfold us fun t ht => h t (List.mem_cons_of_mem _ ht)

/-- A member of contents of an element type, or of contents that are no numbers. -/
@[reducible] def Member (F : Type) : Option Dtype → Type
  | some d => Elem F d
  | none => Value F

instance [Arith F] (d : Option Dtype) : Inhabited (Member F d) :=
  match d with
  | some d => inferInstanceAs (Inhabited (Elem F d))
  | none => inferInstanceAs (Inhabited (Value F))

namespace Contents

/-- The element type of numbers. -/
def dtype? : Contents F → Option Dtype
  | numbers t => some t.dtype
  | _ => none

/-- The contents with the given members. -/
def ofGrid : (d : Option Dtype) → Grid (Member F d) → Contents F
  | some d, g => numbers ⟨d, g⟩
  | none, g => objects g

/-- Contents with the given members: numbers have elements, and texts count as objects. -/
inductive Holds : (d : Option Dtype) → Contents F → Grid (Member F d) → Prop
  /-- Numbers hold their elements. -/
  | numbers (d : Dtype) (g : Grid (Elem F d)) : Holds (some d) (numbers ⟨d, g⟩) g
  /-- Texts hold themselves as values. -/
  | texts (g : Grid String) : Holds none (texts g) (g.map Value.text)
  /-- Objects hold themselves. -/
  | objects (g : Grid (Value F)) : Holds none (objects g) g

theorem holds_ofGrid (d : Option Dtype) (g : Grid (Member F d)) : (ofGrid d g).Holds d g := by
  cases d with
  | none => exact .objects g
  | some d => exact .numbers d g

theorem exists_holds (c : Contents F) : ∃ g, Holds c.dtype? c g := by
  cases c with
  | numbers t => exact ⟨t.grid, .numbers t.dtype t.grid⟩
  | texts g => exact ⟨_, .texts g⟩
  | objects g => exact ⟨g, .objects g⟩

/-- Contents of one element type hold grids of its elements. -/
theorem exists_forall₂_holds {d : Option Dtype} {cs : List (Contents F)}
    (h : ∀ c ∈ cs, c.dtype? = d) : ∃ gs, List.Forall₂ (Holds d) cs gs := by
  induction cs with
  | nil => exact ⟨[], .nil⟩
  | cons c cs ih =>
    obtain ⟨gs, hgs⟩ := ih fun e he => h e (List.mem_cons_of_mem _ he)
    obtain rfl := h c (List.mem_cons_self ..)
    obtain ⟨g, hg⟩ := c.exists_holds
    exact ⟨g :: gs, .cons hg hgs⟩

/-- The contents under the shape that is put in the place of their own. -/
def recast (f : Recast) : Contents F → Contents F
  | numbers t => numbers ⟨t.dtype, t.grid.recast f⟩
  | texts g => texts (g.recast f)
  | objects g => objects (g.recast f)

theorem shape_recast (f : Recast) (c : Contents F) : (c.recast f).shape = f.of c.shape := by
  cases c <;> rfl

/-- Changes of shape that put the same shape in the place of that of contents are the same. -/
theorem recast_congr {f g : Recast} {c : Contents F} (h : f.of c.shape = g.of c.shape) :
    c.recast f = c.recast g := by
  cases c with
  | numbers t => exact congrArg (fun w => numbers ⟨t.dtype, w⟩) (Grid.ext_toList h rfl)
  | texts w => exact congrArg texts (Grid.ext_toList h rfl)
  | objects w => exact congrArg objects (Grid.ext_toList h rfl)

theorem recast_eq_self {f : Recast} {c : Contents F} (h : f.of c.shape = c.shape) :
    c.recast f = c := by
  let same : Recast := ⟨id, fun _ => rfl⟩
  have hsame : c.recast same = c := by cases c <;> rfl
  have hshape : f.of c.shape = same.of c.shape := h
  rw [recast_congr hshape, hsame]

theorem flatten_eq_recast (c : Contents F) : c.flatten = c.recast .vector := by
  cases c with
  | numbers t => exact congrArg (fun g => numbers ⟨t.dtype, g⟩) (Grid.flatten_eq_recast t.grid)
  | texts g => exact congrArg texts g.flatten_eq_recast
  | objects g => exact congrArg objects g.flatten_eq_recast

theorem atLeastVector_eq_recast (c : Contents F) : c.atLeastVector = c.recast .atLeastVector := by
  unfold atLeastVector
  split_ifs with h
  · rw [flatten_eq_recast]
    refine recast_congr ?_
    rw [h]
    rfl
  · exact (recast_eq_self (if_neg h)).symm

namespace Holds

variable {d : Option Dtype} {c : Contents F} {g : Grid (Member F d)}

theorem shape_eq (h : c.Holds d g) : c.shape = g.shape := by
  cases h <;> rfl

theorem recast (h : c.Holds d g) (f : Recast) : (c.recast f).Holds d (g.recast f) := by
  cases h with
  | numbers d g => exact .numbers d _
  | texts g => exact .texts (g.recast f)
  | objects g => exact .objects _

/-- As an array, contents have the members that they hold. -/
theorem ofContents_eq (h : c.Holds d g) : Value.ofContents c = Value.ofContents (ofGrid d g) := by
  cases h with
  | numbers d g => rfl
  | texts g => exact congrArg (Value.objects g.shape) Array.toList_map.symm
  | objects g => rfl

theorem map_shape {cs : List (Contents F)} {gs : List (Grid (Member F d))}
    (h : List.Forall₂ (Holds d) cs gs) : cs.map shape = gs.map Grid.shape := by
  rw [← List.forall₂_eq_eq_eq, List.forall₂_map_left_iff, List.forall₂_map_right_iff]
  exact h.imp fun _ _ hc => hc.shape_eq

theorem map_recast {cs : List (Contents F)} {gs : List (Grid (Member F d))}
    (h : List.Forall₂ (Holds d) cs gs) (f : Recast) :
    List.Forall₂ (Holds d) (cs.map (Contents.recast f)) (gs.map (Grid.recast f)) := by
  rw [List.forall₂_map_left_iff, List.forall₂_map_right_iff]
  exact h.imp fun _ _ hc => hc.recast f

/-- Contents under other shapes have the extents of the grids that they hold. -/
theorem map_extent {cs : List (Contents F)} {gs : List (Grid (Member F d))}
    (h : List.Forall₂ (Holds d) cs gs) (f : Recast) (k : Nat) :
    (cs.map fun c => (f.of c.shape).getD k 0)
      = (gs.map (Grid.recast f)).map fun g => g.shape.getD k 0 := by
  have hshapes := congrArg (List.map fun s : Shape => (f.of s).getD k 0) (map_shape h)
  rw [List.map_map, List.map_map] at hshapes
  rw [List.map_map]
  exact hshapes

variable [Arith F]

/-- Contents are reshaped as the grid that they hold. -/
theorem reshape (h : c.Holds d g) {s : Shape} {q : Grid (Member F d)}
    (hq : g.reshape? s = some q) : ∃ e, c.reshape s = .ok e ∧ e.Holds d q := by
  unfold Contents.reshape Contents.restructure
  cases h with
  | numbers d g =>
    refine ⟨_, ?_, .numbers d q⟩
    dsimp only
    rw [hq]
    rfl
  | texts g =>
    unfold Grid.reshape? at hq
    split at hq
    · rename_i hsize
      cases hq
      have hdata : g.data.size = s.size := g.size_eq.trans hsize.symm
      have hg : g.reshape? s = some ⟨s, g.data, hdata⟩ := dif_pos hsize
      refine ⟨.texts ⟨s, g.data, hdata⟩, ?_, Holds.texts ⟨s, g.data, hdata⟩⟩
      dsimp only
      rw [hg]
      rfl
    · cases hq
  | objects g =>
    refine ⟨_, ?_, .objects q⟩
    dsimp only
    rw [hq]
    rfl

/-- Contents of one type are joined as the grids that they hold. -/
theorem join {cs : List (Contents F)} {gs : List (Grid (Member F d))}
    (h : List.Forall₂ (Holds d) cs gs) (hne : gs ≠ []) (k : Nat) :
    Contents.join k cs
      = (do return ofGrid d (← Fallible.ofOption .badValue (Grid.join? k gs))) := by
  cases d with
  | some d =>
    obtain rfl : cs = (gs.map (Tensor.mk d)).map .numbers := by
      clear hne
      induction h with
      | nil => rfl
      | cons hc _ ih =>
        cases hc
        rw [ih]
        rfl
    have htensors : ((gs.map (Tensor.mk d)).map Contents.numbers).filterMap tensor?
        = gs.map (Tensor.mk d) := by
      rw [List.filterMap_map]
      exact List.filterMap_some
    have hgrids : (gs.map (Tensor.mk d)).map (fun t => t.gridAs d) = gs := by
      rw [List.map_map]
      exact (List.map_congr_left fun g _ => Tensor.gridAs_self d g).trans (List.map_id gs)
    -- All tensors have the one type, so nothing is converted.
    have hdtype : Tensor.commonDtype (gs.map (Tensor.mk d)) = d :=
      Tensor.commonDtype_of_forall (by simpa using hne) (by simp)
    unfold Contents.join
    dsimp only
    rw [htensors, if_pos (by simp)]
    unfold Tensor.join
    rw [hdtype]
    dsimp only
    rw [hgrids]
    cases Grid.join? k gs <;> rfl
  | none =>
    have hobjects : cs.map toObjects = gs ∧ cs.filterMap tensor? = [] ∧ cs.length = gs.length := by
      clear hne
      induction h with
      | nil => exact ⟨rfl, rfl, rfl⟩
      | cons hc _ ih =>
        obtain ⟨hmap, hfilter, hlength⟩ := ih
        cases hc <;> exact ⟨congrArg _ hmap, hfilter, congrArg _ hlength⟩
    obtain ⟨hmap, hfilter, hlength⟩ := hobjects
    -- There are no tensors among them, so they are joined as objects.
    have hsome : ¬ ([] : List (Tensor F)).length = cs.length := by
      rw [hlength]
      exact fun h => hne (List.length_eq_zero_iff.mp h.symm)
    unfold Contents.join
    dsimp only
    rw [hfilter, if_neg hsome, hmap]
    cases Grid.join? k gs <;> rfl

/-- Contents of the shape of a join are cut into the parts of the grid that they hold. -/
theorem cut (h : c.Holds d g) {β : Type} [Inhabited β] {k : Nat} {gs : List (Grid β)} {w : Grid β}
    (hw : Grid.join? k gs = some w) (hs : g.shape = w.shape) :
    List.Forall₂ (Holds d) (c.cut k (Kernel.cuttingPoints (gs.map fun g => g.shape.getD k 0)))
      (Grid.partsOf k g 0 gs) := by
  obtain ⟨cross, hne, hk, -, hws, -⟩ := Grid.join?_eq_some hw
  have hextent : (cross.insertIdx k (Grid.extentSum k gs)).getD k 0 = Grid.extentSum k gs := by
    have := List.length_insertIdx_of_le_length hk (Grid.extentSum k gs)
    rw [List.getD_eq_getElem _ _ (by omega), List.getElem_insertIdx_self]
  cases h with
  | numbers d g =>
    have hcut := Grid.cut_cuttingPoints (d := g) hne (by rw [hs, hws, hextent])
    unfold Contents.cut Tensor.cut
    dsimp only
    rw [hcut, List.map_map, List.forall₂_map_left_iff, List.forall₂_same]
    exact fun p _ => .numbers d p
  | texts g =>
    have hs : g.shape = w.shape := hs
    have hcut := Grid.cut_cuttingPoints (d := g) hne (by rw [hs, hws, hextent])
    unfold Contents.cut
    dsimp only
    rw [hcut, ← Grid.map_partsOf hk (hs.trans hws) (by omega), List.forall₂_map_left_iff,
      List.forall₂_map_right_iff, List.forall₂_same]
    exact fun p _ => .texts p
  | objects g =>
    have hcut := Grid.cut_cuttingPoints (d := g) hne (by rw [hs, hws, hextent])
    unfold Contents.cut
    dsimp only
    rw [hcut, List.forall₂_map_left_iff, List.forall₂_same]
    exact fun p _ => .objects p

end Holds

end Contents

/-! ### The kernels -/

variable [Arith F]

/-- An array of objects holds its members. -/
theorem Grid.ofMembers_toList {α : Type} [Inhabited α] (g : Grid α) :
    Grid.ofMembers g.shape g.toList = g := by
  refine ext_at rfl fun i hi => ?_
  have hi : i ∈ g.shape.indices := hi
  change (ofFn g.shape fun i => g.toList.toArray.getD (g.shape.ravel i) default).at i = g.at i
  rw [at_ofFn hi]
  unfold «at» toList
  rw [Array.toArray_toList]

/-- An array has the contents that it was made of. -/
theorem Value.contents_ofContents {d : Option Dtype} (g : Grid (Member F d)) :
    (Value.ofContents (.ofGrid d g)).contents = .ok (.ofGrid d g) := by
  cases d with
  | some d => rfl
  | none =>
    refine (Value.contents.eq_def _).trans ?_
    exact congrArg (fun g => Except.ok (Contents.objects g)) g.ofMembers_toList

namespace Kernel

open Contents (Holds ofGrid)

variable {d d' : Option Dtype} {f : Recast} {xs : List (Value F)} {cs : List (Contents F)}
  {gs : List (Grid (Member F d))} {k : Nat} {w : Grid (Member F d)}

/-- Parts that hold recast grids become these grids under the shapes of values. -/
theorem reshapeParts_holds {ps : List (Contents F)} {qs : List (Grid (Member F d))}
    (hps : List.Forall₂ (Holds d) ps (qs.map (Grid.recast f)))
    (hxs : List.Forall₂ (fun x q => x.shape = .ok q.shape) xs qs) :
    reshapeParts ps xs = .ok (qs.map fun q => Value.ofContents (ofGrid d q)) := by
  induction hxs generalizing ps with
  | nil =>
    cases hps
    rfl
  | @cons x q xs qs hx _ ih =>
    obtain _ | ⟨hp, hps⟩ := hps
    obtain ⟨e, he, hholds⟩ := hp.reshape (Grid.reshape?_recast f q)
    have hrest := ih hps
    unfold reshapeParts at hrest ⊢
    rw [List.zip_cons_cons, List.mapM_cons, hrest]
    dsimp only
    rw [hx, ok_bind, he, List.map_cons, ← hholds.ofContents_eq]
    rfl

/-- Values have the shapes of the grids that their contents hold. -/
theorem shapes_of_read (hread : List.Forall₂ (fun x c => x.contents = .ok c) xs cs)
    (hgs : List.Forall₂ (Holds d) cs gs) {qs : List (Grid (Member F d'))}
    (hqs : qs.map Grid.shape = gs.map Grid.shape) :
    List.Forall₂ (fun x q => x.shape = .ok q.shape) xs qs := by
  rw [← List.forall₂_map_right_iff (R := fun (x : Value F) s => x.shape = .ok s), hqs,
    ← Holds.map_shape hgs, List.forall₂_map_right_iff]
  refine hread.imp fun x c hx => ?_
  unfold Value.shape
  rw [hx]
  rfl

/-- **The parts of a derivative of a join.**  A derivative of the shape of joined values is cut into
parts of the shapes of the values, and joined in the same way the parts are the derivative. -/
theorem exists_parts (hread : List.Forall₂ (fun x c => x.contents = .ok c) xs cs)
    (hgs : List.Forall₂ (Holds d) cs gs) (hw : Grid.join? k (gs.map (Grid.recast f)) = some w)
    {e : Contents F} {u : Grid (Member F d')} (he : e.Holds d' u) (hu : u.shape = w.shape) :
    ∃ qs : List (Grid (Member F d')), qs.map Grid.shape = gs.map Grid.shape ∧
      Grid.join? k (qs.map (Grid.recast f)) = some u ∧
      reshapeParts (e.cut k (cuttingPoints (cs.map fun c => (f.of c.shape).getD k 0))) xs
        = .ok (qs.map fun q => Value.ofContents (ofGrid d' q)) := by
  obtain ⟨cross, -, -, hjoin, hws, -⟩ := Grid.join?_eq_some hw
  have hparts := Grid.shape_partsOf 0 hjoin (hu.trans hws)
  rw [List.forall₂_map_right_iff] at hparts
  obtain ⟨qs, hqs, hshapes⟩ := Grid.exists_recast hparts
  have hjoined := Grid.join?_partsOf hw hu
  have hcut := he.cut hw hu
  rw [hqs] at hjoined hcut
  rw [Holds.map_extent hgs]
  exact ⟨qs, hshapes, hjoined, reshapeParts_holds hcut (shapes_of_read hread hgs hshapes)⟩

/-- The parts of a join are the joined values. -/
theorem parts_of_join (hread : List.Forall₂ (fun x c => x.contents = .ok c) xs cs)
    (hgs : List.Forall₂ (Holds d) cs gs) (hw : Grid.join? k (gs.map (Grid.recast f)) = some w) :
    reshapeParts ((ofGrid d w).cut k (cuttingPoints (cs.map fun c => (f.of c.shape).getD k 0))) xs
      = .ok (cs.map Value.ofContents) := by
  have hcut := (Contents.holds_ofGrid d w).cut hw rfl
  rw [Grid.partsOf_join? hw] at hcut
  rw [Holds.map_extent hgs, reshapeParts_holds hcut (shapes_of_read hread hgs rfl)]
  refine congrArg Except.ok ?_
  rw [← List.forall₂_eq_eq_eq, List.forall₂_map_left_iff, List.forall₂_map_right_iff]
  exact hgs.flip.imp fun _ _ hc => hc.ofContents_eq.symm

/-! #### Vectors of all members -/

theorem roots_holds (hread : List.Forall₂ (fun x c => x.contents = .ok c) xs cs)
    (hgs : List.Forall₂ (Holds d) cs gs)
    (hw : Grid.join? 0 (gs.map (Grid.recast .vector)) = some w) :
    roots xs = .ok (.ofContents (ofGrid d w)) := by
  have hflat : cs.map Contents.flatten = cs.map (Contents.recast .vector) :=
    List.map_congr_left fun c _ => c.flatten_eq_recast
  have hne : gs.map (Grid.recast .vector) ≠ [] := fun h => by
    rw [h] at hw
    cases hw
  unfold roots allContents
  rw [mapM_eq_ok.mpr hread, ok_bind, hflat, Holds.join (Holds.map_recast hgs .vector) hne, hw]
  rfl

/-- A derivative that is a vector is cut as it is. -/
theorem rootsAdjoint_vector (hread : List.Forall₂ (fun x c => x.contents = .ok c) xs cs)
    (hw : Grid.join? 0 (gs.map (Grid.recast .vector)) = some w) {dy : Value F} {e : Contents F}
    (hdy : dy.contents = .ok e) (he : e.shape = w.shape) :
    rootsAdjoint (xs ++ [dy]) = (do
      return .tuple (← reshapeParts (e.cut 0 (cuttingPoints
        (cs.map fun c => (Recast.vector.of c.shape).getD 0 0))) xs)) := by
  obtain ⟨n, hn⟩ : ∃ n, w.shape = [n] := by
    obtain ⟨cross, hne, -, hjoin, hws, -⟩ := Grid.join?_eq_some hw
    obtain ⟨v, hv⟩ := List.exists_mem_of_ne_nil _ hne
    obtain ⟨g, -, rfl⟩ := List.mem_map.mp hv
    have hcross : [] = cross := hjoin.agree _ hv
    rw [← hcross] at hws
    exact ⟨_, hws⟩
  rw [hn] at he
  have haxes : ¬ e.shape = [] := by
    rw [he]
    exact List.cons_ne_nil _ _
  have hflat : e.flatten = e := by
    rw [Contents.flatten_eq_recast]
    refine Contents.recast_eq_self ?_
    rw [he]
    exact congrArg (fun m => [m]) (Nat.mul_one n)
  have hsizes : xs.mapM Value.size
      = .ok (cs.map fun c => (Recast.vector.of c.shape).getD 0 0) := by
    rw [mapM_eq_ok, List.forall₂_map_right_iff]
    refine hread.imp fun x c hx => ?_
    unfold Value.size Value.shape
    rw [hx]
    rfl
  unfold rootsAdjoint
  rw [List.getLast?_concat, List.dropLast_concat]
  simp only [Fallible.ofOption_some, ok_bind, hdy, if_neg haxes, hsizes, hflat]

/-! #### Joins along an axis -/

/-- The number of axes of the first of some grids that are joined along an axis. -/
def firstRank {α : Type} (gs : List (Grid α)) : Nat :=
  ((gs.map Grid.shape).head?.map fun s => (Recast.atLeastVector.of s).length).getD 0

/-- Values are joined along an axis of the first one, if their grids are. -/
theorem cat_holds {axis : Value F} (haxis : axis.isNone = false) (hne : gs ≠ [])
    (hread : List.Forall₂ (fun x c => x.contents = .ok c) xs cs)
    (hgs : List.Forall₂ (Holds d) cs gs) {y : Value F} :
    cat axis xs = .ok y ↔ ∃ n k w, axis.asInteger = .ok n ∧
      Shape.axis? (firstRank gs) n = some k ∧
      Grid.join? k (gs.map (Grid.recast .atLeastVector)) = some w ∧
      y = .ofContents (ofGrid d w) := by
  have hvectors : cs.map Contents.atLeastVector = cs.map (Contents.recast .atLeastVector) :=
    List.map_congr_left fun c _ => c.atLeastVector_eq_recast
  have hrank : ((cs.map (Contents.recast .atLeastVector)).head?.map fun c => c.shape.length).getD 0
      = firstRank gs := by
    unfold firstRank
    rw [← Holds.map_shape hgs, List.head?_map, List.head?_map, Option.map_map, Option.map_map]
    refine congrArg (fun f => (Option.map f cs.head?).getD 0) (funext fun c => ?_)
    exact congrArg List.length (c.shape_recast _)
  have hjoin := Holds.join (Holds.map_recast hgs .atLeastVector) (by simpa using hne)
  rw [cat_of_isNone xs haxis]
  unfold allContents Value.axisOf
  rw [mapM_eq_ok.mpr hread, ok_bind, hvectors]
  dsimp only
  rw [hrank]
  constructor
  · intro h
    obtain ⟨n, hn, h⟩ := bind_eq_ok.mp h
    obtain ⟨k, hk, h⟩ := bind_eq_ok.mp h
    obtain ⟨c, hc, h⟩ := bind_eq_ok.mp h
    rw [hjoin] at hc
    obtain ⟨w, hw, hc⟩ := bind_eq_ok.mp hc
    rw [← pure_eq_ok.mp hc] at h
    exact ⟨n, k, w, hn, ofOption_eq_ok.mp hk, ofOption_eq_ok.mp hw, (pure_eq_ok.mp h).symm⟩
  · rintro ⟨n, k, w, hn, hk, hw, rfl⟩
    rw [hn, ok_bind, hk, Fallible.ofOption_some, ok_bind, hjoin, hw]
    rfl

/-- A derivative of the shape of a join is cut along the axis of the join. -/
theorem catAdjoint_holds {axis : Value F} {n : Int} (hn : axis.asInteger = .ok n)
    (hk : Shape.axis? (firstRank gs) n = some k)
    (hread : List.Forall₂ (fun x c => x.contents = .ok c) xs cs)
    (hgs : List.Forall₂ (Holds d) cs gs)
    (hw : Grid.join? k (gs.map (Grid.recast .atLeastVector)) = some w) {dy : Value F}
    {e : Contents F} (hdy : dy.contents = .ok e) (he : e.shape = w.shape) :
    catAdjoint axis (xs ++ [dy]) = (do
      return .tuple (.none :: (← reshapeParts (e.cut k (cuttingPoints
        (cs.map fun c => (Recast.atLeastVector.of c.shape).getD k 0))) xs))) := by
  -- All that is joined has as many axes as the join.
  obtain ⟨hkw, hne, hlengths, -⟩ := shapes_cut hw (d := w) rfl
  have hfirst : firstRank gs = w.shape.length := by
    have hgne : gs ≠ [] := fun h => hne (by rw [h]; rfl)
    obtain ⟨g, gs, rfl⟩ := List.exists_cons_of_ne_nil hgne
    exact hlengths _ (List.mem_cons_self ..)
  have hranks : ∀ c ∈ cs, c.atLeastVector.shape.length = w.shape.length := by
    intro c hc
    obtain ⟨g, hg, hgc⟩ := List.mem_map.mp (Holds.map_shape hgs ▸ List.mem_map_of_mem hc)
    rw [Contents.atLeastVector_eq_recast, Contents.shape_recast, ← hgc]
    exact hlengths _ (List.mem_map_of_mem hg)
  rw [hfirst] at hk
  have hplace := Value.asPlace_of_asInteger hn
  have hsizes := mapM_extents hplace hk hranks hread
  have hextents : ((cs.map Contents.atLeastVector).map fun e => e.shape.getD k 0)
      = cs.map fun c => (Recast.atLeastVector.of c.shape).getD k 0 := by
    rw [List.map_map]
    refine List.map_congr_left fun c _ => ?_
    rw [Function.comp_apply, Contents.atLeastVector_eq_recast, Contents.shape_recast]
  rw [hextents] at hsizes
  have haxes : ¬ e.shape = [] := by
    intro h
    rw [← he, h] at hkw
    cases hkw
  unfold catAdjoint
  rw [List.getLast?_concat, List.dropLast_concat]
  simp only [Fallible.ofOption_some, ok_bind, hdy, if_neg haxes]
  rw [hsizes, ok_bind, hplace, ok_bind, he, hk]
  rfl

/-! #### Both directions -/

/-- Arrays that were made of grids are read as these. -/
theorem read_ofGrid (qs : List (Grid (Member F d))) :
    List.Forall₂ (fun x c => x.contents = .ok c)
        (qs.map fun q => Value.ofContents (ofGrid d q)) (qs.map (ofGrid d)) ∧
      List.Forall₂ (Holds d) (qs.map (ofGrid d)) qs := by
  constructor
  · rw [List.forall₂_map_left_iff, List.forall₂_map_right_iff, List.forall₂_same]
    exact fun q _ => Value.contents_ofContents q
  · rw [List.forall₂_map_left_iff, List.forall₂_same]
    exact fun q _ => Contents.holds_ofGrid d q

/-- The shape of the array that holds a grid. -/
theorem shape_ofGrid (g : Grid (Member F d)) :
    (Value.ofContents (ofGrid d g)).shape = .ok g.shape := by
  rw [shape_ofContents, (Contents.holds_ofGrid d g).shape_eq]

/-- The vector of all members is cut into the values, and what an array of its shape is cut into
makes that array. -/
theorem roots_cut_back (hread : List.Forall₂ (fun x c => x.contents = .ok c) xs cs)
    (hgs : List.Forall₂ (Holds d) cs gs) (hne : gs ≠ []) :
    ∃ y s, roots xs = .ok y ∧ y.shape = .ok s ∧
      rootsAdjoint (xs ++ [y]) = .ok (.tuple (cs.map .ofContents)) ∧
      ∀ dy e, dy.contents = .ok e → e.shape = s →
        ∃ parts, rootsAdjoint (xs ++ [dy]) = .ok (.tuple parts) ∧
          roots parts = .ok (.ofContents e) := by
  have hflat : gs.map Grid.flatten = gs.map (Grid.recast .vector) :=
    List.map_congr_left fun g _ => g.flatten_eq_recast
  obtain ⟨w, hw, -⟩ := Grid.exists_join?_flatten hne
  rw [hflat] at hw
  have hholds := Contents.holds_ofGrid d w
  refine ⟨_, w.shape, roots_holds hread hgs hw, shape_ofGrid w, ?_, fun dy e hdy he => ?_⟩
  · rw [rootsAdjoint_vector hread hw (Value.contents_ofContents w) hholds.shape_eq,
      parts_of_join hread hgs hw]
    rfl
  · obtain ⟨u, hu⟩ := e.exists_holds
    obtain ⟨qs, -, hjoin, hparts⟩ := exists_parts hread hgs hw hu (hu.shape_eq.symm.trans he)
    obtain ⟨hqread, hqholds⟩ := read_ofGrid qs
    refine ⟨qs.map fun q => .ofContents (ofGrid e.dtype? q), ?_, ?_⟩
    · rw [rootsAdjoint_vector hread hw hdy he, hparts]
      rfl
    · rw [roots_holds hqread hqholds hjoin, hu.ofContents_eq]

/-- Values joined along an axis are cut into the values, and what an array of the join's shape is
cut into is joined to that array. -/
theorem cat_cut_back (hread : List.Forall₂ (fun x c => x.contents = .ok c) xs cs)
    (hgs : List.Forall₂ (Holds d) cs gs) (hne : gs ≠ []) {axis y : Value F}
    (haxis : axis.isNone = false) (hy : cat axis xs = .ok y) :
    catAdjoint axis (xs ++ [y]) = .ok (.tuple (.none :: cs.map .ofContents)) ∧
      ∀ dy e, dy.contents = .ok e → y.shape = .ok e.shape →
        ∃ parts, catAdjoint axis (xs ++ [dy]) = .ok (.tuple (.none :: parts)) ∧
          cat axis parts = .ok (.ofContents e) := by
  obtain ⟨n, k, w, hn, hk, hw, rfl⟩ := (cat_holds haxis hne hread hgs).mp hy
  have hholds := Contents.holds_ofGrid d w
  refine ⟨?_, fun dy e hdy he => ?_⟩
  · rw [catAdjoint_holds hn hk hread hgs hw (Value.contents_ofContents w) hholds.shape_eq,
      parts_of_join hread hgs hw]
    rfl
  · rw [shape_ofGrid] at he
    have he : e.shape = w.shape := (Except.ok.inj he).symm
    obtain ⟨u, hu⟩ := e.exists_holds
    obtain ⟨qs, hshapes, hjoin, hparts⟩ :=
      exists_parts hread hgs hw hu (hu.shape_eq.symm.trans he)
    obtain ⟨hqread, hqholds⟩ := read_ofGrid qs
    have hqne : qs ≠ [] := fun h => hne (by simpa [h] using hshapes.symm)
    -- The parts have the shapes of the values, so the axis is found among as many.
    have hfirst : firstRank qs = firstRank gs := by
      unfold firstRank
      rw [hshapes]
    refine ⟨qs.map fun q => .ofContents (ofGrid e.dtype? q), ?_,
      (cat_holds haxis hqne hqread hqholds).mpr
        ⟨n, k, u, hn, hfirst ▸ hk, hjoin, hu.ofContents_eq⟩⟩
    rw [catAdjoint_holds hn hk hread hgs hw hdy he, hparts]
    rfl

/-- **Joins and cuts are inverse.**  Some values, at least one, all of one element type, are read as
arrays.  The vector of all their members can always be made; its adjoint cuts the vector into the
values again, each as an array of its own shape, and it cuts every array of the vector's shape into
parts whose vector is that array.  The same holds of the values joined along an axis, if they can be
joined: the adjoint answers nothing for the axis and a part for each value. -/
theorem joins_cut_back (hne : xs ≠ []) (hxs : xs.mapM Value.contents = .ok cs)
    (hd : ∀ c ∈ cs, c.dtype? = d) :
    (∃ y s, roots xs = .ok y ∧ y.shape = .ok s ∧
      rootsAdjoint (xs ++ [y]) = .ok (.tuple (cs.map .ofContents)) ∧
      ∀ dy e, dy.contents = .ok e → e.shape = s →
        ∃ parts, rootsAdjoint (xs ++ [dy]) = .ok (.tuple parts) ∧
          roots parts = .ok (.ofContents e)) ∧
    ∀ axis y, axis.isNone = false → cat axis xs = .ok y →
      catAdjoint axis (xs ++ [y]) = .ok (.tuple (.none :: cs.map .ofContents)) ∧
      ∀ dy e, dy.contents = .ok e → y.shape = .ok e.shape →
        ∃ parts, catAdjoint axis (xs ++ [dy]) = .ok (.tuple (.none :: parts)) ∧
          cat axis parts = .ok (.ofContents e) := by
  have hread := mapM_eq_ok.mp hxs
  obtain ⟨gs, hgs⟩ := Contents.exists_forall₂_holds hd
  have hgne : gs ≠ [] := by
    rintro rfl
    cases hgs
    cases hread
    exact hne rfl
  exact ⟨roots_cut_back hread hgs hgne, fun axis y haxis hy =>
    cat_cut_back hread hgs hgne haxis hy⟩

/-- A number, an empty vector and a vector of two numbers. -/
def unevenVectors : List (Value ℚ) :=
  [.real 5, .array ⟨.float64, Grid.ofFn [0] fun _ => 0⟩,
    .array ⟨.float64, Grid.ofFn [2] fun i => if i = [0] then 1 else 2⟩]

/-- The vectors, with the number as one without axes. -/
def unevenArrays : List (Tensor ℚ) :=
  [⟨.float64, Grid.single 5⟩, ⟨.float64, Grid.ofFn [0] fun _ => 0⟩,
    ⟨.float64, Grid.ofFn [2] fun i => if i = [0] then 1 else 2⟩]

theorem joins_cut_back_uneven_vectors :
    (∃ y, roots unevenVectors = .ok y ∧
      rootsAdjoint (unevenVectors ++ [y]) = .ok (.tuple (unevenArrays.map .array))) ∧
    ∃ y, cat (.integer (-1)) unevenVectors = .ok y ∧
      catAdjoint (.integer (-1)) (unevenVectors ++ [y])
        = .ok (.tuple (.none :: unevenArrays.map .array)) := by
  have hread : unevenVectors.mapM Value.contents = .ok (unevenArrays.map .numbers) := rfl
  obtain ⟨⟨y, s, hy, -, hroots, -⟩, hcat⟩ :=
    joins_cut_back (d := some .float64) (List.cons_ne_nil _ _) hread (by decide)
  obtain ⟨z, hz⟩ := exists_of_isOk (x := cat (.integer (-1)) unevenVectors) (by decide)
  exact ⟨⟨y, hy, hroots⟩, z, hz, (hcat _ z rfl hz).1⟩

end Kernel

end SlotGrad
