import SlotGrad.Proofs.JoinTransposes
import SlotGrad.Run.Engine

/-!
# Sparse updates are transposes of indexing

An indexing layer reads the positions of its result from positions of its source, and its backward
instruction adds the derivative of the result at the same positions into the source's derivative,
which is first brought to the source's shape.  Reading and adding go through one selection, so a
position that is read twice is added to twice.

## Main results

* `scatterTarget_reals` — the derivative that is added into counts what it did.
* `addInto_reals` — what an addition at an index counts.
* `scatter_transposes` — a whole sparse update.
-/

namespace SlotGrad

open Value

variable {K : Type} [Field K] [Arith K] [ExactArith K]

/-! ### Preparing the derivative of the source -/

/-- Real values meet as real numbers. -/
theorem commonDtype_reals {F : Type} [Arith F] {a b : Value F} {g h : Grid F}
    (ha : a.reals? = some g) (hb : b.reals? = some h) : a.commonDtype b = .ok .float64 := by
  rcases reals?_eq_some ha with ⟨x, rfl, -⟩ | ⟨x, rfl, -⟩ | rfl <;>
    rcases reals?_eq_some hb with ⟨y, rfl, -⟩ | ⟨y, rfl, -⟩ | rfl <;> rfl

/-- A real value that counts as zero is a zero without axes. -/
theorem reals_of_isZeroValue {v : Value K} {g : Grid K} (hv : v.reals? = some g)
    (hzero : Store.isZeroValue v = true) : g.shape = [] ∧ g.first = 0 := by
  have hsame : ∀ x : K, Arith.same x (Arith.ofInt 0) = true → x = 0 := by
    intro x hx
    rw [(ExactArith.same_iff _ _).mp hx, ExactArith.ofInt_eq, Int.cast_zero]
  rcases reals?_eq_some hv with ⟨x, rfl, rfl⟩ | ⟨x, rfl, rfl⟩ | rfl
  · exact ⟨rfl, hsame x hzero⟩
  · exact ⟨rfl, hsame x hzero⟩
  · cases hzero

variable {x w : Value (Dual K)} {current dy target : Value K} {g : Grid (Dual K)}

/-- The derivative that a sparse update adds into has the source's shape and counts what the
derivative counted before. -/
theorem scatterTarget_reals {owned : Bool} (hx : x.reals? = some g)
    (hcurrent : current.IsCotangent x) {d : Grid K} (hd : dy.reals? = some d)
    (ht : scatterTarget owned current (x.map Dual.re) dy = .ok target) :
    ∃ e, target.reals? = some e ∧ e.shape = g.shape ∧ e.pairing g = current.pairing x := by
  have hxn := numbers?_of_reals? hx
  have hxr : (x.map Dual.re).reals? = some (g.map Dual.re) := by rw [reals?_map, hx]; rfl
  obtain ⟨c, hc, hcotangent⟩ := hcurrent.grid hxn
  have hpairing := pairing_eq hc hxn
  unfold scatterTarget at ht
  rw [shape_map_re hxn, commonDtype_reals hxr hd, commonDtype_reals hc hd, contents_of_reals? hc,
    shape_of_reals? hc] at ht
  split at ht
  -- The zero of a reset counts nothing, and neither do zeros of the source's shape.
  · rename_i hzero
    have hpresent : current.isNone = false := by
      rcases reals?_eq_some hc with ⟨y, rfl, -⟩ | ⟨y, rfl, -⟩ | rfl <;> rfl
    rw [hpresent, Bool.false_or] at hzero
    obtain ⟨hcs, hc0⟩ := reals_of_isZeroValue hc hzero
    cases ht
    refine ⟨.full g.shape (Elem.zero .float64), rfl, rfl, ?_⟩
    rw [hpairing, Grid.pairing_eq_zero (Grid.spread_eq_zero hcs hc0),
      Grid.pairing_of_shape_eq rfl]
    refine Shape.total_eq_zero fun i hi => ?_
    unfold Grid.full
    rw [Grid.at_ofFn hi]
    change Arith.ofInt 0 * _ = _
    rw [ExactArith.ofInt_eq, Int.cast_zero, zero_mul]
  · obtain ⟨_, hs, ht⟩ := bind_eq_ok.mp ht
    cases hs
    obtain ⟨_, hcs, ht⟩ := bind_eq_ok.mp ht
    cases hcs
    split at ht
    -- An array that the pass made at this shape is kept as it is.
    · rename_i hown
      cases ht
      obtain ⟨-, hshape⟩ := Bool.and_eq_true_iff.mp hown
      exact ⟨c, hc, by simpa using hshape, hpairing.symm⟩
    -- A copy at the source's shape counts as often as what is copied is read.
    · obtain ⟨_, hcontents, ht⟩ := bind_eq_ok.mp ht
      cases hcontents
      obtain ⟨wide, hwide, ht⟩ := bind_eq_ok.mp ht
      unfold Contents.broadcastTo Contents.restructure at hwide
      obtain ⟨e, he, hwide⟩ := bind_eq_ok.mp hwide
      cases pure_eq_ok.mp hwide
      obtain ⟨hfits, rfl⟩ := Grid.broadcastTo?_eq_some (ofOption_eq_ok.mp he)
      cases ht
      refine ⟨.ofFn g.shape c.spread, ?_, rfl, ?_⟩
      · unfold Tensor.convert
        rw [if_pos rfl]
        rfl
      · rw [hpairing, Grid.pairing_of_shape_eq rfl]
        exact Shape.total_congr fun i hi => by rw [Grid.at_ofFn hi]

/-! ### Adding at an index -/

section

variable {d e : Grid K} {sel : Selection}

omit [ExactArith K] in
/-- Additions at places of a grid add what they count, one after another. -/
theorem Grid.pairing_foldl_update (he : e.shape = g.shape) (source : List Nat → List Nat)
    (v : List Nat → K) (is : List (List Nat)) :
    (is.foldl (fun acc i => acc.update (source i) fun old => old + v i) e).shape = g.shape ∧
      (is.foldl (fun acc i => acc.update (source i) fun old => old + v i) e).pairing g
        = e.pairing g + (is.map fun i => v i * (g.at (source i)).eps).sum := by
  induction is generalizing e with
  | nil => exact ⟨he, (add_zero _).symm⟩
  | cons i is ih =>
    have hupdated : (e.update (source i) fun old => old + v i).shape = g.shape := he
    obtain ⟨hshape, hsum⟩ := ih hupdated
    refine ⟨hshape, ?_⟩
    rw [List.foldl_cons, hsum, List.map_cons, List.sum_cons, pairing_of_shape_eq hupdated,
      pairing_of_shape_eq he, total_update (ψ := Dual.eps) rfl he, add_assoc]

/-- A derivative added at an index counts against the source as it counts against the part that the
index reads. -/
theorem addInto_reals {index v : Value K} (ht : target.reals? = some e) (he : e.shape = g.shape)
    (hd : dy.reals? = some d) {ps : List Pick} (hps : index.picks = .ok ps)
    (hsel : Selection.resolve ps g.shape = .ok sel) (hv : addInto target index dy = .ok v) :
    ∃ f, v.reals? = some f ∧ f.shape = g.shape ∧
      f.pairing g = e.pairing g + d.pairing (g.select sel) := by
  rcases reals?_eq_some ht with ⟨y, rfl, -⟩ | ⟨y, rfl, -⟩ | rfl
  · cases hv
  · cases hv
  · unfold addInto Tensor.addAtIndex at hv
    rw [hps, contents_of_reals? hd] at hv
    obtain ⟨t, ht, hv⟩ := bind_eq_ok.mp hv
    obtain ⟨_, hps', ht⟩ := bind_eq_ok.mp ht
    cases hps'
    obtain ⟨sel', hsel', ht⟩ := bind_eq_ok.mp ht
    have hes : (⟨.float64, e⟩ : Tensor K).shape = g.shape := he
    rw [hes, hsel] at hsel'
    cases hsel'
    have ht : (⟨.float64, e⟩ : Tensor K).addAtSelection sel ⟨.float64, d⟩ = .ok t := ht
    -- Stored without rounding, an addition at the selection is a fold of updates.
    obtain ⟨vs, hvs, ht⟩ := bind_eq_ok.mp
      (show (do
        let vs ← (⟨.float64, d⟩ : Tensor K).broadcastTo sel.shape
        return ⟨.float64, (Shape.indices sel.shape).foldl
          (fun (acc : Grid K) i => acc.update (sel.source i) fun old =>
            Elem.convert .float64 .float64 (Elem.add .float64 (Elem.convert .float64 .float64 old)
              ((vs.gridAs .float64).at i))) e⟩ : Fallible (Tensor K)) = .ok t from ht)
    unfold Tensor.broadcastTo at hvs
    dsimp only at hvs
    -- The derivative is stretched over the selection first.
    cases hwide : d.broadcastTo? sel.shape with
    | none =>
      rw [hwide] at hvs
      cases hvs
    | some wide =>
      rw [hwide] at hvs
      cases hvs
      obtain ⟨-, rfl⟩ := Grid.broadcastTo?_eq_some hwide
      simp only [Elem.convert_self, Tensor.gridAs_self] at ht
      have hstep : ∀ (old : K) (i : List Nat),
          Elem.add .float64 old ((Grid.ofFn sel.shape d.spread).at i)
            = old + (Grid.ofFn sel.shape d.spread).at i := fun old i => ExactArith.add_eq _ _
      simp only [hstep] at ht
      obtain ⟨hshape, hsum⟩ := Grid.pairing_foldl_update he sel.source
        (Grid.ofFn sel.shape d.spread).at (Shape.indices sel.shape)
      have hvr : v.reals? = some ((Shape.indices sel.shape).foldl
          (fun (acc : Grid K) i => acc.update (sel.source i) fun old =>
            old + (Grid.ofFn sel.shape d.spread).at i) e) := by
        rw [← pure_eq_ok.mp hv, ← pure_eq_ok.mp ht]
        rfl
      refine ⟨_, hvr, hshape, ?_⟩
      rw [hsum, ← Shape.total_eq_sum]
      congr 1
      refine Shape.total_congr fun i hi => ?_
      rw [Grid.at_ofFn hi]
      unfold Grid.select
      rw [Grid.at_ofFn hi]

end

/-- A sparse update adds to what the source's derivative counts what the derivative of the result
counts. -/
theorem scatter_transposes {owned : Bool} {index v : Value K} (hx : x.reals? = some g)
    (hw : Kernel.slice x (index.map Dual.embed) = .ok w) (hcurrent : current.IsCotangent x)
    (hdy : dy.IsCotangent w)
    (ht : scatterTarget owned current (x.map Dual.re) dy = .ok target)
    (hv : addInto target index dy = .ok v) :
    v.IsCotangent x ∧ v.pairing x = current.pairing x + dy.pairing w := by
  have hxn := numbers?_of_reals? hx
  unfold Kernel.slice at hw
  rw [getAt_reals hx, picks_map Dual.hom_embed] at hw
  obtain ⟨ps, hps, hw⟩ := bind_eq_ok.mp hw
  obtain ⟨sel, hsel, hw⟩ := bind_eq_ok.mp hw
  have hwr : w.reals? = some (g.select sel) := by
    rw [← pure_eq_ok.mp hw]
    exact Kernel.reals?_arrayOrElement _ _
  obtain ⟨d, hd, -⟩ := hdy.grid (numbers?_of_reals? hwr)
  obtain ⟨e, he, hes, hpe⟩ := scatterTarget_reals hx hcurrent hd ht
  obtain ⟨f, hf, hfs, hpf⟩ := addInto_reals he hes hd hps hsel hv
  refine ⟨isCotangent_of_shape_eq hf hxn hfs, ?_⟩
  rw [pairing_eq hf hxn, hpf, hpe, pairing_eq hd (numbers?_of_reals? hwr)]

end SlotGrad
