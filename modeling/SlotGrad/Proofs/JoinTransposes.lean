import SlotGrad.Proofs.LayoutTransposes

/-!
# Adjoints of reshaping and joining are transposes

Reshaping keeps the elements in their row-major order, so a derivative is reshaped back.  Joining
puts grids one after another, so a derivative of the result is cut where they were joined.

## Main results

* `Grid.pairing_reshape` — grids with the same elements count the same.
* `Grid.pairing_join?` — a derivative of joined grids is paired part by part.
* `Kernel.reshapeAdjoint_transposes`, `Kernel.catAdjoint_transposes`,
  `Kernel.rootsAdjoint_transposes` — the kernels.
-/

namespace SlotGrad

variable {K : Type} [Field K] [Arith K] [ExactArith K]

/-! ### Changes of shape -/

namespace Grid

variable {α : Type}

theorem data_reshape? {a b : Grid α} {s : Shape} (h : a.reshape? s = some b) : b.data = a.data := by
  unfold reshape? at h
  split at h
  · cases h
    rfl
  · cases h

/-- A derivative under another shape, where the value was under that shape before. -/
theorem pairing_reshape {d e : Grid K} {x y : Grid (Dual K)} (hd : d.IsCotangent x.shape)
    (he : e.shape = y.shape) (hde : e.data = d.data) (hxy : y.data = x.data) :
    e.pairing y = d.pairing x := by
  rcases hd with hds | ⟨hds, hzero⟩
  · rw [pairing_of_shape_eq he, pairing_of_shape_eq hds]
    exact total_of_data_eq he hds hde hxy
  · -- A zero without axes is the only element there is.
    have hread : ∀ n, d.data.getD n default = 0 := by
      intro n
      have hsize : d.data.size = 1 := by rw [d.size_eq, hds, Shape.size_nil]
      cases n with
      | zero => exact hzero
      | succ n =>
        rw [Array.getD_eq_getD_getElem?, Array.getElem?_eq_none (by omega), Option.getD_none,
          ExactArith.default_eq]
    have hspread : ∀ i, e.spread i = 0 := by
      intro i
      unfold spread «at»
      rw [hde, hread]
    rw [pairing_eq_zero hspread, pairing_eq_zero (spread_eq_zero hds hzero)]

end Grid

/-! ### Joins -/

namespace Grid

section

variable {α β : Type} [Inhabited β] {k : Nat} {d : Grid β} {gs : List (Grid α)}

/-- The runs of layers have the shapes of the grids that were joined. -/
theorem shape_partsOf {cross : Shape} {n : Nat} (start : Nat) (hgs : Joinable k cross gs)
    (hd : d.shape = cross.insertIdx k n) :
    List.Forall₂ (fun p g => p.shape = g.shape) (partsOf k d start gs) gs := by
  induction gs generalizing start with
  | nil => exact .nil
  | cons g gs ih =>
    refine .cons ?_ (ih _ hgs.tail)
    unfold layers
    rw [shape_ofFn, hd, set_insertIdx_self, ← hgs.shape_eq (List.mem_cons_self ..)]

end

variable {d : Grid K} {u : Grid (Dual K)} {gs : List (Grid (Dual K))} {k : Nat}

omit [ExactArith K] in
/-- A derivative of joined grids falls apart into the parts that are cut where they were joined. -/
theorem pairing_join? (hu : join? k gs = some u) (hd : d.shape = u.shape) :
    (∀ g ∈ gs, g.shape.length = u.shape.length) ∧ k < u.shape.length ∧
      d.cut k (Kernel.cuttingPoints (gs.map fun g => g.shape.getD k 0)) = partsOf k d 0 gs ∧
      List.Forall₂ (fun p g => p.shape = g.shape) (partsOf k d 0 gs) gs ∧
      (((partsOf k d 0 gs).zip gs).map fun p => p.1.pairing p.2).sum = d.pairing u := by
  obtain ⟨cross, hne, hk, hjoin, hus, hat⟩ := join?_eq_some hu
  have hlength : (cross.insertIdx k (extentSum k gs)).length = cross.length + 1 :=
    List.length_insertIdx_of_le_length hk _
  have hextent : (cross.insertIdx k (extentSum k gs)).getD k 0 = extentSum k gs := by
    rw [List.getD_eq_getElem _ _ (by omega), List.getElem_insertIdx_self]
  have hparts := shape_partsOf 0 hjoin (hd.trans hus)
  refine ⟨fun g hg => ?_, ?_, cut_cuttingPoints hne (by rw [hd, hus, hextent]), hparts, ?_⟩
  · rw [hjoin.shape_eq hg, hus, List.length_insertIdx_of_le_length hk, hlength]
  · rw [hus, hlength]
    omega
  · have htotal := total_atJoined Dual.eps 0 hk hjoin (hd.trans hus) (by omega)
    have hpairing : ∀ {ps : List (Grid K)} {gs : List (Grid (Dual K))},
        List.Forall₂ (fun p g => p.shape = g.shape) ps gs →
          (ps.zip gs).map (fun p => p.1.pairing p.2)
            = (ps.zip gs).map fun p => p.2.shape.total fun i => p.1.at i * (p.2.at i).eps := by
      intro ps gs h
      induction h with
      | nil => rfl
      | cons hpg _ ih =>
        rw [List.zip_cons_cons, List.map_cons, List.map_cons, ih, pairing_of_shape_eq hpg]
    have haxis : k < (cross.insertIdx k (extentSum k gs)).length := by omega
    rw [hpairing hparts, ← htotal]
    symm
    rw [pairing_of_shape_eq hd, hus, Shape.total_eraseIdx haxis, List.eraseIdx_insertIdx_self,
      hextent]
    refine Shape.total_congr fun i hi => Finset.sum_congr rfl fun j hj => ?_
    rw [hat i hi j (Finset.mem_range.mp hj), Nat.zero_add]

end Grid

/-! ### The kernels -/

namespace Kernel

open Value

section

variable {F : Type} [Arith F] {x w : Value F} {g : Grid F}

/-- A value under another shape has the same elements. -/
theorem reshapeTo_eq_ok {es : List Int} (hx : x.reals? = some g) (hw : reshapeTo x es = .ok w) :
    ∃ s u, closeShape g.shape.size es = .ok s ∧ g.reshape? s = some u ∧ w.reals? = some u := by
  rw [reshapeTo_reals hx] at hw
  obtain ⟨s, hs, hw⟩ := bind_eq_ok.mp hw
  obtain ⟨u, hu, hw⟩ := bind_eq_ok.mp hw
  refine ⟨s, u, hs, ofOption_eq_ok.mp hu, ?_⟩
  rw [← pure_eq_ok.mp hw]
  exact reals?_arrayOrElement _ u

theorem reshape_eq_ok {shape : Value F} (hx : x.reals? = some g) (hw : reshape x shape = .ok w) :
    ∃ u, w.reals? = some u ∧ u.data = g.data := by
  cases hs : shape.isNone with
  | true =>
    have hshape : shape = .none := by cases shape <;> first | rfl | cases hs
    rw [hshape, reshape_none_reals hx] at hw
    cases hw
    refine ⟨g, ?_, rfl⟩
    split_ifs
    · exact hx
    · rfl
  | false =>
    rw [reshape_of_isNone _ hs] at hw
    obtain ⟨es, -, hw⟩ := bind_eq_ok.mp hw
    obtain ⟨s, u, -, hu, hwr⟩ := reshapeTo_eq_ok hx hw
    exact ⟨u, hwr, Grid.data_reshape? hu⟩

/-- The extents of a shape leave none open. -/
theorem closeShape_ofNat (size : Nat) (s : Shape) : closeShape size (s.map Int.ofNat) = .ok s := by
  have hall : (s.map Int.ofNat).filter (0 ≤ ·) = s.map Int.ofNat := by
    refine List.filter_eq_self.mpr fun e he => ?_
    obtain ⟨n, -, rfl⟩ := List.mem_map.mp he
    simp
  have hback : (s.map Int.ofNat).map Int.toNat = s := by
    rw [List.map_map]
    exact List.map_id s
  unfold closeShape
  rw [hall, hback]
  dsimp only
  rw [List.length_map, Nat.sub_self]
  rfl

end

variable {a w : Value (Dual K)} {dy out : Value K} {g : Grid (Dual K)}

theorem reshapeAdjoint_transposes {shape : Value (Dual K)} {shape' : Value K}
    (ha : a.reals? = some g) (hw : reshape a shape = .ok w) (hdy : dy.IsCotangent w)
    (hout : reshapeAdjoint (a.map Dual.re) shape' dy = .ok out) :
    out.IsCotangent a ∧ out.pairing a = dy.pairing w := by
  have han := numbers?_of_reals? ha
  obtain ⟨u, hwr, hdata⟩ := reshape_eq_ok ha hw
  obtain ⟨d, hd, hcotangent⟩ := hdy.grid (numbers?_of_reals? hwr)
  unfold reshapeAdjoint at hout
  rw [shape_map_re han] at hout
  have hout : reshapeTo dy (g.shape.map Int.ofNat) = .ok out := hout
  obtain ⟨s, e, hs, he, hout⟩ := reshapeTo_eq_ok hd hout
  rw [closeShape_ofNat] at hs
  cases hs
  have hes := Grid.shape_reshape? he
  refine ⟨isCotangent_of_shape_eq hout han hes, ?_⟩
  rw [pairing_eq hout han, pairing_eq hd (numbers?_of_reals? hwr)]
  exact Grid.pairing_reshape hcotangent hes (Grid.data_reshape? he) hdata.symm

/-! #### Joins -/

/-- Results that belong to values, one for each. -/
def AreCotangents (outs : List (Value K)) (xs : List (Value (Dual K))) : Prop :=
  List.Forall₂ Value.IsCotangent outs xs

/-- What a list of derivatives counts against a list of values. -/
def pairings (outs : List (Value K)) (xs : List (Value (Dual K))) : K :=
  ((outs.zip xs).map fun p => p.1.pairing p.2).sum

/-- Parts of a derivative under the shapes of the values that they belong to. -/
theorem reshapeParts_transposes {xs : List (Value (Dual K))} {gs gs' : List (Grid (Dual K))}
    (hxs : AreReals xs gs) (hdata : List.Forall₂ (fun g g' => g'.data = g.data) gs gs') :
    ∀ {ps : List (Grid K)} {outs : List (Value K)},
      List.Forall₂ (fun p g' => p.shape = g'.shape) ps gs' →
        reshapeParts (ps.map Contents.ofReals) (xs.map (Value.map Dual.re)) = .ok outs →
          AreCotangents outs xs ∧
            pairings outs xs = ((ps.zip gs').map fun p => p.1.pairing p.2).sum := by
  induction hxs generalizing gs' with
  | nil =>
    intro ps outs hps hout
    cases hdata
    cases hps
    cases hout
    exact ⟨.nil, rfl⟩
  | @cons x g xs gs hx _ ih =>
    intro ps outs hps hout
    obtain _ | ⟨hgg', hdata⟩ := hdata
    obtain _ | ⟨hpg', hps⟩ := hps
    rename_i g' gs' p ps
    have hxn := numbers?_of_reals? hx
    unfold reshapeParts at hout
    rw [List.map_cons, List.map_cons, List.zip_cons_cons, List.mapM_cons] at hout
    obtain ⟨v, hv, hout⟩ := bind_eq_ok.mp hout
    obtain ⟨vs, hvs, hout⟩ := bind_eq_ok.mp hout
    cases pure_eq_ok.mp hout
    dsimp only at hv
    rw [shape_map_re hxn] at hv
    obtain ⟨c, hc, hv⟩ := bind_eq_ok.mp
      (show (do return Value.ofContents (← (Contents.ofReals p).reshape g.shape) :
        Fallible (Value K)) = .ok v from hv)
    unfold Contents.reshape Contents.restructure Contents.ofReals at hc
    obtain ⟨e, he, hc⟩ := bind_eq_ok.mp hc
    cases pure_eq_ok.mp hc
    have he := ofOption_eq_ok.mp he
    have hve : v.reals? = some e := by
      rw [← pure_eq_ok.mp hv]
      rfl
    have hes := Grid.shape_reshape? he
    obtain ⟨hcotangents, hsum⟩ := ih hdata hps hvs
    refine ⟨.cons (isCotangent_of_shape_eq hve hxn hes) hcotangents, ?_⟩
    -- A reshaped part keeps its numbers in row-major order, and so what it counts.
    have hhead : v.pairing x = p.pairing g' := by
      rw [pairing_eq hve hxn]
      exact Grid.pairing_reshape (.inl hpg') hes (Grid.data_reshape? he) hgg'.symm
    unfold pairings at hsum ⊢
    rw [List.zip_cons_cons, List.zip_cons_cons, List.map_cons, List.map_cons, List.sum_cons,
      List.sum_cons, hhead, hsum]

/-- A zero without axes counts nothing for any value. -/
theorem mapM_unbroadcast_zero {d : Grid K} (hd : dy.reals? = some d) (hzero : ∀ i, d.spread i = 0)
    {xs : List (Value (Dual K))} {gs : List (Grid (Dual K))} (hxs : AreReals xs gs) :
    ∀ {outs : List (Value K)}, (xs.map (Value.map Dual.re)).mapM (unbroadcast dy) = .ok outs →
      AreCotangents outs xs ∧ pairings outs xs = 0 := by
  induction hxs with
  | nil =>
    intro outs hout
    cases hout
    exact ⟨.nil, rfl⟩
  | @cons x g xs gs hx _ ih =>
    intro outs hout
    rw [List.map_cons, List.mapM_cons] at hout
    obtain ⟨v, hv, hout⟩ := bind_eq_ok.mp hout
    obtain ⟨vs, hvs, hout⟩ := bind_eq_ok.mp hout
    cases pure_eq_ok.mp hout
    obtain ⟨hcotangent, common, -, hpairing⟩ := unbroadcast_eq_ok hd (numbers?_of_reals? hx) hv
    obtain ⟨hcotangents, hsum⟩ := ih hvs
    refine ⟨.cons hcotangent hcotangents, ?_⟩
    have hhead : v.pairing x = 0 := by
      rw [hpairing]
      exact Shape.total_eq_zero fun i _ => by rw [hzero, zero_mul]
    unfold pairings at hsum ⊢
    rw [List.zip_cons_cons, List.map_cons, List.sum_cons, hhead, hsum, add_zero]

/-- A computation on values that tells the same of the grids they stand for. -/
theorem mapM_reals {F β : Type} {xs : List (Value F)} {gs : List (Grid F)} (hxs : AreReals xs gs)
    {f : Value F → Fallible β} {h : Grid F → β}
    (hf : ∀ x g, g ∈ gs → x.reals? = some g → f x = .ok (h g)) : xs.mapM f = .ok (gs.map h) := by
  induction hxs with
  | nil => rfl
  | @cons x g xs gs hx _ ih =>
    rw [List.mapM_cons, hf x g (List.mem_cons_self ..) hx,
      ih fun y k hk => hf y k (List.mem_cons_of_mem _ hk)]
    rfl

omit [ExactArith K] in
/-- A derivative of joined grids that has no axes is zero. -/
theorem spread_eq_zero_of_join? {d : Grid K} {gs : List (Grid (Dual K))} {k : Nat}
    {u : Grid (Dual K)} (hu : Grid.join? k gs = some u) (hd : d.IsCotangent u.shape)
    (hs : d.shape = []) : ∀ i, d.spread i = 0 := by
  rcases hd with hds | ⟨-, hzero⟩
  · obtain ⟨-, hk, -⟩ := Grid.pairing_join? hu hds
    rw [← hds, hs] at hk
    exact absurd hk (Nat.not_lt_zero k)
  · exact Grid.spread_eq_zero hs hzero

/-- The parts that a derivative of joined grids is cut into, under the shapes of the values. -/
theorem cut_transposes {xs : List (Value (Dual K))} {gs gs' : List (Grid (Dual K))} {k : Nat}
    {d : Grid K} {u : Grid (Dual K)} (hxs : AreReals xs gs)
    (hdata : List.Forall₂ (fun g g' => g'.data = g.data) gs gs') (hu : Grid.join? k gs' = some u)
    (hd : d.shape = u.shape) {outs : List (Value K)}
    (hout : reshapeParts ((Contents.ofReals d).cut k
      (cuttingPoints (gs'.map fun g => g.shape.getD k 0))) (xs.map (Value.map Dual.re))
        = .ok outs) :
    AreCotangents outs xs ∧ pairings outs xs = d.pairing u := by
  obtain ⟨-, -, hcut, hparts, hpairing⟩ := Grid.pairing_join? hu hd
  have hcontents : ∀ points, (Contents.ofReals d).cut k points
      = (d.cut k points).map Contents.ofReals := by
    intro points
    unfold Contents.cut Contents.ofReals Tensor.cut
    dsimp only
    rw [List.map_map]
    rfl
  rw [hcontents, hcut] at hout
  rw [← hpairing]
  exact reshapeParts_transposes hxs hdata hparts hout

/-- A value without axes counts as a vector of one element. -/
theorem shape_atLeastVector {F : Type} [Arith F] (g : Grid F) :
    (Contents.ofReals g).atLeastVector.shape = g.vectorized.shape := by
  unfold Contents.atLeastVector Grid.vectorized
  change (if g.shape = [] then Contents.ofReals g.flatten else Contents.ofReals g).shape = _
  split_ifs <;> rfl

theorem catAdjoint_transposes {axis : Value K} {xs : List (Value (Dual K))}
    {gs : List (Grid (Dual K))} (hxs : AreReals xs gs) (haxis : axis.isNone = false)
    (hw : cat (axis.map Dual.embed) xs = .ok w) (hdy : dy.IsCotangent w)
    (hout : catAdjoint axis (xs.map (Value.map Dual.re) ++ [dy]) = .ok out) :
    ∃ outs, out = .tuple (.none :: outs) ∧ AreCotangents outs xs ∧
      pairings outs xs = dy.pairing w := by
  rw [cat_reals hxs (by rw [isNone_map, haxis]), asInteger_map Dual.hom_embed] at hw
  obtain ⟨n, hn, hw⟩ := bind_eq_ok.mp hw
  obtain ⟨k, hk, hw⟩ := bind_eq_ok.mp hw
  obtain ⟨u, hu, hw⟩ := bind_eq_ok.mp hw
  have hu := ofOption_eq_ok.mp hu
  have hwr : w.reals? = some u := by
    rw [← pure_eq_ok.mp hw]
    rfl
  obtain ⟨d, hd, hcotangent⟩ := hdy.grid (numbers?_of_reals? hwr)
  have hdw := pairing_eq hd (numbers?_of_reals? hwr)
  have hplace := asPlace_of_asInteger hn
  unfold catAdjoint at hout
  rw [List.getLast?_concat, List.dropLast_concat] at hout
  obtain ⟨_, hlast, hout⟩ := bind_eq_ok.mp hout
  cases hlast
  rw [contents_of_reals? hd] at hout
  obtain ⟨_, hc, hout⟩ := bind_eq_ok.mp hout
  cases hc
  dsimp only at hout
  have hshape : (Contents.numbers ⟨.float64, d⟩ : Contents K).shape = d.shape := rfl
  rw [hshape] at hout
  split at hout
  -- A derivative without axes can only be the zero of a reset, which counts nothing.
  · rename_i hscalar
    obtain ⟨outs, houts, hout⟩ := bind_eq_ok.mp hout
    have hzero := spread_eq_zero_of_join? hu hcotangent hscalar
    obtain ⟨hcotangents, hsum⟩ := mapM_unbroadcast_zero hd hzero hxs houts
    refine ⟨outs, (pure_eq_ok.mp hout).symm, hcotangents, ?_⟩
    rw [hsum, hdw, Grid.pairing_eq_zero hzero]
  · rename_i haxes
    have hds : d.shape = u.shape := hcotangent.resolve_right fun h => haxes h.1
    obtain ⟨hlengths, -, -⟩ := Grid.pairing_join? hu hds
    -- The axis is found among as many axes in every operand, in the result and in its derivative.
    have hfound : Shape.axis? u.shape.length n = some k := by
      cases gs with
      | nil => cases hu
      | cons g gs =>
        have hrank : g.vectorized.shape.length = u.shape.length :=
          hlengths _ (List.mem_map_of_mem (List.mem_cons_self ..))
        rw [← hrank]
        exact ofOption_eq_ok.mp hk
    -- The adjoint reads the operands' extents anew, and finds those that were joined.
    have hextents : ∀ (x : Value K) (g : Grid K), g ∈ gs.map (Grid.map Dual.re) →
        x.reals? = some g → (do
          let s := (← x.contents).atLeastVector.shape
          let k ← Fallible.ofOption .outOfRange (Shape.axis? s.length (← axis.asPlace))
          return s.getD k 0 : Fallible Nat) = .ok (g.vectorized.shape.getD k 0) := by
      intro x g hg hx
      obtain ⟨g', hg', rfl⟩ := List.mem_map.mp hg
      rw [contents_of_reals? hx, hplace]
      change (do
        let k ← Fallible.ofOption .outOfRange
          (Shape.axis? (Contents.ofReals (g'.map Dual.re)).atLeastVector.shape.length n)
        return (Contents.ofReals (g'.map Dual.re)).atLeastVector.shape.getD k 0 :
          Fallible Nat) = _
      rw [shape_atLeastVector, Grid.vectorized_map, Grid.shape_map,
        hlengths _ (List.mem_map_of_mem hg'), hfound]
      rfl
    obtain ⟨sizes, hsizes, hout⟩ := bind_eq_ok.mp hout
    obtain ⟨n', hn', hout⟩ := bind_eq_ok.mp hout
    obtain ⟨k', hk', hout⟩ := bind_eq_ok.mp hout
    rw [mapM_reals (hxs.map Dual.re) hextents] at hsizes
    cases hsizes
    rw [hplace] at hn'
    cases hn'
    rw [hds, hfound] at hk'
    cases hk'
    obtain ⟨outs, houts, hout⟩ := bind_eq_ok.mp hout
    have hsizes : (gs.map (Grid.map Dual.re)).map (fun g => g.vectorized.shape.getD k 0)
        = (gs.map Grid.vectorized).map fun g => g.shape.getD k 0 := by
      rw [List.map_map, List.map_map]
      exact List.map_congr_left fun g _ => by
        rw [Function.comp_apply, Grid.vectorized_map, Grid.shape_map]
        rfl
    rw [hsizes] at houts
    have hdata : List.Forall₂ (fun g g' => g'.data = g.data) gs (gs.map Grid.vectorized) := by
      rw [List.forall₂_map_right_iff]
      refine List.forall₂_same.mpr fun g _ => ?_
      unfold Grid.vectorized
      split_ifs <;> rfl
    obtain ⟨hcotangents, hsum⟩ := cut_transposes hxs hdata hu hds houts
    exact ⟨outs, (pure_eq_ok.mp hout).symm, hcotangents, hsum.trans hdw.symm⟩

theorem rootsAdjoint_transposes {xs : List (Value (Dual K))} {gs : List (Grid (Dual K))}
    (hxs : AreReals xs gs) (hw : roots xs = .ok w) (hdy : dy.IsCotangent w)
    (hout : rootsAdjoint (xs.map (Value.map Dual.re) ++ [dy]) = .ok out) :
    ∃ outs, out = .tuple outs ∧ AreCotangents outs xs ∧ pairings outs xs = dy.pairing w := by
  rw [roots_reals hxs] at hw
  obtain ⟨u, hu, hw⟩ := bind_eq_ok.mp hw
  have hu := ofOption_eq_ok.mp hu
  have hwr : w.reals? = some u := by
    rw [← pure_eq_ok.mp hw]
    rfl
  obtain ⟨d, hd, hcotangent⟩ := hdy.grid (numbers?_of_reals? hwr)
  have hdw := pairing_eq hd (numbers?_of_reals? hwr)
  unfold rootsAdjoint at hout
  rw [List.getLast?_concat, List.dropLast_concat] at hout
  obtain ⟨_, hlast, hout⟩ := bind_eq_ok.mp hout
  cases hlast
  rw [contents_of_reals? hd] at hout
  obtain ⟨_, hc, hout⟩ := bind_eq_ok.mp hout
  cases hc
  have hshape : (Contents.numbers ⟨.float64, d⟩ : Contents K).shape = d.shape := rfl
  rw [hshape] at hout
  split at hout
  -- A derivative without axes is zero, since no result of a join is without axes.
  · rename_i hscalar
    obtain ⟨outs, houts, hout⟩ := bind_eq_ok.mp hout
    have hzero := spread_eq_zero_of_join? hu hcotangent hscalar
    obtain ⟨hcotangents, hsum⟩ := mapM_unbroadcast_zero hd hzero hxs houts
    refine ⟨outs, (pure_eq_ok.mp hout).symm, hcotangents, ?_⟩
    rw [hsum, hdw, Grid.pairing_eq_zero hzero]
  · rename_i haxes
    have hds : d.shape = u.shape := hcotangent.resolve_right fun h => haxes h.1
    obtain ⟨sizes, hsizes, hout⟩ := bind_eq_ok.mp hout
    have hcount : ∀ (x : Value K) (g : Grid K), g ∈ gs.map (Grid.map Dual.re) →
        x.reals? = some g → x.size = .ok g.data.size := by
      intro x g _ hx
      unfold Value.size
      rw [shape_of_reals? hx, g.size_eq]
      rfl
    rw [mapM_reals (hxs.map Dual.re) hcount] at hsizes
    cases hsizes
    obtain ⟨outs, houts, hout⟩ := bind_eq_ok.mp hout
    have hsizes : (gs.map (Grid.map Dual.re)).map (fun g => g.data.size)
        = (gs.map Grid.flatten).map fun g => g.shape.getD 0 0 := by
      rw [List.map_map, List.map_map]
      exact List.map_congr_left fun g _ => Array.size_map
    rw [hsizes] at houts
    -- The result is a vector, and so is its derivative.
    have hflat : d.flatten.shape = u.shape := by
      obtain ⟨hlengths, -, -⟩ := Grid.pairing_join? hu hds
      have hone : u.shape.length = 1 := by
        cases gs with
        | nil => cases hu
        | cons g gs => exact (hlengths _ (List.mem_map_of_mem (List.mem_cons_self ..))).symm
      obtain ⟨n, hn⟩ := List.length_eq_one_iff.mp hone
      change [d.data.size] = u.shape
      rw [d.size_eq, hds, hn]
      simp
    have hdata : List.Forall₂ (fun g g' => g'.data = g.data) gs (gs.map Grid.flatten) := by
      rw [List.forall₂_map_right_iff]
      exact List.forall₂_same.mpr fun g _ => rfl
    obtain ⟨hcotangents, hsum⟩ := cut_transposes hxs hdata hu hflat houts
    refine ⟨outs, (pure_eq_ok.mp hout).symm, hcotangents, ?_⟩
    rw [hsum, hdw, Grid.pairing_reshape hcotangent hflat rfl rfl]

end Kernel

end SlotGrad
