import SlotGrad.Proofs.AlikeValues
import SlotGrad.Proofs.JoinsAndCuts

/-!
# Adjoints of derivatives that stand for one array

An adjoint is called with derivatives of the output that stand for one array, of which some may
be a single number for all of it.  What it answers for an operand stands for one array of the
operand's shape.  Adjoints stretch a single number without being told the shape of the output,
so each has its own reason.

Where the derivative meets another operand before it is reduced, the product reaches the common
shape of the two operands.  Reductions stretch the derivative to what was reduced.  Joins look
whether it has axes.

Sums and differences reduce the derivative as it is, and a single number does not tell how often an
operand was stretched.  A product of matrices and a change of shape have no use for a single number.

## Main definitions

* `Value.AlikeOver` — derivatives of an output that stand for one array.
* `Value.AlikeBetween` — values on the way to the shape for which they stand.
* `Builtin.TakesNumber` — when a number will do in the place of an array of its copies.

## Main results

* `Value.AlikeBetween.operate`, `Value.AlikeBetween.unbroadcast` — steps of an adjoint.
* `Kernel.timesAdjoint_alike`, `Kernel.meanAdjoint_alike` and the like — the kernels.
* `Builtin.adjointCall_alike` — all built-in ops but indexing.
-/

namespace SlotGrad

/-! ### Common shapes -/

namespace Shape

variable {a b c u q : Shape}

theorem broadcast?_comm (h : broadcast? a b = some c) : broadcast? b a = some c := by
  obtain ⟨ha, hb⟩ := fits_of_broadcast? h
  obtain ⟨d, hd, hdc⟩ := exists_broadcast?_of_fits hb ha
  obtain ⟨hbd, had⟩ := fits_of_broadcast? hd
  rw [hd, hdc.antisymm (broadcast?_fits h had hbd)]

/-- A shape on the way to a common shape has the same one. -/
theorem broadcast?_of_fits (h : broadcast? q b = some c) (hq : q.Fits u) (hu : u.Fits c) :
    broadcast? u b = some c := by
  obtain ⟨d, hd, hdc⟩ := exists_broadcast?_of_fits hu (fits_of_broadcast? h).2
  obtain ⟨hud, hbd⟩ := fits_of_broadcast? hd
  rw [hd, hdc.antisymm (broadcast?_fits h (hq.trans hud) hbd)]

end Shape

/-- A first step that all of some calculations share. -/
theorem exists_of_forall_bind {ι α β : Type} [Nonempty ι] {x : Fallible α} {f : ι → α → Fallible β}
    {y : ι → β} (h : ∀ i, x >>= f i = .ok (y i)) : ∃ a, x = .ok a ∧ ∀ i, f i a = .ok (y i) := by
  obtain ⟨i₀⟩ := ‹Nonempty ι›
  obtain ⟨a, ha, -⟩ := bind_eq_ok.mp (h i₀)
  refine ⟨a, ha, fun i => ?_⟩
  obtain ⟨a', ha', hf⟩ := bind_eq_ok.mp (h i)
  cases ha.symm.trans ha'
  exact hf

variable {K : Type} [Field K] [Arith K] [ExactArith K] {ι : Type}

namespace Value

variable {b : Value K} {x y dy : ι → Value K} {q r s t : Shape}

/-- Derivatives of an output of a shape that stand for one array.  Each is real, and has the
shape or is a single number for all of it. -/
structure AlikeOver {F : Type} [Arith F] (r : Shape) (dy : ι → Value F) : Prop where
  /-- They stand for one array. -/
  alike : Alike r dy
  /-- Each has the shape, or none. -/
  reals : ∀ i, (dy i).RealOver r

/-- Values that stand for one array, each of a shape between two given ones. -/
structure AlikeBetween {F : Type} [Arith F] (q r : Shape) (x : ι → Value F) : Prop where
  /-- They stand for one array of the greater shape. -/
  alike : Alike r x
  /-- Each can be stretched to it, and the smaller shape to each. -/
  between : ∀ i, ∃ u : Shape, q.Fits u ∧ u.Fits r ∧ (x i).Shaped u

omit [Field K] [ExactArith K] in
theorem AlikeOver.between (h : AlikeOver r dy) : AlikeBetween [] r dy := by
  refine ⟨h.alike, fun i => ?_⟩
  obtain ⟨u, hu, hdy⟩ := (h.reals i).realFits
  exact ⟨u, Shape.fits_nil u, hu, hdy.shaped⟩

omit [Field K] [ExactArith K] in
/-- Derivatives of the full shape. -/
theorem AlikeOver.full (h : AlikeOver r dy) (hfull : ∀ i, (dy i).RealShaped r) :
    AlikeBetween r r dy :=
  ⟨h.alike, fun i => ⟨r, Shape.Fits.refl r, Shape.Fits.refl r, (hfull i).shaped⟩⟩

/-- **A derivative that meets an operand takes at least the operand's shape.** -/
theorem AlikeBetween.operate {op : Operator} (hx : AlikeBetween q r x) (hb : b.Shaped t)
    (ht : t.Fits r) (hy : ∀ i, Value.operate op (x i) b = .ok (y i)) :
    AlikeBetween q r y ∧ AlikeBetween t r y := by
  have halike := hx.alike.operate hb ht.broadcast?.2 hy
  have hshape : ∀ i, ∃ c : Shape, q.Fits c ∧ t.Fits c ∧ c.Fits r ∧ (y i).Shaped c := by
    intro i
    obtain ⟨u, hqu, hur, hu⟩ := hx.between i
    obtain ⟨c, hc, hyc⟩ := hu.operate hb (hy i)
    obtain ⟨huc, htc⟩ := Shape.fits_of_broadcast? hc
    exact ⟨c, hqu.trans huc, htc, Shape.broadcast?_fits hc hur ht, hyc⟩
  refine ⟨⟨halike, fun i => ?_⟩, halike, fun i => ?_⟩
  · obtain ⟨c, hqc, -, hcr, hc⟩ := hshape i
    exact ⟨c, hqc, hcr, hc⟩
  · obtain ⟨c, -, htc, hcr, hc⟩ := hshape i
    exact ⟨c, htc, hcr, hc⟩

theorem AlikeBetween.negate (hx : AlikeBetween q r x) (hy : ∀ i, (x i).negate = .ok (y i)) :
    AlikeBetween q r y := by
  refine ⟨hx.alike.negate hy, fun i => ?_⟩
  obtain ⟨u, hqu, hur, hu⟩ := hx.between i
  exact ⟨u, hqu, hur, hu.negate (hy i)⟩

omit [Field K] [ExactArith K] in
/-- Read as arrays, values stand for the same. -/
theorem AlikeBetween.ofContents {c : ι → Contents K} (hx : AlikeBetween q r x)
    (hc : ∀ i, (x i).contents = .ok (c i)) : AlikeBetween q r fun i => ofContents (c i) := by
  obtain ⟨⟨f, hf⟩, hbetween⟩ := hx
  refine ⟨⟨f, fun i => (hf i).ofContents (hc i)⟩, fun i => ?_⟩
  obtain ⟨u, hqu, hur, hu⟩ := hbetween i
  obtain ⟨t, ht, hts, -⟩ := (hu.realShaped (hf i).real).contents
  rw [Except.ok.inj ((hc i).symm.trans ht)]
  exact ⟨u, hqu, hur, hts ▸ shaped_array t⟩

/-- **A derivative that has taken enough of the common shape is reduced to the operand.** -/
theorem AlikeBetween.unbroadcast (hx : AlikeBetween q r x) (hs : Shape.broadcast? q s = some r)
    (hb : b.Shaped s) (hy : ∀ i, SlotGrad.unbroadcast (x i) b = .ok (y i)) : Alike s y := by
  refine hx.alike.unbroadcast (fun i => ?_) hb.shape hy
  obtain ⟨u, hqu, hur, hu⟩ := hx.between i
  exact ⟨u, hu, Shape.broadcast?_of_fits hs hqu hur⟩

omit [Field K] [ExactArith K] in
/-- A real value of a shape that is made of copies of one number. -/
theorem standsFor_copies {v : Value K} {g : Grid K} {z : K} (hreal : v.isFractional = true)
    (hg : v.figures? = some g) (hs : g.shape = s) (hz : g.map (fun _ => z) = g) :
    v.StandsFor s fun _ => z := by
  refine ⟨hreal, g, hg, hs ▸ Shape.Fits.refl s, fun i hi => ?_⟩
  rw [← hs] at hi
  rw [Grid.spread_of_mem hi, ← hz, Grid.at_map_of_mem hi]

omit [Field K] [ExactArith K] in
/-- A derivative that stands for copies of one number is made of copies of it, with or without
axes. -/
theorem StandsFor.exists_copies {v : Value K} {f : List Nat → K} {z : K} (hv : v.StandsFor r f)
    (hover : v.RealOver r) (hz : ∀ i ∈ r.indices, f i = z) (hne : r.indices ≠ []) :
    ∃ g, v.figures? = some g ∧ g.map (fun _ => z) = g := by
  obtain ⟨hreal, g, hg, -, hat⟩ := hv
  refine ⟨g, hg, Grid.ext_at rfl fun i hi => ?_⟩
  have hi : i ∈ g.shape.indices := hi
  rw [Grid.at_map_of_mem hi]
  rcases hover with h | h
  · have hgr := (shaped_of_figures? hg).eq_of_shape h.shaped.shape
    rw [← hz i (hgr ▸ hi), ← hat i (hgr ▸ hi), Grid.spread_of_mem hi]
  · obtain ⟨j, hj⟩ := List.exists_mem_of_ne_nil _ hne
    rw [← hz j hj, ← hat j hj,
      ← Grid.single_first ((shaped_of_figures? hg).eq_of_shape h.shaped.shape), Grid.spread_single,
      Grid.at_single]

omit [Field K] [ExactArith K] in
/-- What a single number stands for are copies of it. -/
theorem StandsFor.copies_ofFn {v : Value K} {f : List Nat → K} {z : K} (hv : v.StandsFor r f)
    (hz : v.figures? = some (.single z)) :
    (Grid.ofFn r f).map (fun _ => z) = Grid.ofFn r f := by
  obtain ⟨-, g, hg, -, hat⟩ := hv
  cases hz.symm.trans hg
  refine Grid.ext_at rfl fun i hi => ?_
  have hi : i ∈ r.indices := hi
  rw [Grid.at_map_of_mem hi, Grid.at_ofFn hi, ← hat i hi, Grid.spread_single]

end Value

/-- Copies of one number remain such under another shape. -/
theorem Grid.copies_reshape? {α : Type} {g h : Grid α} {s : Shape} {z : α}
    (hz : g.map (fun _ => z) = g) (hh : g.reshape? s = some h) : h.map (fun _ => z) = h := by
  have hmap := reshape?_map g (fun _ => z) s
  rw [hz, hh] at hmap
  exact (Option.some.inj hmap).symm

namespace Kernel

open Value

variable {a b x p y axis target labelValues : Value K} {dy out : ι → Value K} {q r s t : Shape}

/-! ### Two operands -/

/-- Answers for two operands that are alike for each of them. -/
def PairsAlike {F : Type} [Arith F] (s t : Shape) (out : ι → Value F) : Prop :=
  ∃ da db : ι → Value F, (∀ i, out i = .tuple [da i, db i]) ∧ Alike s da ∧ Alike t db

theorem plusAdjoint_alike (ha : a.Shaped s) (hb : b.Shaped t) (hdy : AlikeBetween q r dy)
    (hs : Shape.broadcast? q s = some r) (ht : Shape.broadcast? q t = some r)
    (hout : ∀ i, plusAdjoint a b (dy i) = .ok (out i)) : PairsAlike s t out := by
  choose da hda hout using fun i => bind_eq_ok.mp (hout i)
  choose db hdb hout using fun i => bind_eq_ok.mp (hout i)
  exact ⟨da, db, fun i => (pure_eq_ok.mp (hout i)).symm, hdy.unbroadcast hs ha hda,
    hdy.unbroadcast ht hb hdb⟩

theorem minusAdjoint_alike (ha : a.Shaped s) (hb : b.Shaped t) (hdy : AlikeBetween q r dy)
    (hs : Shape.broadcast? q s = some r) (ht : Shape.broadcast? q t = some r)
    (hout : ∀ i, minusAdjoint a b (dy i) = .ok (out i)) : PairsAlike s t out := by
  choose da hda hout using fun i => bind_eq_ok.mp (hout i)
  choose c hc hout using fun i => bind_eq_ok.mp (hout i)
  choose n hn hout using fun i => bind_eq_ok.mp (hout i)
  choose db hdb hout using fun i => bind_eq_ok.mp (hout i)
  exact ⟨da, db, fun i => (pure_eq_ok.mp (hout i)).symm, hdy.unbroadcast hs ha hda,
    ((hdy.ofContents hc).negate hn).unbroadcast ht hb hdb⟩

theorem timesAdjoint_alike (ha : a.Shaped s) (hb : b.Shaped t) (hdy : AlikeOver r dy)
    (hr : Shape.broadcast? s t = some r) (hout : ∀ i, timesAdjoint a b (dy i) = .ok (out i)) :
    PairsAlike s t out := by
  obtain ⟨hs, ht⟩ := Shape.fits_of_broadcast? hr
  choose m hm hout using fun i => bind_eq_ok.mp (hout i)
  choose da hda hout using fun i => bind_eq_ok.mp (hout i)
  choose n hn hout using fun i => bind_eq_ok.mp (hout i)
  choose db hdb hout using fun i => bind_eq_ok.mp (hout i)
  exact ⟨da, db, fun i => (pure_eq_ok.mp (hout i)).symm,
    (hdy.between.operate hb ht hm).2.unbroadcast (Shape.broadcast?_comm hr) ha hda,
    (hdy.between.operate ha hs hn).2.unbroadcast hr hb hdb⟩

variable [Nonempty ι]

theorem rdivideAdjoint_alike (ha : a.Shaped s) (hb : b.Shaped t) (hdy : AlikeOver r dy)
    (hr : Shape.broadcast? s t = some r) (hout : ∀ i, rdivideAdjoint a b (dy i) = .ok (out i)) :
    PairsAlike s t out := by
  obtain ⟨hs, ht⟩ := Shape.fits_of_broadcast? hr
  choose m hm hout using fun i => bind_eq_ok.mp (hout i)
  choose da hda hout using fun i => bind_eq_ok.mp (hout i)
  choose n hn hout using fun i => bind_eq_ok.mp (hout i)
  choose k hk hout using fun i => bind_eq_ok.mp (hout i)
  obtain ⟨d, hd, hout⟩ := exists_of_forall_bind hout
  choose z hz hout using fun i => bind_eq_ok.mp (hout i)
  choose db hdb hout using fun i => bind_eq_ok.mp (hout i)
  have hds : d.Shaped t :=
    (hb.operate_of_fits hb (show Value.operate .mul b b = .ok d from hd)).1 (Shape.Fits.refl t)
  have hscaled := ((hdy.between.negate hn).operate ha hs hk).2
  exact ⟨da, db, fun i => (pure_eq_ok.mp (hout i)).symm,
    (hdy.between.operate hb ht hm).2.unbroadcast (Shape.broadcast?_comm hr) ha hda,
    (hscaled.operate hds ht hz).1.unbroadcast hr hb hdb⟩

theorem powerAdjoint_alike (hx : x.Shaped s) (hp : p.Shaped t) (hdy : AlikeOver r dy)
    (hr : Shape.broadcast? s t = some r) (hout : ∀ i, powerAdjoint x p (dy i) = .ok (out i)) :
    PairsAlike s t out := by
  obtain ⟨hs, ht⟩ := Shape.fits_of_broadcast? hr
  obtain ⟨z, hz, hzs, -⟩ := exists_asDoubles hx fun _ _ => ExactArith.isFinite_eq _
  have hbase : (array z).Shaped s := hzs ▸ shaped_array z
  obtain ⟨x', hx', hout⟩ := exists_of_forall_bind hout
  obtain rfl : x' = array z := Except.ok.inj (hx'.symm.trans hz)
  choose m hm hout using fun i => bind_eq_ok.mp (hout i)
  obtain ⟨d, hd, hout⟩ := exists_of_forall_bind hout
  obtain ⟨e, he, hout⟩ := exists_of_forall_bind hout
  choose slope hslope hout using fun i => bind_eq_ok.mp (hout i)
  choose dx hdx hout using fun i => bind_eq_ok.mp (hout i)
  obtain ⟨w, hw, hout⟩ := exists_of_forall_bind hout
  choose n hn hout using fun i => bind_eq_ok.mp (hout i)
  obtain ⟨l, hl, hout⟩ := exists_of_forall_bind hout
  choose growth hgrowth hout using fun i => bind_eq_ok.mp (hout i)
  choose dp hdp hout using fun i => bind_eq_ok.mp (hout i)
  have hone : (integer 1 : Value K).Shaped [] := shaped_of_weak? rfl
  have hds : d.Shaped t :=
    (hp.operate_of_fits hone (show Value.operate .sub p (.integer 1) = .ok d from hd)).1
    (Shape.fits_nil t)
  have hpower : ∀ {e v : Value K}, e.Shaped t → (array z).power e = .ok v → v.Shaped r := by
    intro e v he hv
    obtain ⟨u, hu, hvu⟩ := hbase.power he hv
    cases hu.symm.trans hr
    exact hvu
  -- Each derivative meets a power, which has the shape of the output.
  have hslopes :=
    ((hdy.between.operate hp ht hm).1.operate (hpower hds he) (Shape.Fits.refl r) hslope).2
  have hgrowths := (hdy.between.operate (hpower hp hw) (Shape.Fits.refl r) hn).2
  exact ⟨dx, dp, fun i => (pure_eq_ok.mp (hout i)).symm,
    hslopes.unbroadcast hs.broadcast?.2 hbase hdx,
    (hgrowths.operate (hbase.mapReal hl).shaped hs hgrowth).1.unbroadcast ht.broadcast?.2 hp hdp⟩

/-! ### One operand -/

theorem squareAdjoint_alike (hx : x.Shaped s) (hdy : AlikeOver s dy)
    (hout : ∀ i, squareAdjoint x (dy i) = .ok (out i)) : Alike s out := by
  obtain ⟨d, hd, hout⟩ := exists_of_forall_bind hout
  have htwo : (integer 2 : Value K).Shaped [] := shaped_of_weak? rfl
  have hds : d.Shaped s :=
    (htwo.operate_of_fits hx (show Value.operate .mul (.integer 2) x = .ok d from hd)).2
    (Shape.fits_nil s)
  exact hdy.alike.operate_left hds (Shape.Fits.refl s).broadcast?.1 hout

theorem exponentialAdjoint_alike (hx : x.Shaped s) (hdy : AlikeOver s dy)
    (hout : ∀ i, exponentialAdjoint x (dy i) = .ok (out i)) : Alike s out := by
  obtain ⟨d, hd, hout⟩ := exists_of_forall_bind hout
  exact hdy.alike.operate_left (hx.mapReal hd).shaped (Shape.Fits.refl s).broadcast?.1 hout

omit [Nonempty ι] in
theorem logarithmAdjoint_alike (hx : x.Shaped s) (hdy : AlikeOver s dy)
    (hout : ∀ i, logarithmAdjoint x (dy i) = .ok (out i)) : Alike s out :=
  hdy.alike.operate hx (Shape.Fits.refl s).broadcast?.1 hout

theorem reluAdjoint_alike (hx : x.Shaped s) (hdy : AlikeOver s dy)
    (hout : ∀ i, reluAdjoint x (dy i) = .ok (out i)) : Alike s out := by
  obtain ⟨d, hd, hds, -⟩ := exists_isPositive hx
  obtain ⟨d', hd', hout⟩ := exists_of_forall_bind hout
  cases hd.symm.trans hd'
  exact hdy.alike.operate hds (Shape.Fits.refl s).broadcast?.1 hout

theorem sigmoidAdjoint_alike (hx : x.Shaped s) (hdy : AlikeOver s dy)
    (hout : ∀ i, sigmoidAdjoint x (dy i) = .ok (out i)) : Alike s out := by
  obtain ⟨y, hy, hout⟩ := exists_of_forall_bind hout
  choose m hm hout using fun i => bind_eq_ok.mp (hout i)
  obtain ⟨n, hn, hout⟩ := exists_of_forall_bind hout
  obtain ⟨hys, -⟩ := sigmoid_shaped hx hy
  have hone : (one : Value K).Shaped [] := (realShaped_real _).shaped
  have hns : n.Shaped s :=
    (hone.operate_of_fits hys (show Value.operate .sub one y = .ok n from hn)).2 (Shape.fits_nil s)
  have hsame := (Shape.Fits.refl s).broadcast?.1
  exact (hdy.alike.operate hys hsame hm).operate hns hsame hout

theorem hyperbolicTangentAdjoint_alike (hx : x.Shaped s) (hdy : AlikeOver s dy)
    (hout : ∀ i, hyperbolicTangentAdjoint x (dy i) = .ok (out i)) : Alike s out := by
  obtain ⟨y, hy, hout⟩ := exists_of_forall_bind hout
  obtain ⟨m, hm, hout⟩ := exists_of_forall_bind hout
  obtain ⟨n, hn, hout⟩ := exists_of_forall_bind hout
  have hys := (hx.mapReal hy).shaped
  have hms : m.Shaped s :=
    (hys.operate_of_fits hys (show Value.operate .mul y y = .ok m from hm)).1 (Shape.Fits.refl s)
  have hone : (one : Value K).Shaped [] := (realShaped_real _).shaped
  have hns : n.Shaped s :=
    (hone.operate_of_fits hms (show Value.operate .sub one m = .ok n from hn)).2 (Shape.fits_nil s)
  exact hdy.alike.operate hns (Shape.Fits.refl s).broadcast?.1 hout

/-! ### Reductions -/

omit [Field K] [ExactArith K] [Nonempty ι] in
/-- What is left is stretched back to what was reduced. -/
theorem expandReduced_alike {ks : List Nat} (hx : x.Shaped s) (haxis : axis.axes s.length = .ok ks)
    (hdy : AlikeOver (eraseAll ks s) dy) (hout : ∀ i, expandReduced (dy i) x axis = .ok (out i)) :
    Alike s out :=
  hdy.alike.expandReduced (fun i => (hdy.reals i).imp RealShaped.shaped RealShaped.shaped) hx.shape
    haxis hout

omit [Field K] [ExactArith K] [Nonempty ι] in
theorem sumAdjoint_alike (hx : x.Shaped s) (hy : Kernel.sum x axis = .ok y) (hr : y.shape = .ok r)
    (hdy : AlikeOver r dy) (hout : ∀ i, sumAdjoint x (dy i) axis = .ok (out i)) : Alike s out := by
  obtain ⟨ks, hks, hys⟩ := total_shaped hx hy
  obtain rfl := hys.eq_of_shape hr
  exact expandReduced_alike hx hks hdy hout

theorem meanAdjoint_alike (hx : x.Shaped s) (hy : mean x axis = .ok y) (hr : y.shape = .ok r)
    (hdy : AlikeOver r dy) (hout : ∀ i, meanAdjoint x (dy i) axis = .ok (out i)) : Alike s out := by
  obtain ⟨ks, hks, hys⟩ := average_shaped hx hy
  obtain rfl := hys.eq_of_shape hr
  obtain ⟨v, -, hout⟩ := exists_of_forall_bind hout
  obtain ⟨m, -, hout⟩ := exists_of_forall_bind hout
  obtain ⟨n, -, hout⟩ := exists_of_forall_bind hout
  choose d hd hout using fun i => bind_eq_ok.mp (hout i)
  have hcount : (integer ((m / max n 1 : Nat) : Int) : Value K).Shaped [] := shaped_of_weak? rfl
  exact (expandReduced_alike hx hks hdy hd).operate hcount (Shape.fits_nil s).broadcast?.2 hout

/-! ### Losses -/

theorem l2lossAdjoint_alike (hx : x.Shaped s) (ht : target.Shaped s) (hdy : AlikeOver [] dy)
    (hout : ∀ i, l2lossAdjoint x target (dy i) = .ok (out i)) : PairsAlike s s out := by
  obtain ⟨diff, hdiff, hout⟩ := exists_of_forall_bind hout
  choose dx hdx hout using fun i => bind_eq_ok.mp (hout i)
  choose n hn hout using fun i => bind_eq_ok.mp (hout i)
  choose dt hdt hout using fun i => bind_eq_ok.mp (hout i)
  have hdiffs : diff.Shaped s :=
    (hx.operate_of_fits ht (show Value.operate .sub x target = .ok diff from hdiff)).1
    (Shape.Fits.refl s)
  have hstretched := (Shape.fits_nil s).broadcast?.1
  exact ⟨dx, dt, fun i => (pure_eq_ok.mp (hout i)).symm, hdy.alike.operate hdiffs hstretched hdx,
    (hdy.alike.negate hn).operate hdiffs hstretched hdt⟩

theorem softmaxlossAdjoint_alike (hx : x.Shaped s) (hy : softmaxloss x labelValues = .ok y)
    (hdy : AlikeOver [] dy) (hout : ∀ i, softmaxlossAdjoint x labelValues (dy i) = .ok (out i)) :
    ∃ dx : ι → Value K, (∀ i, out i = .tuple [dx i, .none]) ∧ Alike s dx := by
  obtain ⟨hs, -, ⟨scores, e, total, hscores, he, htotal, hes, htotals, -⟩, -⟩ :=
    softmaxloss_shaped hx hy
  -- Everything up to the last product is calculated from scores and labels.
  obtain ⟨scores', hscores', hout⟩ := exists_of_forall_bind hout
  cases hscores.symm.trans hscores'
  obtain ⟨e', he', hout⟩ := exists_of_forall_bind hout
  cases he.symm.trans he'
  obtain ⟨total', htotal', hout⟩ := exists_of_forall_bind hout
  cases htotal.symm.trans htotal'
  obtain ⟨probs, hprobs, hout⟩ := exists_of_forall_bind hout
  obtain ⟨picks, -, hout⟩ := exists_of_forall_bind hout
  obtain ⟨c, hc, hout⟩ := exists_of_forall_bind hout
  have hprobss : probs.Shaped s := (hes.shaped.operate_of_fits htotals
    (show Value.operate .div e total = .ok probs from hprobs)).1 (Shape.setAll_one_fits _ s)
  obtain ⟨t, ht, rfl⟩ := hprobss.contents.resolve_right fun h => hs h.2.1
  cases ht.symm.trans hc
  obtain ⟨sel, -, hout⟩ := exists_of_forall_bind hout
  obtain ⟨w, -, hout⟩ := exists_of_forall_bind hout
  choose dx hdx hout using fun i => bind_eq_ok.mp (hout i)
  refine ⟨dx, fun i => (pure_eq_ok.mp (hout i)).symm, ?_⟩
  have hshape : (t.assignAt sel w).grid.shape = t.grid.shape := shape_foldl_update ..
  exact hdy.alike.operate (hshape ▸ shaped_array (t.assignAt sel w))
    (Shape.fits_nil _).broadcast?.1 hdx

/-! ### Products of matrices -/

/-- Products of matrices are calculated with the numbers that values stand for. -/
theorem mtimes_figures {g h : Grid K} {v : Value K}
    (hreal : a.isFractional = true ∨ b.isFractional = true) (ha : a.Shaped s) (hb : b.Shaped t)
    (hs : 2 ≤ s.length) (ht : 2 ≤ t.length) (hg : a.figures? = some g) (hh : b.figures? = some h)
    (hv : mtimes a b = .ok v) :
    ∃ w, Grid.matrixProduct? Arith.mul Arith.add (Arith.ofInt 0) g h = some w ∧
      v.figures? = some w ∧
      v.isFractional = true := by
  obtain ⟨sa, m, k, rfl⟩ := Shape.exists_eq_append_pair hs
  obtain ⟨sb, k', n, rfl⟩ := Shape.exists_eq_append_pair ht
  obtain ⟨p, hp, hps⟩ := contents_of_rank ha
  obtain ⟨q, hq, hqs⟩ := contents_of_rank hb
  have hdtype := isReal_common_of_contents ha hb hp hq hreal
  rw [mtimes_numbers hp hq (rank_append_pair hps) (rank_append_pair hqs)] at hv
  obtain ⟨c, hc, hv⟩ := bind_eq_ok.mp hv
  have hproduct := Tensor.toReals_matrixProduct? hdtype (ofOption_eq_ok.mp hc)
  rw [toReals_of_contents hg hp, toReals_of_contents hh hq] at hproduct
  rw [← pure_eq_ok.mp hv]
  exact ⟨_, hproduct, figures?_reduced_real hdtype⟩

/-- Products of matrices that are the same numbers stand for one array. -/
theorem mtimes_alike {v w z : ι → Value K} {sa sb batch : Shape} {m k n : Nat} {g h : Grid K}
    (hv : ∀ i, (v i).Shaped (sa ++ [m, k])) (hw : ∀ i, (w i).Shaped (sb ++ [k, n]))
    (hbatch : Shape.broadcast? sa sb = some batch) (hg : ∀ i, (v i).figures? = some g)
    (hh : ∀ i, (w i).figures? = some h)
    (hreal : ∀ i, (v i).isFractional = true ∨ (w i).isFractional = true)
    (hz : ∀ i, mtimes (v i) (w i) = .ok (z i)) :
    AlikeBetween (batch ++ [m, n]) (batch ++ [m, n]) z := by
  have haxes : ∀ (u : Shape) (i j : Nat), 2 ≤ (u ++ [i, j]).length := fun u i j => by
    rw [List.length_append]
    exact Nat.le_add_left ..
  have hshape : ∀ i, (z i).Shaped (batch ++ [m, n]) := by
    intro i
    obtain ⟨sa', sb', batch', m', k', n', hsa, hsb, hbatch', hzs⟩ :=
      mtimes_shaped (hv i) (hw i) (haxes ..) (haxes ..) (hz i)
    obtain ⟨rfl, rfl, rfl⟩ := append_pair_inj hsa
    obtain ⟨rfl, -, rfl⟩ := append_pair_inj hsb
    cases hbatch.symm.trans hbatch'
    exact hzs
  have hproduct := fun i =>
    mtimes_figures (hreal i) (hv i) (hw i) (haxes ..) (haxes ..) (hg i) (hh i) (hz i)
  obtain ⟨i₀⟩ := ‹Nonempty ι›
  obtain ⟨p, hp, -⟩ := hproduct i₀
  refine ⟨⟨p.at, fun i => ?_⟩, fun i => ⟨_, Shape.Fits.refl _, Shape.Fits.refl _, hshape i⟩⟩
  obtain ⟨p', hp', hzp, hzreal⟩ := hproduct i
  cases hp.symm.trans hp'
  exact standsFor_of_figures hzreal hzp ((shaped_of_figures? hzp).eq_of_shape (hshape i).shape)

/-- A product of matrices takes derivatives of its full shape, which are the same numbers. -/
theorem mtimesAdjoint_alike (ha : a.Shaped s) (hb : b.Shaped t) (hs : 2 ≤ s.length)
    (ht : 2 ≤ t.length) (hy : mtimes a b = .ok y) (hr : y.shape = .ok r) (hdy : AlikeOver r dy)
    (hfull : ∀ i, (dy i).RealShaped r) (hout : ∀ i, mtimesAdjoint a b (dy i) = .ok (out i)) :
    PairsAlike s t out := by
  obtain ⟨sa, sb, batch, m, k, n, rfl, rfl, hbatch, hys⟩ := mtimes_shaped ha hb hs ht hy
  obtain rfl := hys.eq_of_shape hr
  obtain ⟨hsa, hsb⟩ := Shape.fits_of_broadcast? hbatch
  have hfits : ∀ {u : Shape} {i j : Nat}, u.Fits batch →
      Shape.Fits (u ++ [i, j]) (batch ++ [i, j]) :=
    fun hu => hu.append (List.forall₂_same.mpr fun _ _ => .inl rfl)
  obtain ⟨f, hf⟩ := hdy.alike
  have hshape := fun i => (hfull i).shaped
  have hfigures := fun i => (hf i).figures_eq (hshape i)
  obtain ⟨b', hb', hbs⟩ := exists_transpose hb
  obtain ⟨a', ha', has⟩ := exists_transpose ha
  obtain ⟨h, hh, -⟩ := hbs.exists_figures
  obtain ⟨g, hg, -⟩ := has.exists_figures
  obtain ⟨b'', hb'', hout⟩ := exists_of_forall_bind hout
  cases hb'.symm.trans hb''
  choose v hv hout using fun i => bind_eq_ok.mp (hout i)
  obtain ⟨a'', ha'', hout⟩ := exists_of_forall_bind hout
  cases ha'.symm.trans ha''
  choose w hw hout using fun i => bind_eq_ok.mp (hout i)
  choose da hda hout using fun i => bind_eq_ok.mp (hout i)
  choose db hdb hout using fun i => bind_eq_ok.mp (hout i)
  have hleft := mtimes_alike hshape (fun _ => hbs) hsb.broadcast?.2 hfigures (fun _ => hh)
    (fun i => .inl (hfull i).isFractional) hv
  have hright := mtimes_alike (fun _ => has) hshape hsa.broadcast?.1 (fun _ => hg) hfigures
    (fun i => .inr (hfull i).isFractional) hw
  exact ⟨da, db, fun i => (pure_eq_ok.mp (hout i)).symm,
    hleft.unbroadcast (hfits hsa).broadcast?.2 ha hda,
    hright.unbroadcast (hfits hsb).broadcast?.2 hb hdb⟩

/-! ### Changes of shape -/

omit [Field K] [ExactArith K] [Nonempty ι] in
/-- A value under another shape has the same numbers in their order. -/
theorem reshapeTo_figures {v w : Value K} {g : Grid K} (hreal : v.isFractional = true)
    (hg : v.figures? = some g) (hw : reshapeTo v (s.map Int.ofNat) = .ok w) :
    ∃ h, g.reshape? s = some h ∧ w.figures? = some h ∧ w.isFractional = true := by
  obtain ⟨t, ht, rfl⟩ := contents_of_isFractional hreal hg
  obtain ⟨t', ht', -, hdtype⟩ := ((shaped_of_figures? hg).realShaped hreal).contents
  cases ht.symm.trans ht'
  unfold reshapeTo at hw
  rw [ht, ok_bind, closeShape_ofNat, ok_bind] at hw
  obtain ⟨e, he, hw⟩ := bind_eq_ok.mp hw
  obtain ⟨q, hq, he⟩ := bind_eq_ok.mp he
  cases pure_eq_ok.mp he
  refine ⟨Tensor.toReals ⟨t.dtype, q⟩, ?_, ?_⟩
  · exact (Grid.reshape?_map ..).trans (congrArg (Option.map _) (ofOption_eq_ok.mp hq))
  · rw [← pure_eq_ok.mp hw]
    split_ifs
    · exact figures?_reduced_real (t := ⟨t.dtype, q⟩) hdtype
    · exact ⟨rfl, hdtype⟩

omit [Field K] [ExactArith K] in
/-- A change of shape takes derivatives of its full shape, and a number in the place of one
member. -/
theorem reshapeAdjoint_alike {shape : Value K} (hx : x.Shaped s) (hy : reshape x shape = .ok y)
    (hr : y.shape = .ok r) (hdy : AlikeOver r dy)
    (hfull : (∀ i, (dy i).RealShaped r) ∨ s.size = 1)
    (hout : ∀ i, reshapeAdjoint x shape (dy i) = .ok (out i)) : Alike s out := by
  obtain ⟨r', hr', hsize⟩ := size_reshape hx hy
  cases hr.symm.trans hr'
  obtain ⟨f, hf⟩ := hdy.alike
  have hout : ∀ i, reshapeTo (dy i) (s.map Int.ofNat) = .ok (out i) := fun i => by
    have h := hout i
    unfold reshapeAdjoint at h
    rwa [hx.shape, ok_bind] at h
  rcases hfull with hfull | hone
  · have hmoved := fun i => reshapeTo_figures (hf i).real
      ((hf i).figures_eq (hfull i).shaped) (hout i)
    obtain ⟨i₀⟩ := ‹Nonempty ι›
    obtain ⟨h, hh, -⟩ := hmoved i₀
    refine ⟨h.at, fun i => ?_⟩
    obtain ⟨h', hh', hg, hreal⟩ := hmoved i
    cases hh.symm.trans hh'
    exact standsFor_of_figures hreal hg (Grid.shape_reshape? hh)
  · -- There is one number, with or without axes.
    obtain ⟨j, hj⟩ := List.length_eq_one_iff.mp
      ((Shape.length_indices r).trans (hsize.symm.trans hone))
    refine ⟨fun _ => f j, fun i => ?_⟩
    obtain ⟨g, hg, hconst⟩ := (hf i).exists_copies (hdy.reals i) (z := f j) (by simp [hj])
      (by simp [hj])
    obtain ⟨h, hh, hw, hreal⟩ := reshapeTo_figures (hf i).real hg (hout i)
    exact standsFor_copies hreal hw (Grid.shape_reshape? hh) (Grid.copies_reshape? hconst hh)

/-! ### Joins -/

omit [Field K] [ExactArith K] [Nonempty ι] in
/-- A function goes along the parts of what has the shape of joined contents. -/
theorem map_cut_join {k : Nat} {cs : List (Contents K)} {c : Contents K}
    (h : Contents.join k cs = .ok c) {α β : Type} [Inhabited α] [Inhabited β] {d : Grid α}
    (hd : d.shape = c.shape) (f : α → β) :
    (d.cut k (cuttingPoints (cs.map fun e => e.shape.getD k 0))).map (Grid.map f)
      = (d.map f).cut k (cuttingPoints (cs.map fun e => e.shape.getD k 0)) := by
  obtain ⟨γ, _, gs, u, hu, hus, hshapes⟩ := join_eq_ok h
  obtain ⟨cross, hne, hk, -, hcross, -⟩ := Grid.join?_eq_some hu
  have hds : d.shape = cross.insertIdx k (Grid.extentSum k gs) := (hd.trans hus.symm).trans hcross
  have hextent : d.shape.getD k 0 = Grid.extentSum k gs := by
    have := List.length_insertIdx_of_le_length hk (Grid.extentSum k gs)
    rw [hds, List.getD_eq_getElem _ _ (by omega), List.getElem_insertIdx_self]
  have hextents : (gs.map fun g => g.shape.getD k 0) = cs.map fun e => e.shape.getD k 0 := by
    have := congrArg (List.map fun s : Shape => s.getD k 0) hshapes
    rwa [List.map_map, List.map_map] at this
  rw [← hextents, Grid.cut_cuttingPoints hne hextent,
    Grid.cut_cuttingPoints hne (by rw [Grid.shape_map, hextent])]
  exact Grid.map_partsOf hk hds (by omega)

omit [Field K] [ExactArith K] [Nonempty ι] in
/-- The parts of copies of one number are copies of it. -/
theorem copies_of_cut {k q : Nat} {cs : List (Contents K)} {c : Contents K}
    (h : Contents.join k cs = .ok c) {f : List Nat → K} {z : K} {p : Grid K}
    (hz : (Grid.ofFn c.shape f).map (fun _ => z) = Grid.ofFn c.shape f)
    (hp : ((Grid.ofFn c.shape f).cut k (cuttingPoints (cs.map fun e => e.shape.getD k 0)))[q]?
      = some p) :
    p.map (fun _ => z) = p := by
  have hcut := congrArg (fun ps => ps[q]?)
    (map_cut_join h (d := Grid.ofFn c.shape f) rfl fun _ => z)
  rw [hz, List.getElem?_map, hp] at hcut
  exact Option.some.inj hcut

omit [Field K] [ExactArith K] [Nonempty ι] in
/-- The part at a place, under the shape of the value there. -/
theorem reshapeParts_numbers {d : Dtype} {ps : List (Grid (Elem K d))} {xs outs : List (Value K)}
    (h : reshapeParts (ps.map fun p => .numbers ⟨d, p⟩) xs = .ok outs) {q : Nat}
    {p : Grid (Elem K d)} (hp : ps[q]? = some p) (hx : xs[q]? = some x) (hs : x.shape = .ok s) :
    ∃ g, p.reshape? s = some g ∧ outs[q]? = some (.array ⟨d, g⟩) := by
  have hpair : ((ps.map fun p => Contents.numbers ⟨d, p⟩).zip xs)[q]?
      = some (.numbers ⟨d, p⟩, x) := by
    rw [List.getElem?_zip_eq_some, List.getElem?_map, hp]
    exact ⟨rfl, hx⟩
  obtain ⟨v, hv, hpart⟩ := exists_getElem?_of_forall₂ (mapM_eq_ok.mp h) hpair
  dsimp only at hpart
  rw [hs, ok_bind] at hpart
  obtain ⟨e, he, hpart⟩ := bind_eq_ok.mp hpart
  obtain ⟨g, hg, he⟩ := bind_eq_ok.mp he
  cases pure_eq_ok.mp he
  refine ⟨g, ofOption_eq_ok.mp hg, ?_⟩
  rw [hv, ← pure_eq_ok.mp hpart]
  rfl

omit [Nonempty ι] in
/-- **Derivatives that stand for one array are shared out alike**, with or without axes. -/
theorem shareOut_alike {f : Contents K → Contents K} (hf : ∀ c, (f c).shape.size = c.shape.size)
    {k : Nat} {xs : List (Value K)} {cs : List (Contents K)} {c : Contents K}
    (hread : List.Forall₂ (fun x c => x.contents = .ok c) xs cs)
    (hc : Contents.join k (cs.map f) = .ok c) (hdy : AlikeOver c.shape dy)
    {outs : ι → List (Value K)}
    (houts : ∀ i, shareOut k (cuttingPoints ((cs.map f).map fun e => e.shape.getD k 0)) xs (dy i)
      = .ok (outs i)) {q : Nat} (hx : xs[q]? = some x) (hs : x.shape = .ok s) :
    ∃ d : ι → Value K, (∀ i, (outs i)[q]? = some (d i)) ∧ Alike s d := by
  obtain ⟨a, ha⟩ := hdy.alike
  obtain ⟨hk, -, -, hparts⟩ := shapes_cut_join hc (d := Grid.ofFn c.shape a) rfl
  set points := cuttingPoints ((cs.map f).map fun e => e.shape.getD k 0) with hpoints
  -- The part of the array at the place, under the shape of the value.
  obtain ⟨p, hp, h, hh⟩ : ∃ p, ((Grid.ofFn c.shape a).cut k points)[q]? = some p ∧
      ∃ h, p.reshape? s = some h := by
    obtain ⟨p, hp, s', hs', hsize⟩ :=
      exists_getElem?_of_forall₂ (sizes_of_parts hf hparts hread).flip hx
    cases hs.symm.trans hs'
    exact ⟨p, hp, _, dif_pos hsize⟩
  have hall : ∀ i, ∃ d, (outs i)[q]? = some d ∧ d.StandsFor s h.at := by
    intro i
    have hout := houts i
    unfold shareOut at hout
    rcases hdy.reals i with hdyi | hdyi
    · -- The parts are those of the array, in the derivative's precision.
      obtain ⟨w, hw, hws, hreal⟩ := hdyi.contents
      have hnumbers : w.grid.map (Elem.toReal w.dtype) = Grid.ofFn c.shape a :=
        toReals_of_contents ((ha i).figures_eq hdyi.shaped) hw
      rw [hw, ok_bind, if_neg (shape_ne_nil hws hk), cut_numbers] at hout
      have hcut := map_cut_join hc hws (Elem.toReal w.dtype)
      rw [hnumbers, ← hpoints] at hcut
      rw [← hcut, List.getElem?_map] at hp
      obtain ⟨p', hp', rfl⟩ := Option.map_eq_some_iff.mp hp
      obtain ⟨g, hg, hd⟩ := reshapeParts_numbers hout hp' hx hs
      rw [Grid.reshape?_map, hg] at hh
      cases hh
      have hgs : (Tensor.toReals ⟨w.dtype, g⟩).shape = s :=
        (Grid.shape_map ..).trans (Grid.shape_reshape? hg)
      exact ⟨_, hd, standsFor_of_figures hreal rfl hgs⟩
    · obtain ⟨w, hw, hws, -⟩ := hdyi.contents
      rw [hw, ok_bind, if_pos (show (Contents.numbers w).shape = [] from hws)] at hout
      obtain ⟨d, hd, hdx⟩ := exists_getElem?_of_forall₂ (mapM_eq_ok.mp hout) hx
      -- The array is made of copies of the number, and so are its parts.
      obtain ⟨z, hz, hstands⟩ := hdyi.exists_standsFor s
      have hsame := Grid.copies_reshape? (copies_of_cut hc ((ha i).copies_ofFn hz) hp) hh
      refine ⟨d, hd, (hstands.unbroadcast_stretched hdyi.shaped (Shape.fits_nil s) hs hdx).congr
        fun j hj => ?_⟩
      rw [← Grid.shape_reshape? hh] at hj
      rw [← hsame, Grid.at_map_of_mem hj]
  choose d hd halike using hall
  exact ⟨d, hd, h.at, halike⟩

omit [Nonempty ι] in
theorem catAdjoint_alike {xs : List (Value K)} (haxis : axis.isNone = false)
    (hy : cat axis xs = .ok y) (hr : y.shape = .ok r) (hdy : AlikeOver r dy)
    (hout : ∀ i, catAdjoint axis (xs ++ [dy i]) = .ok (out i)) :
    ∃ outs : ι → List (Value K), (∀ i, out i = .tuple (.none :: outs i)) ∧
      ∀ (q : Nat) (x : Value K) (s : Shape), xs[q]? = some x → x.shape = .ok s →
        ∃ d : ι → Value K, (∀ i, (outs i)[q]? = some (d i)) ∧ Alike s d := by
  obtain ⟨k, cs, c, hread, hc, rfl, hadjoint⟩ := catAdjoint_eq_shareOut haxis hy hr
  choose outs houts hout using fun i =>
    bind_eq_ok.mp ((hadjoint _ (hdy.reals i)).symm.trans (hout i))
  exact ⟨outs, fun i => (pure_eq_ok.mp (hout i)).symm, fun q x s hx hs =>
    shareOut_alike size_atLeastVector hread hc hdy houts hx hs⟩

omit [Nonempty ι] in
theorem rootsAdjoint_alike {xs : List (Value K)} (hy : roots xs = .ok y) (hr : y.shape = .ok r)
    (hdy : AlikeOver r dy) (hout : ∀ i, rootsAdjoint (xs ++ [dy i]) = .ok (out i)) :
    ∃ outs : ι → List (Value K), (∀ i, out i = .tuple (outs i)) ∧
      ∀ (q : Nat) (x : Value K) (s : Shape), xs[q]? = some x → x.shape = .ok s →
        ∃ d : ι → Value K, (∀ i, (outs i)[q]? = some (d i)) ∧ Alike s d := by
  obtain ⟨cs, c, hread, hc, rfl, hadjoint⟩ := rootsAdjoint_eq_shareOut hy hr
  choose outs houts hout using fun i =>
    bind_eq_ok.mp ((hadjoint _ (hdy.reals i)).symm.trans (hout i))
  exact ⟨outs, fun i => (pure_eq_ok.mp (hout i)).symm, fun q x s hx hs =>
    shareOut_alike size_flatten hread hc hdy houts hx hs⟩

end Kernel

/-! ### Calls -/

namespace Builtin

open Value

variable {b : Builtin} {a : Arguments K} {x x' y : Value K} {xs : List (Value K)}
    {dy out : ι → Value K}
  {r s t : Shape}

/-- When a number as the derivative of an output will do in the place of an array of its copies.
A sum or difference must not have stretched an operand, and only a single member can be put
under another shape. -/
def TakesNumber {F : Type} [Arith F] (b : Builtin) (xs : List (Value F)) (y : Value F) : Prop :=
  match b, xs with
  | plus, xs | minus, xs => ∀ x ∈ xs, x.shape = y.shape
  | mtimes, _ => False
  | reshape, x :: _ => x.size = .ok 1
  | _, _ => True

/-- The answers of an adjoint that are alike for every argument that it feeds. -/
def AnswersAlike {F : Type} [Arith F] (b : Builtin) (xs : List (Value F)) (out : ι → Value F) :
    Prop :=
  ∀ q x s, xs[q]? = some x → x.shape = .ok s → b.feeds q = true →
    ∃ d : ι → Value F, (∀ i, (resultsOf (out i))[q]? = some (d i)) ∧ Alike s d

omit [Field K] [ExactArith K] in
theorem AnswersAlike.pair (h : Kernel.PairsAlike s t out) (hx : x.shape = .ok s)
    (hx' : x'.shape = .ok t) : b.AnswersAlike [x, x'] out := by
  obtain ⟨da, db, hout, hda, hdb⟩ := h
  intro q v u hq hu _
  match q with
  | 0 =>
    cases hq
    cases hx.symm.trans hu
    exact ⟨da, fun i => by rw [hout i]; rfl, hda⟩
  | 1 =>
    cases hq
    cases hx'.symm.trans hu
    exact ⟨db, fun i => by rw [hout i]; rfl, hdb⟩
  | _ + 2 => cases hq

omit [Field K] [ExactArith K] in
theorem AnswersAlike.single (h : Alike s out) (hx : x.shape = .ok s) {rest : List (Value K)}
    (hrest : ∀ q, q < rest.length → b.feeds (q + 1) = false) : b.AnswersAlike (x :: rest) out := by
  intro q v u hq hu hfeeds
  cases q with
  | zero =>
    cases hq
    cases hx.symm.trans hu
    refine ⟨out, fun i => ?_, h⟩
    obtain ⟨f, hf⟩ := h
    obtain ⟨g, hg, -⟩ := (hf i).reads
    rw [resultsOf_of_shaped (shaped_of_figures? hg)]
    rfl
  | succ q =>
    rw [hrest q (Nat.lt_of_succ_lt_succ (List.getElem?_eq_some_iff.mp hq).1)] at hfeeds
    cases hfeeds

/-- Sums and differences of operands that were not stretched, or with derivatives of the full
shape. -/
theorem summed_alike (hb : b = plus ∨ b = minus) (hs : x.Shaped s) (ht : x'.Shaped t)
    (hy : b.forwardCall ⟨[x, x'], []⟩ = .ok y) (hr : y.shape = .ok r) (hdy : AlikeOver r dy)
    (hfull : (∀ i, (dy i).RealShaped r) ∨ ∀ v ∈ [x, x'], v.shape = y.shape)
    (hout : ∀ i, b.adjointCall ⟨[x, x', dy i], []⟩ = .ok (out i)) : b.AnswersAlike [x, x'] out := by
  have hfits : s.Fits r ∧ t.Fits r := by
    obtain ⟨op, hop⟩ : ∃ op, Value.operate op x x' = .ok y := by
      rcases hb with rfl | rfl
      · exact ⟨.add, hy⟩
      · exact ⟨.sub, hy⟩
    obtain ⟨hsr, htr, -⟩ := hs.fits_of_operate ht hop hr
    exact ⟨hsr, htr⟩
  obtain ⟨q, hbetween, hqs, hqt⟩ : ∃ q, AlikeBetween q r dy ∧ Shape.broadcast? q s = some r ∧
      Shape.broadcast? q t = some r := by
    rcases hfull with hfull | hsame
    · exact ⟨r, hdy.full hfull, hfits.1.broadcast?.2, hfits.2.broadcast?.2⟩
    · obtain rfl : s = r := hs.eq_of_shape ((hsame x (.head _)).trans hr)
      obtain rfl : t = s := ht.eq_of_shape ((hsame x' (.tail _ (.head _))).trans hr)
      exact ⟨[], hdy.between, (Shape.fits_nil t).broadcast?.1, (Shape.fits_nil t).broadcast?.1⟩
  rcases hb with rfl | rfl
  · exact .pair (Kernel.plusAdjoint_alike hs ht hbetween hqs hqt hout) hs.shape ht.shape
  · exact .pair (Kernel.minusAdjoint_alike hs ht hbetween hqs hqt hout) hs.shape ht.shape

variable [Nonempty ι]

/-- Functions of the members of one operand. -/
theorem pointwise_alike (hb : b.isPointwise = true) (hs : x.Shaped s) (hdy : AlikeOver s dy)
    (hout : ∀ i, b.adjointCall ⟨[x, dy i], []⟩ = .ok (out i)) : Alike s out := by
  cases b with
  | square => exact Kernel.squareAdjoint_alike hs hdy hout
  | exp => exact Kernel.exponentialAdjoint_alike hs hdy hout
  | log => exact Kernel.logarithmAdjoint_alike hs hdy hout
  | relu => exact Kernel.reluAdjoint_alike hs hdy hout
  | sigmoid => exact Kernel.sigmoidAdjoint_alike hs hdy hout
  | tanh => exact Kernel.hyperbolicTangentAdjoint_alike hs hdy hout
  | deal =>
    obtain rfl : dy = out := funext fun i => Except.ok.inj (hout i)
    exact hdy.alike
  | _ => cases hb

omit [Field K] [Arith K] [ExactArith K] [Nonempty ι] in
/-- An adjoint that takes its axis by name only. -/
theorem reduction_out [Arith K] {kw : List (String × Value K)} (hnamed : ∀ p ∈ kw, p.1 = "axis")
    {f : Value K → Value K → Value K → Fallible (Value K)}
    (hcall : ∀ a : Arguments K, b.adjointCall a = (a.takeNamed "axis").1.call2 "x" "dy" fun x dy =>
      f x dy (a.takeNamed "axis").2)
    (hout : ∀ i, b.adjointCall ⟨[x, dy i], kw⟩ = .ok (out i)) (i : ι) :
    f x (dy i) ((kw.lookup "axis").getD .none) = .ok (out i) := by
  have h := hout i
  rw [hcall, Arguments.takeNamed_axis hnamed] at h
  exact h

/-- **Adjoints cannot tell derivatives apart that stand for one array.**  Take a built-in op
other than indexing and arguments on which it answers, and derivatives of the output that stand
for one array, all of its shape or where a number will do.  What the adjoint answers from them
for an argument stands for one array again. -/
theorem adjointCall_alike (hslice : b ≠ slice) (hnamed : ∀ p ∈ a.named, p.1 = "axis")
    (hy : b.forwardCall a = .ok y) (hr : y.shape = .ok r) (hdy : AlikeOver r dy)
    (hfull : (∀ i, (dy i).RealShaped r) ∨ b.TakesNumber a.positional y)
    (hoperands : ∀ x ∈ b.operands a.positional, ∃ s, x.Shaped s)
    (hadmits : b.Admits a.positional Store.zero)
    (hout : ∀ i, b.adjointCall ⟨a.positional ++ [dy i], a.named⟩ = .ok (out i)) :
    b.AnswersAlike a.positional out := by
  obtain ⟨xs, kw⟩ := a
  cases b with
  | slice => exact absurd rfl hslice
  -- The derivative is handed on as it is, so where a number does, the operand must not be
  -- summed.
  | plus | minus =>
    obtain ⟨x, x', hpos, -⟩ := Arguments.call2_positional hy hnamed (by decide)
    cases hpos
    obtain ⟨s, hs⟩ := hoperands x (.head _)
    obtain ⟨t, ht⟩ := hoperands x' (.tail _ (.head _))
    exact summed_alike (by simp) hs ht hy hr hdy hfull hout
  | times =>
    obtain ⟨x, x', hpos, hf⟩ := Arguments.call2_positional hy hnamed (by decide)
    cases hpos
    obtain ⟨s, hs⟩ := hoperands x (.head _)
    obtain ⟨t, ht⟩ := hoperands x' (.tail _ (.head _))
    exact .pair (Kernel.timesAdjoint_alike hs ht hdy (hs.fits_of_operate ht hf hr).2.2 hout)
      hs.shape ht.shape
  | rdivide =>
    obtain ⟨x, x', hpos, hf⟩ := Arguments.call2_positional hy hnamed (by decide)
    cases hpos
    obtain ⟨s, hs⟩ := hoperands x (.head _)
    obtain ⟨t, ht⟩ := hoperands x' (.tail _ (.head _))
    exact .pair (Kernel.rdivideAdjoint_alike hs ht hdy (hs.fits_of_operate ht hf hr).2.2 hout)
      hs.shape ht.shape
  | power =>
    obtain ⟨x, p, hpos, hf⟩ := Arguments.call2_positional hy hnamed (by decide)
    cases hpos
    obtain ⟨s, hs⟩ := hoperands x (.head _)
    obtain ⟨t, ht⟩ := hoperands p (.tail _ (.head _))
    obtain ⟨u, hu, hys⟩ := hs.power ht hf
    obtain rfl := hys.eq_of_shape hr
    exact .pair (Kernel.powerAdjoint_alike hs ht hdy hu hout) hs.shape ht.shape
  -- A product of matrices has no use for a number: it needs derivatives of the full shape.
  | mtimes =>
    obtain ⟨x, x', hpos, hf⟩ := Arguments.call2_positional hy hnamed (by decide)
    cases hpos
    obtain ⟨s, hs⟩ := hoperands x (.head _)
    obtain ⟨t, ht⟩ := hoperands x' (.tail _ (.head _))
    exact .pair (Kernel.mtimesAdjoint_alike hs ht (hadmits x (.head _) s hs.shape)
      (hadmits x' (.tail _ (.head _)) t ht.shape) hf hr hdy (hfull.resolve_right id) hout)
        hs.shape ht.shape
  | square | exp | log | relu | sigmoid | tanh | deal =>
    obtain ⟨x, hpos, -⟩ := Arguments.call1_positional hy hnamed (by decide)
    cases hpos
    obtain ⟨s, hs⟩ := hoperands x (.head _)
    obtain rfl := (pointwise_shaped rfl hs hy).eq_of_shape hr
    exact .single (pointwise_alike rfl hs hdy hout) hs.shape fun q hq =>
      absurd hq (Nat.not_lt_zero q)
  | sum =>
    obtain ⟨x, rfl, hf⟩ := Arguments.reduction_positional hy hnamed
    obtain ⟨s, hs⟩ := hoperands x (.head _)
    exact .single
      (Kernel.sumAdjoint_alike hs hf hr hdy (reduction_out hnamed (fun _ => rfl) hout)) hs.shape
      fun q hq => absurd hq (Nat.not_lt_zero q)
  | mean =>
    obtain ⟨x, hpos, hf⟩ := Arguments.reduction_positional hy hnamed
    cases hpos
    obtain ⟨s, hs⟩ := hoperands x (.head _)
    exact .single
      (Kernel.meanAdjoint_alike hs hf hr hdy (reduction_out hnamed (fun _ => rfl) hout)) hs.shape
      fun q hq => absurd hq (Nat.not_lt_zero q)
  | reshape =>
    obtain ⟨x, shape, hpos, hf⟩ := Arguments.call2_positional hy hnamed (by decide)
    cases hpos
    obtain ⟨s, hs⟩ := hoperands x (.head _)
    -- A number does if it is all that is moved to the other shape.
    have hone : (∀ i, (dy i).RealShaped r) ∨ s.size = 1 := hfull.imp_right fun h =>
      Except.ok.inj ((size_of_shape hs.shape).symm.trans h)
    exact .single (Kernel.reshapeAdjoint_alike hs hf hr hdy hone hout) hs.shape fun _ _ => rfl
  | cat =>
    obtain ⟨⟨axis, ys⟩, hhead, hf⟩ := bind_eq_ok.mp hy
    cases xs with
    | nil =>
      obtain ⟨-, -, rfl⟩ := Arguments.headed_eq_ok hhead
      exact absurd hf (Kernel.cat_nil axis y)
    | cons x xs =>
      obtain ⟨rfl, rfl, rfl⟩ := Arguments.headed_positional hhead
      obtain ⟨outs, houts, hall⟩ := Kernel.catAdjoint_alike hadmits hf hr hdy hout
      intro q v u hq hu hfeeds
      -- The first argument is the axis, to which nothing is handed down.
      cases q with
      | zero => cases hfeeds
      | succ q =>
        obtain ⟨d, hd, halike⟩ := hall q v u hq hu
        exact ⟨d, fun i => by rw [houts i]; exact hd i, halike⟩
  | roots =>
    obtain ⟨ys, hys, hf⟩ := bind_eq_ok.mp hy
    obtain ⟨hnil, rfl⟩ := Arguments.unnamed_eq_ok hys
    cases hnil
    obtain ⟨outs, houts, hall⟩ := Kernel.rootsAdjoint_alike hf hr hdy hout
    intro q v u hq hu _
    obtain ⟨d, hd, halike⟩ := hall q v u hq hu
    exact ⟨d, fun i => by rw [houts i]; exact hd i, halike⟩
  | l2loss =>
    obtain ⟨x, target, hpos, hf⟩ := Arguments.call2_positional hy hnamed (by decide)
    cases hpos
    obtain ⟨s, hs⟩ := hoperands x (.head _)
    obtain ⟨t, ht⟩ := hoperands target (.tail _ (.head _))
    -- Operands of one shape are what the op's conventions ask for.
    obtain rfl := hs.eq_of_shape (Eq.trans hadmits ht.shape)
    obtain ⟨-, -, -, hys⟩ := Kernel.l2loss_shaped hs ht hf
    obtain rfl := hys.eq_of_shape hr
    exact .pair (Kernel.l2lossAdjoint_alike hs ht hdy hout) hs.shape ht.shape
  | softmaxloss =>
    obtain ⟨x, labelValues, hpos, hf⟩ := Arguments.call2_positional hy hnamed (by decide)
    cases hpos
    obtain ⟨s, hs⟩ := hoperands x (.head _)
    obtain rfl := (Kernel.softmaxloss_shaped hs hf).2.1.eq_of_shape hr
    obtain ⟨dx, hdx, halike⟩ := Kernel.softmaxlossAdjoint_alike hs hf hdy hout
    intro q v u hq hu hfeeds
    obtain rfl : q = 0 := by simpa [feeds] using hfeeds
    cases hq
    cases hs.shape.symm.trans hu
    exact ⟨dx, fun i => by rw [hdx i]; rfl, halike⟩

end Builtin

end SlotGrad
