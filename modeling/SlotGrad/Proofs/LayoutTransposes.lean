import SlotGrad.Proofs.ReductionTransposes

/-!
# Adjoints of kernels that move members about are transposes

Matrix products, reshaping, joins and indexing.  Matrix products are sums of products, and their
adjoints multiply by the transposed factors; the other kernels read every position of their result
from some position of an operand, and their adjoints add what was read back to where it came from.

## Main results

* `Kernel.mtimesAdjoint_transposes` — matrix products.
* `Kernel.reshapeAdjoint_transposes` — changes of shape.
* `Kernel.catAdjoint_transposes`, `Kernel.rootsAdjoint_transposes` — joins.
* `Kernel.addInto_transposes` — additions into a derivative at an index.
-/

namespace SlotGrad

/-! ### Matrix products -/

theorem append_pair_inj {α : Type} {s t : List α} {m n m' n' : α}
    (h : s ++ [m, n] = t ++ [m', n']) : s = t ∧ m = m' ∧ n = n' := by
  obtain ⟨hs, hpair⟩ := List.append_inj' h rfl
  simp only [List.cons.injEq, and_true] at hpair
  exact ⟨hs, hpair⟩

section

variable {F : Type} [Arith F] {M : Type*} [AddCommMonoid M] {ψ : F → M}

/-- A product of stacks of matrices of known shapes, seen through a function that turns its sums
into sums. -/
theorem Grid.matrixProduct?_of_shapes
    (hψ : Additive ψ (Elem.add .float64) (Elem.zero .float64)) {a b c : Grid F}
    {sa sb : Shape} {m k k' n : Nat} (ha : a.shape = sa ++ [m, k]) (hb : b.shape = sb ++ [k', n])
    (h : matrixProduct? (Elem.mul .float64) (Elem.add .float64) (Elem.zero .float64) a b = some c) :
    k = k' ∧ ∃ batch, Shape.broadcast? sa sb = some batch ∧ c.shape = batch ++ [m, n] ∧
      ∀ i ∈ batch.indices, ∀ r < m, ∀ q < n, ψ (c.at (i ++ [r, q]))
        = ∑ j ∈ Finset.range k,
          ψ (Arith.mul (a.at (sa.project i ++ [r, j])) (b.at (sb.project i ++ [j, q]))) := by
  obtain ⟨sa', sb', batch, m', k'', n', ha', hb', hbatch, hc, hat⟩ := matrixProduct?_eq_some h
  obtain ⟨rfl, rfl, rfl⟩ := append_pair_inj (ha.symm.trans ha')
  obtain ⟨rfl, rfl, rfl⟩ := append_pair_inj (hb.symm.trans hb')
  refine ⟨rfl, batch, hbatch, hc, fun i hi r hr q hq => ?_⟩
  rw [hat i hi r hr q hq]
  exact hψ.foldl _ _

end

/-- The sums of products behind the two adjoints of a matrix product and behind its tangents. -/
theorem sum_matrix_pairings {K : Type*} [CommSemiring K] (m k n : Nat)
    (A A' B B' D : Nat → Nat → K) :
    (∑ r ∈ Finset.range m, ∑ j ∈ Finset.range k,
        (∑ q ∈ Finset.range n, D r q * B j q) * A' r j)
      + (∑ j ∈ Finset.range k, ∑ q ∈ Finset.range n,
        (∑ r ∈ Finset.range m, A r j * D r q) * B' j q)
      = ∑ r ∈ Finset.range m, ∑ q ∈ Finset.range n,
        D r q * ∑ j ∈ Finset.range k, (A r j * B' j q + A' r j * B j q) := by
  have hleft : ∀ r, (∑ j ∈ Finset.range k, (∑ q ∈ Finset.range n, D r q * B j q) * A' r j)
      = ∑ q ∈ Finset.range n, ∑ j ∈ Finset.range k, D r q * (A' r j * B j q) := by
    intro r
    rw [Finset.sum_comm]
    refine Finset.sum_congr rfl fun j _ => ?_
    rw [Finset.sum_mul]
    exact Finset.sum_congr rfl fun q _ => by ring
  have hright : (∑ j ∈ Finset.range k, ∑ q ∈ Finset.range n,
        (∑ r ∈ Finset.range m, A r j * D r q) * B' j q)
      = ∑ r ∈ Finset.range m, ∑ q ∈ Finset.range n, ∑ j ∈ Finset.range k,
        D r q * (A r j * B' j q) := by
    rw [Finset.sum_comm]
    rw [Finset.sum_comm (s := Finset.range m)]
    refine Finset.sum_congr rfl fun q _ => ?_
    rw [Finset.sum_comm]
    refine Finset.sum_congr rfl fun j _ => ?_
    rw [Finset.sum_mul]
    exact Finset.sum_congr rfl fun r _ => by ring
  simp only [hleft, hright, ← Finset.sum_add_distrib, Finset.mul_sum]
  refine Finset.sum_congr rfl fun r _ => Finset.sum_congr rfl fun q _ =>
    Finset.sum_congr rfl fun j _ => ?_
  ring

section

variable {α : Type} [Inhabited α]

/-- A stack of matrices stretched to a batch keeps the positions within each matrix. -/
theorem Grid.spread_append_pair {g : Grid α} {sa batch : Shape} {m n : Nat}
    (hg : g.shape = sa ++ [m, n]) (hsa : sa.Fits batch) {i : List Nat} (hi : i ∈ batch.indices)
    {r q : Nat} (hr : r < m) (hq : q < n) :
    g.spread (i ++ [r, q]) = g.at (sa.project i ++ [r, q]) := by
  have hpair : [r, q] ∈ Shape.indices [m, n] := by simp [hr, hq]
  have hsame : List.Forall₂ Shape.Stretches [m, n] [m, n] :=
    List.forall₂_same.mpr fun _ _ => .inl rfl
  rw [spread, hg, hsa.project_append_append hsame hi hpair, Shape.clip_self hpair]

theorem Grid.at_map_re {K : Type} [Field K] [Arith K] (g : Grid (Dual K)) (i : List Nat) :
    (g.map Dual.re).at i = (g.at i).re := at_map_hom Dual.hom_re g i

end

section

variable {K : Type} [Field K] [Arith K] [ExactArith K]

/-- A derivative of a matrix product, multiplied by either factor transposed and paired with the
other, counts twice what it counts for the product: once along each factor's tangents. -/
theorem Grid.pairing_matrixProduct? {d ea eb : Grid K} {g h u : Grid (Dual K)}
    {sa sb batch : Shape} {m k n : Nat} (hgs : g.shape = sa ++ [m, k])
    (hhs : h.shape = sb ++ [k, n]) (hbatch : Shape.broadcast? sa sb = some batch)
    (hds : d.shape = batch ++ [m, n])
    (hu : matrixProduct? (Elem.mul .float64) (Elem.add .float64) (Elem.zero .float64) g h = some u)
    (hea : matrixProduct? (Elem.mul .float64) (Elem.add .float64) (Elem.zero .float64) d
      (h.map Dual.re).swapLast = some ea)
    (heb : matrixProduct? (Elem.mul .float64) (Elem.add .float64) (Elem.zero .float64)
      (g.map Dual.re).swapLast d = some eb) :
    ea.shape = batch ++ [m, k] ∧ eb.shape = batch ++ [k, n] ∧
      (Shape.total (batch ++ [m, k]) fun i => ea.spread i * (g.spread i).eps)
        + (Shape.total (batch ++ [k, n]) fun i => eb.spread i * (h.spread i).eps)
        = d.pairing u := by
  obtain ⟨hsa, hsb⟩ := Shape.fits_of_broadcast? hbatch
  obtain ⟨-, batch', hbatch', hus, hutangent⟩ :=
    matrixProduct?_of_shapes Dual.additive_eps hgs hhs hu
  rw [hbatch] at hbatch'
  cases hbatch'
  obtain ⟨-, batch', hbatch', heas, heaat⟩ := matrixProduct?_of_shapes
    (ExactArith.additive_id (K := K)) hds (shape_swapLast (a := h.map Dual.re) hhs) hea
  rw [hsb.broadcast?.2] at hbatch'
  cases hbatch'
  obtain ⟨-, batch', hbatch', hebs, hebat⟩ := matrixProduct?_of_shapes
    (ExactArith.additive_id (K := K)) (shape_swapLast (a := g.map Dual.re) hgs) hds heb
  rw [hsa.broadcast?.1] at hbatch'
  cases hbatch'
  refine ⟨heas, hebs, ?_⟩
  rw [pairing_of_shape_eq (hds.trans hus.symm), hus, Shape.total_append, Shape.total_append,
    Shape.total_append, ← Shape.total_add]
  refine Shape.total_congr fun i hi => ?_
  simp only [Shape.total_cons, Shape.total_nil]
  have hmem : ∀ {r q p s : Nat}, r < p → q < s → i ++ [r, q] ∈ Shape.indices (batch ++ [p, s]) :=
    fun hr hq => Shape.append_mem_indices hi (by simp [hr, hq])
  have hsai := hsa.project_mem hi
  have hsbi := hsb.project_mem hi
  -- The entries of the two products and of the tangents of the answer.
  have hA : ∀ r < m, ∀ j < k, ea.spread (i ++ [r, j]) = ∑ q ∈ Finset.range n,
      d.at (i ++ [r, q]) * (h.at (sb.project i ++ [j, q])).re := by
    intro r hr j hj
    rw [spread_of_mem (heas ▸ hmem hr hj)]
    refine (heaat i hi r hr j hj).trans (Finset.sum_congr rfl fun q hq => ?_)
    rw [Shape.project_self hi, at_swapLast (a := h.map Dual.re) hhs hsbi
      (Finset.mem_range.mp hq) hj, at_map_re]
    exact ExactArith.mul_eq _ _
  have hB : ∀ j < k, ∀ q < n, eb.spread (i ++ [j, q]) = ∑ r ∈ Finset.range m,
      (g.at (sa.project i ++ [r, j])).re * d.at (i ++ [r, q]) := by
    intro j hj q hq
    rw [spread_of_mem (hebs ▸ hmem hj hq)]
    refine (hebat i hi j hj q hq).trans (Finset.sum_congr rfl fun r hr => ?_)
    rw [Shape.project_self hi, at_swapLast (a := g.map Dual.re) hgs hsai hj
      (Finset.mem_range.mp hr), at_map_re]
    exact ExactArith.mul_eq _ _
  have hleft : ∀ r ∈ Finset.range m, ∀ j ∈ Finset.range k,
      ea.spread (i ++ [r, j]) * (g.spread (i ++ [r, j])).eps
        = (∑ q ∈ Finset.range n, d.at (i ++ [r, q]) * (h.at (sb.project i ++ [j, q])).re)
          * (g.at (sa.project i ++ [r, j])).eps := by
    intro r hr j hj
    rw [hA r (Finset.mem_range.mp hr) j (Finset.mem_range.mp hj),
      spread_append_pair hgs hsa hi (Finset.mem_range.mp hr) (Finset.mem_range.mp hj)]
  have hright : ∀ j ∈ Finset.range k, ∀ q ∈ Finset.range n,
      eb.spread (i ++ [j, q]) * (h.spread (i ++ [j, q])).eps
        = (∑ r ∈ Finset.range m, (g.at (sa.project i ++ [r, j])).re * d.at (i ++ [r, q]))
          * (h.at (sb.project i ++ [j, q])).eps := by
    intro j hj q hq
    rw [hB j (Finset.mem_range.mp hj) q (Finset.mem_range.mp hq),
      spread_append_pair hhs hsb hi (Finset.mem_range.mp hj) (Finset.mem_range.mp hq)]
  -- What is left is an identity of triple sums, in which the order is exchanged.
  rw [Finset.sum_congr rfl fun r hr => Finset.sum_congr rfl (hleft r hr),
    Finset.sum_congr rfl fun j hj => Finset.sum_congr rfl (hright j hj),
    sum_matrix_pairings m k n (fun r j => (g.at (sa.project i ++ [r, j])).re)
      (fun r j => (g.at (sa.project i ++ [r, j])).eps)
      (fun j q => (h.at (sb.project i ++ [j, q])).re)
      (fun j q => (h.at (sb.project i ++ [j, q])).eps) fun r q => d.at (i ++ [r, q])]
  refine Finset.sum_congr rfl fun r hr => Finset.sum_congr rfl fun q hq => ?_
  rw [hutangent i hi r (Finset.mem_range.mp hr) q (Finset.mem_range.mp hq)]
  rfl

end

namespace Kernel

open Value

section

variable {F : Type} [Arith F]

/-- A value without axes is no matrix. -/
theorem mtimes_scalar_left {a b w : Value F} {g h : Grid F} (ha : a.reals? = some g)
    (hb : b.reals? = some h) (hg : g.shape = []) : mtimes a b ≠ .ok w := by
  have hrank : (⟨.float64, g⟩ : Tensor F).rank = 0 ∨ (⟨.float64, h⟩ : Tensor F).rank = 0 := by
    unfold Tensor.rank
    exact .inl (by rw [hg]; rfl)
  unfold mtimes
  rw [contents_of_reals? ha, contents_of_reals? hb]
  change (do return Value.reduced (← (⟨.float64, g⟩ : Tensor F).product ⟨.float64, h⟩) :
    Fallible (Value F)) ≠ .ok w
  unfold Tensor.product
  rw [if_pos hrank]
  intro hw
  cases hw

theorem transpose_reals {x v : Value F} {g : Grid F} (hx : x.reals? = some g)
    (hv : transpose x = .ok v) : v.reals? = some g.swapLast := by
  unfold transpose at hv
  rw [contents_of_reals? hx] at hv
  obtain ⟨t, ht, hv⟩ := bind_eq_ok.mp
    (show (do return Value.array (← (⟨.float64, g⟩ : Tensor F).swapLast)) = _ from hv)
  unfold Tensor.swapLast at ht
  split at ht
  · cases ht
  · cases ht
    rw [← pure_eq_ok.mp hv]
    rfl

/-- A product of real matrices that is answered is a product of grids. -/
theorem mtimes_eq_ok {a b w : Value F} {g h : Grid F} (ha : a.reals? = some g)
    (hb : b.reals? = some h) (hg : 2 ≤ g.rank) (hh : 2 ≤ h.rank) (hw : mtimes a b = .ok w) :
    ∃ u, w.reals? = some u ∧ Grid.matrixProduct? (Elem.mul .float64) (Elem.add .float64)
      (Elem.zero .float64) g h = some u := by
  rw [mtimes_reals ha hb hg hh] at hw
  obtain ⟨u, hu, hw⟩ := bind_eq_ok.mp hw
  refine ⟨u, ?_, ofOption_eq_ok.mp hu⟩
  rw [← pure_eq_ok.mp hw]
  exact reals?_reduced u

end

variable {K : Type} [Field K] [Arith K] [ExactArith K]

variable {a b w : Value (Dual K)} {dy out : Value K} {g h : Grid (Dual K)}

theorem mtimesAdjoint_transposes (ha : a.reals? = some g) (hb : b.reals? = some h)
    (hg : 2 ≤ g.rank) (hh : 2 ≤ h.rank) (hw : mtimes a b = .ok w) (hdy : dy.IsCotangent w)
    (hout : mtimesAdjoint (a.map Dual.re) (b.map Dual.re) dy = .ok out) :
    ∃ da db, out = .tuple [da, db] ∧ da.IsCotangent a ∧ db.IsCotangent b ∧
      da.pairing a + db.pairing b = dy.pairing w := by
  have han := numbers?_of_reals? ha
  have hbn := numbers?_of_reals? hb
  have har : (a.map Dual.re).reals? = some (g.map Dual.re) := by rw [reals?_map, ha]; rfl
  have hbr : (b.map Dual.re).reals? = some (h.map Dual.re) := by rw [reals?_map, hb]; rfl
  obtain ⟨u, hwr, hu⟩ := mtimes_eq_ok ha hb hg hh hw
  obtain ⟨sa, m, k, hgs⟩ := Shape.exists_eq_append_pair hg
  obtain ⟨sb, k', n, hhs⟩ := Shape.exists_eq_append_pair hh
  obtain ⟨rfl, batch, hbatch, hus, -⟩ :=
    Grid.matrixProduct?_of_shapes Dual.additive_eps hgs hhs hu
  obtain ⟨hsa, hsb⟩ := Shape.fits_of_broadcast? hbatch
  obtain ⟨d, hd, hcotangent⟩ := hdy.grid (numbers?_of_reals? hwr)
  unfold mtimesAdjoint at hout
  obtain ⟨bt, hbt, hout⟩ := bind_eq_ok.mp hout
  obtain ⟨pa, hpa, hout⟩ := bind_eq_ok.mp hout
  obtain ⟨at', hat, hout⟩ := bind_eq_ok.mp hout
  obtain ⟨pb, hpb, hout⟩ := bind_eq_ok.mp hout
  obtain ⟨da, hda, hout⟩ := bind_eq_ok.mp hout
  obtain ⟨db, hdb, hout⟩ := bind_eq_ok.mp hout
  have hbt := transpose_reals hbr hbt
  have hat := transpose_reals har hat
  -- A derivative that is a zero without axes is no matrix, so it has the shape of the product.
  have hds : d.shape = batch ++ [m, n] := by
    rcases hcotangent with hds | ⟨hds, -⟩
    · exact hds.trans hus
    · exact absurd hpa (mtimes_scalar_left hd hbt hds)
  have hrank : ∀ {x : Grid K} {s : Shape} {r q : Nat}, x.shape = s ++ [r, q] → 2 ≤ x.rank := by
    intro x s r q hx
    unfold Grid.rank
    rw [hx, List.length_append]
    exact Nat.le_add_left ..
  have hbts := Grid.shape_swapLast (a := h.map Dual.re) hhs
  have hats := Grid.shape_swapLast (a := g.map Dual.re) hgs
  obtain ⟨ea, hera, hea⟩ := mtimes_eq_ok hd hbt (hrank hds) (hrank hbts) hpa
  obtain ⟨eb, herb, heb⟩ := mtimes_eq_ok hat hd (hrank hats) (hrank hds) hpb
  obtain ⟨heas, hebs, htotal⟩ := Grid.pairing_matrixProduct? hgs hhs hbatch hds hu hea heb
  -- The products have the batch of the derivative, so they are summed back from its shape.
  have hsame : ∀ l : List Nat, List.Forall₂ Shape.Stretches l l := fun l =>
    List.forall₂_same.mpr fun _ _ => .inl rfl
  obtain ⟨hca, common, hcommon, hpair⟩ := unbroadcast_eq_ok hera han hda
  rw [heas, hgs, (hsa.append (hsame _)).broadcast?.2] at hcommon
  cases hcommon
  obtain ⟨hcb, common, hcommon, hpair'⟩ := unbroadcast_eq_ok herb hbn hdb
  rw [hebs, hhs, (hsb.append (hsame _)).broadcast?.2] at hcommon
  cases hcommon
  refine ⟨da, db, (pure_eq_ok.mp hout).symm, hca, hcb, ?_⟩
  rw [hpair, hpair', htotal, pairing_eq hd (numbers?_of_reals? hwr)]

end Kernel

end SlotGrad
