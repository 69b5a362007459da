import SlotGrad.Proofs.AlikeDerivatives
import SlotGrad.Proofs.BackwardCompletes

/-!
# Plain numbers as seeds

The default seed is the number one, whatever the shape of the root's value.  An evaluation from
a number is run side by side with one from an array of its copies.  Every adjoint that answers
from the number answers a derivative of the full shape, and in exact arithmetic it cannot tell
the two seeds apart.  Only the identity passes the number on.

So what matters are the layers that the number itself reaches: the root, and what the identity
is applied to on the way to it.  If such a layer is a product of matrices or a change of shape,
the number stops the pass.  If it is a sum that stretches an operand, the operand's derivative
is not summed over the stretched axes.

## Main definitions

* `AlikeIn` — the relation between the runs.
* `Application.TakesNumber` — layers for which a number will do.
* `seedOf` — the two seeds.

## Main results

* `reached_by_number` — the derivatives that a number leaves a number.
* `Builtin.exists_alike_answers`, `Value.Alike.scatter` — adjoints and sparse updates.
* `Streams.stepKeeps_alike` — the additions of a backward instruction keep the relation.
* `derivatives_of_number` — the number does what an array of its copies does.
* `scalar_seed_of_stretched_summand` — a sum that stretches an operand.
-/

namespace SlotGrad

/-! ### Which derivatives are filled -/

section

variable {F : Type} {nodes : List (Node F)} {slotOf : Handle → Option Nat} {j : Nat}

/-- Every op answers filled derivatives from a filled one. -/
theorem Builtin.fillsFrom_true (b : Builtin) : b.fillsFrom true = true := by
  cases b <;> rfl

theorem Builtin.fillsFrom_mono {b : Builtin} {f g : Bool} (h : f = true → g = true)
    (hf : b.fillsFrom f = true) : b.fillsFrom g = true := by
  cases f with
  | true =>
    rw [h rfl]
    exact hf
  | false => cases b <;> first | rfl | cases hf

/-- Layers fill more derivatives where more are filled. -/
theorem foldl_filledStep_mono {ls : List (Nat × Application F)} {filled filled' : Nat → Bool}
    (h : ∀ j, filled j = true → filled' j = true)
    (hj : ls.foldl (filledStep slotOf) filled j = true) :
    ls.foldl (filledStep slotOf) filled' j = true := by
  induction ls generalizing filled filled' with
  | nil => exact h j hj
  | cons L ls ih =>
    refine ih (fun i hi => ?_) hj
    unfold filledStep at hi ⊢
    rw [Bool.or_eq_true, Bool.and_eq_true, Option.any_eq_true] at hi ⊢
    refine hi.imp (h i) (And.imp_right ?_)
    rintro ⟨b, hb, hfills⟩
    exact ⟨b, hb, Builtin.fillsFrom_mono (h L.1) hfills⟩

/-- A seed of the root's shape fills what a plain number does. -/
theorem filledBy_true_of_false (h : filledBy false nodes j = true) : filledBy true nodes j = true :=
  foldl_filledStep_mono (fun i hi => by simp at hi) h

/-- What a layer feeds is filled by the pass. -/
theorem filledBy_of_feeds (ho : Ordered nodes) {whole : Bool} {k : Nat} {a : Application F}
    {b : Builtin} (hL : (k, a) ∈ layersOf nodes) (hfed : a.feedsNode (slotIn nodes) j = true)
    (hb : a.op = b.op) (hfills : b.fillsFrom (filledBy whole nodes k) = true) :
    filledBy whole nodes j = true :=
  (filledBy_iff ho).mpr (.inr ⟨k, a, hL, hfed, b, by rw [hb, Builtin.ofOp?_op], hfills⟩)

/-- A derivative that only a seed of the root's shape fills is the root's, or that of what the
identity is applied to on the way to it. -/
theorem reached_by_number (ho : Ordered nodes) (htrue : filledBy true nodes j = true)
    (hfalse : filledBy false nodes j = false) : j + 1 = nodes.length ∨
      ∃ k a, (k, a) ∈ layersOf nodes ∧ a.feedsNode (slotIn nodes) j = true ∧
        Builtin.ofOp? a.op = some .deal ∧ filledBy true nodes k = true ∧
          filledBy false nodes k = false := by
  rcases (filledBy_iff ho).mp htrue with ⟨-, hroot⟩ | ⟨k, a, hL, hfed, b, hb, hfills⟩
  · exact .inl hroot
  · -- The layer does not fill the derivative from a number.
    have hnumber : b.fillsFrom (filledBy false nodes k) = false := by
      rw [← Bool.not_eq_true]
      intro hfills'
      rw [(filledBy_iff ho).mpr (.inr ⟨k, a, hL, hfed, b, hb, hfills'⟩)] at hfalse
      cases hfalse
    obtain rfl : b = .deal := by cases b <;> first | rfl | cases hnumber
    exact .inr ⟨k, a, hL, hfed, hb, hfills, hnumber⟩

end

/-! ### Adjoints -/

section

variable {K : Type} [Field K] [Arith K] [ExactArith K] {ι : Type} {bound : Nat}

open Value

/-- Where a number will do, an adjoint accepts it. -/
theorem Builtin.TakesNumber.accepts {F : Type} [Arith F] {b : Builtin} {xs : List (Value F)}
    {y : Value F} (h : b.TakesNumber xs y) : b.Accepts false xs := by
  cases b with
  | mtimes => exact h.elim
  | reshape =>
    cases xs with
    | nil => trivial
    | cons x xs => exact .inr h
  | _ => trivial

omit [Field K] [ExactArith K] in
/-- Plain numbers that are alike as they are, are the same. -/
theorem exists_real_of_alike {y : Value K} {dy : ι → Value K}
    (hdy : ∀ i, IsDerivative false y (dy i))
    (halike : Alike [] dy) : ∃ z, ∀ i, dy i = .real z := by
  obtain ⟨f, hf⟩ := halike
  refine ⟨f [], fun i => ?_⟩
  obtain ⟨z, hz⟩ := hdy i
  obtain ⟨-, g, hg, -, hat⟩ := hf i
  rw [hz] at hg
  cases hg
  rw [hz, ← hat [] (List.mem_singleton_self _), Grid.spread_single]

/-- **Sparse updates keep derivatives of the source alike**, if those of the part are. -/
theorem Value.Alike.scatter {s : Shape} {picks : List Pick} {sel : Selection} {owned : Bool}
    {source index : Value K} {c dy target u : ι → Value K} (hc : Alike s c) (hs : source.Shaped s)
    (hpicks : index.picks = .ok picks) (hsel : Selection.resolve picks s = .ok sel)
    (hdy : Alike sel.shape dy) (hover : ∀ i, (dy i).RealOver sel.shape)
    (htarget : ∀ i, scatterTarget owned (c i) source (dy i) = .ok (target i))
    (hu : ∀ i, addInto (target i) index (dy i) = .ok (u i)) : Alike s u := by
  obtain ⟨f, hf⟩ := hc
  have hall : ∀ i, ∃ h, SlotGrad.sparseAddend source index (dy i) = .ok h ∧
      (c i).Gains h (u i) := by
    intro i
    obtain ⟨hreal, g, hg, -⟩ := hf i
    refine scatter_gains hreal hg (fun _ d hd => ?_) (htarget i) (hu i)
    obtain ⟨p, -, hp⟩ := (hover i).realFits
    obtain ⟨d', hd', hdreal⟩ := Kernel.exists_commonDtype hs hp
    cases hd.symm.trans hd'
    exact hdreal
  choose h hh hgains using hall
  obtain ⟨k, hk⟩ := hdy.sparseAddend hs.shape hpicks hsel hh
  have hshape : ∀ i, (h i).shape = s := fun i =>
    Except.ok.inj ((shape_sparseAddend (hh i)).symm.trans hs.shape)
  exact Alike.gains ⟨f, hf⟩ hgains (fun i => hshape i ▸ Shape.Fits.refl _)
    fun i j _ => congrArg (Grid.spread · j) (hk i)

/-- **What adjoints answer from derivatives that are alike.**  The derivatives of an output
stand for one array of its shape, and a number will do where some are filled and others are not.
If none is filled, they are the same number. -/
theorem Builtin.exists_alike_answers [Nonempty ι] {b : Builtin} {a : Arguments K} {y : Value K}
    {dy out : ι → Value K} {filled : ι → Bool} (hF : Arith.FiniteUpTo K bound) (hslice : b ≠ slice)
    (hnamed : ∀ p ∈ a.named, p.1 = "axis") (hy : b.forwardCall a = .ok y)
    (hder : ∀ i, IsDerivative (filled i) y (dy i)) (halike : ∀ r, y.shape = .ok r → Alike r dy)
    (hplain : (∀ i, filled i = false) → Alike [] dy)
    (hmixed : ∀ i i', filled i = true → filled i' = false → b.TakesNumber a.positional y)
    (hoperands : ∀ x ∈ b.operands a.positional, x.Within bound)
    (hadmits : b.Admits a.positional Store.zero)
    (hout : ∀ i, b.adjointCall ⟨a.positional ++ [dy i], a.named⟩ = .ok (out i)) {q : Nat}
    {x : Value K} (hx : a.positional[q]? = some x) (hfeeds : b.feeds q = true) :
    ∃ d : ι → Value K, (∀ i, (resultsOf (out i))[q]? = some (d i)) ∧
      (∀ s, x.shape = .ok s → Alike s d) ∧
        ((∀ i, b.fillsFrom (filled i) = false) → Alike [] d) := by
  have hderives := fun i =>
    derivesAs_of_adjointCall hF hnamed hy (hder i) hoperands hadmits (hout i)
  choose d hd hdx using fun i => (hderives i).fed q x hx hfeeds
  refine ⟨d, hd, ?_⟩
  obtain ⟨r, hr⟩ := exists_shape hnamed hy hoperands hadmits
  by_cases hnone : ∀ i, filled i = false
  · -- All calls are the same.
    obtain ⟨z, hz⟩ := exists_real_of_alike (fun i => hnone i ▸ hder i) (hplain hnone)
    have hone : ∀ i j, out i = out j := fun i j => by
      refine Except.ok.inj ((hout i).symm.trans (Eq.trans ?_ (hout j)))
      rw [hz i, hz j]
    obtain ⟨i₀⟩ := ‹Nonempty ι›
    have hd₀ : d = fun _ => d i₀ := funext fun i =>
      Option.some.inj ((hd i).symm.trans (hone i i₀ ▸ hd i₀))
    have hdx := hdx i₀
    rw [hnone i₀] at hdx
    rw [hd₀]
    refine ⟨fun s hs => ?_, fun hunfilled => ?_⟩
    · obtain ⟨u, hu, hdu⟩ := (hdx.realOver hs).realFits
      exact hdu.alike hu
    · have hunfilled := hunfilled i₀
      rw [hnone i₀] at hunfilled
      rw [hunfilled] at hdx
      obtain ⟨w, hw⟩ := hdx
      rw [hw]
      exact (realShaped_real w).alike (Shape.Fits.refl [])
  · rw [not_forall] at hnone
    obtain ⟨i₀, hi₀⟩ := hnone
    have hi₀ : filled i₀ = true := by simpa using hi₀
    have hfull : (∀ i, (dy i).RealShaped r) ∨ b.TakesNumber a.positional y := by
      by_cases hall : ∀ i, filled i = true
      · refine .inl fun i => ?_
        obtain ⟨s, hs, hds⟩ := hall i ▸ hder i
        cases hr.symm.trans hs
        exact hds
      · rw [not_forall] at hall
        obtain ⟨i₁, hi₁⟩ := hall
        exact .inr (hmixed i₀ i₁ hi₀ (by simpa using hi₁))
    -- Some derivative is filled: all have the full shape, or the op takes a number.
    have hanswers := adjointCall_alike hslice hnamed hy hr
      ⟨halike r hr, fun i => (hder i).realOver hr⟩ hfull
      (fun v hv => (hoperands v hv).shaped) hadmits hout
    refine ⟨fun s hs => ?_, fun hunfilled => ?_⟩
    · obtain ⟨d', hd', hds⟩ := hanswers q x s hx hs hfeeds
      obtain rfl : d = d' := funext fun i => Option.some.inj ((hd i).symm.trans (hd' i))
      exact hds
    -- An answer from a filled derivative is filled.
    · have := hunfilled i₀
      rw [hi₀, b.fillsFrom_true] at this
      cases this

end

/-! ### Backward instructions -/

section

variable {K : Type} [Field K] [Arith K] [ExactArith K] {ι : Type} {bound : Nat}
    {nodes : List (Node K)}
  {layers : List (Placed K)} {net : CompiledNet K} {call : Calls K}

open Value (Alike IsDerivative realShaped_real realShaped_array)

/-- The contents of a slot in runs from seeds that are alike.  Values are given ones.  A
derivative stands for one array of the shape of its value, and if no run fills it, it is one
number. -/
structure AlikeIn {F : Type} [Arith F] (filled : ι → Nat → Bool) (value : Nat → Value F) (k : Nat)
    (v : ι → Value F) : Prop where
  /-- Values are the same. -/
  values : k % 2 = 0 → ∀ i, v i = value k
  /-- Derivatives stand for one array. -/
  alike : ∀ j, k = valueSlot j + 1 → ∀ s, (value (valueSlot j)).shape = .ok s → Alike s v
  /-- Derivatives that are not filled are one number. -/
  plain : ∀ j, k = valueSlot j + 1 → (∀ i, filled i j = false) → Alike [] v

/-- Values that are the same are related. -/
theorem alikeIn_value {F : Type} [Arith F] {filled : ι → Nat → Bool}
    {value : Nat → Value F} {k : Nat} {v : ι → Value F} (hk : k % 2 = 0)
    (hv : ∀ i, v i = value k) : AlikeIn filled value k v := by
  refine ⟨fun _ => hv, ?_, ?_⟩
  · exact fun j hj => absurd hj (ne_valueSlot_succ hk j)
  · exact fun j hj => absurd hj (ne_valueSlot_succ hk j)

/-- Derivatives of one node are related. -/
theorem alikeIn_der {F : Type} [Arith F] {filled : ι → Nat → Bool} {value : Nat → Value F} {j : Nat}
    {v : ι → Value F} (halike : ∀ s, (value (valueSlot j)).shape = .ok s → Alike s v)
    (hplain : (∀ i, filled i j = false) → Alike [] v) :
    AlikeIn filled value (valueSlot j + 1) v := by
  refine ⟨fun heven => absurd rfl (ne_valueSlot_succ heven j), fun i hi => ?_, fun i hi => ?_⟩
  · obtain rfl : j = i := by simpa using hi
    exact halike
  · obtain rfl : j = i := by simpa using hi
    exact hplain

/-- A number as the derivative of a layer will do, if the layer's backward instruction does
anything. -/
def Application.TakesNumber {F : Type} [Arith F] (slotOf : Handle → Option Nat)
    (t : Store F) (k : Nat) (a : Application F) : Prop :=
  a.Works slotOf → ∀ b, a.op = Builtin.op b →
    b.TakesNumber (a.args.map (t.argument slotOf)) (t.content (valueSlot k))

/-- **The additions of a backward instruction keep derivatives alike.** -/
theorem Streams.stepKeeps_alike [Nonempty ι] (h : Streams nodes layers net) (ho : Ordered nodes)
    (hF : Arith.FiniteUpTo K bound) (hcall : RunsBuiltins call) {t : Store K} {T : ι → Store K}
    {filled : ι → Nat → Bool} (hsize : t.size = 2 * nodes.length)
    (hT : ∀ i, Derived nodes t (filled i) (T i))
    (hfills : ∀ i j k a (b : Builtin), (k, a) ∈ layersOf nodes →
      a.feedsNode (slotIn nodes) j = true →
      a.op = b.op → b.fillsFrom (filled i k) = true → filled i j = true)
    {p : Placed K} (hp : p ∈ layers) (heval : Evaluated call bound nodes t p)
    (hnumber : ∀ i i', filled i p.place = true → filled i' p.place = false →
      p.layer.TakesNumber (slotIn nodes) t p.place) {s : ι → Store K}
    (hsizes : ∀ i, (s i).size = 2 * nodes.length)
    (hs : ∀ k, k < 2 * nodes.length → AlikeIn filled t.content k fun i => (s i).content k)
    (hargs : ∀ i, adjointArguments (slotIn nodes) (s i) p.place p.layer.args
      = adjointArguments (slotIn nodes) (T i) p.place p.layer.args) :
    StepKeeps (AlikeIn filled t.content) call (slotIn nodes) p s := by
  have hw := h.wellPlaced ho
  have hlayer := h.mem_layersOf hp
  have hplace := hw.inStore p hp
  have hvalues : ∀ i k, k % 2 = 0 → (s i).content k = t.content k := by
    intro i k hk
    by_cases hlt : k < 2 * nodes.length
    · exact (hs k hlt).values hk i
    · rw [Store.content_of_le (by rw [hsizes]; omega), Store.content_of_le (by rw [hsize]; omega)]
  have harguments : ∀ i, p.layer.args.map ((s i).argument (slotIn nodes))
      = p.layer.args.map (t.argument (slotIn nodes)) := fun i =>
    hw.argument_eq hp fun j _ => hvalues i _ (valueSlot_mod_two j)
  -- The derivative that the adjoint is called with is the one it has in the completed run, so
  -- it is filled or a number as there.
  have hown : ∀ b : Builtin, b.Conforms bound (slotIn nodes) t p.layer → ∀ i,
      IsDerivative (filled i p.place) (t.content (valueSlot p.place))
        ((s i).content (valueSlot p.place + 1)) := by
    intro b hb i
    have hlast := hargs i
    rw [adjointArguments_of_texts hb.texts, adjointArguments_of_texts hb.texts] at hlast
    rw [List.singleton_inj.mp (List.append_inj_right' hlast rfl)]
    exact (hT i).ders _ (hw.place_lt hp)
  constructor
  · intro hscatter out hout j q hjq
    cases hactive : (derCountOf (slotIn nodes) p.layer).isActive with
    | false =>
      -- Without a derivative to take, the adjoint is not called.
      refine .inl fun i => ?_
      have hi := hout i
      unfold adjointAnswer at hi
      rw [hactive, if_neg Bool.false_ne_true] at hi
      rw [← pure_eq_ok.mp hi]
      rfl
    | true =>
      obtain ⟨b, hb⟩ := heval.conforms (.inr hactive)
      have hslice : b ≠ .slice := by
        rintro rfl
        rw [hb.op] at hscatter
        cases hscatter
      set xs := p.layer.args.map (t.argument (slotIn nodes))
      have hvalue := heval.forwardCall hcall hb.op
      choose v hv hout using fun i => hb.exists_adjointCall hcall hactive (hout i)
      simp only [adjointArguments_of_texts hb.texts, harguments] at hv
      rw [adjointOperands_of_texts hb.texts] at hjq
      -- The slot and the place belong to an operand with a value.
      obtain ⟨j', q', heq, hj, hx⟩ := hw.exists_operand hp hjq
      obtain rfl := natCast_valueSlot_inj.mp (congrArg Prod.fst heq)
      obtain rfl := Int.ofNat_inj.mp (congrArg Prod.snd heq)
      have htaken := fun i =>
        ((Builtin.derivesAs_of_adjointCall hF (a := ⟨xs, p.layer.kwargs⟩) hb.named
        hvalue (hown b hb i) hb.operands hb.admits (hv i)).answered
          (derNumber (slotIn nodes) p.layer) hx).taken?
      simp only [hout] at htaken
      -- Either no run adds anything for this operand, or all add answers that are alike.
      cases hfed : decide (q < derNumber (slotIn nodes) p.layer) && b.feeds q with
      | false =>
        rw [hfed] at htaken
        exact .inl htaken
      | true =>
        rw [hfed] at htaken
        obtain ⟨hq, hfeeds⟩ := Bool.and_eq_true_iff.mp hfed
        have hdy := hs _ hplace
        obtain ⟨d, hd, halike, hplain⟩ :=
          b.exists_alike_answers hF (a := ⟨xs, p.layer.kwargs⟩) hslice
          hb.named hvalue (hown b hb) (hdy.alike p.place rfl) (hdy.plain p.place rfl)
          (fun i i' hi hi' => hnumber i i' hi hi' (.inr hactive) b hb.op) hb.operands hb.admits
            hv hx hfeeds
        have hanswer : ∀ i, taken? (out i) q = some (d i) := by
          intro i
          rw [htaken i, if_pos rfl, ← hout i, List.getElem?_take, if_pos (of_decide_eq_true hq)]
          exact hd i
        refine .inr ⟨d, hanswer, fun c u hc hu => alikeIn_der
          (fun s hs => (hc.alike j rfl s hs).plus (halike s hs) hu)
          fun hunfilled => (hc.plain j rfl hunfilled).plus (hplain fun i => ?_) hu⟩
        -- What is fed a filled answer is filled.
        rw [← Bool.not_eq_true]
        intro hfills'
        have hfed' : p.layer.feedsNode (slotIn nodes) j = true :=
          List.any_eq_true.mpr ⟨_, hjq, by simp [hb.feeds_eq, hfeeds, hq]⟩
        exact absurd (hfills i j _ _ b hlayer hfed' hb.op hfills') (by simp [hunfilled i])
  -- An indexing layer adds the derivative of its output to a part of the source's.
  · intro hscatter m rest j hm hslot owned source index dy c target u hthree hc htarget hu
    have hb := heval.conforms_slice hscatter
    obtain ⟨n, i, j', sh, picks, sel, hreads⟩ := hb.exists_readsPart hcall hw hp heval
    obtain rfl : j = j' := by
      cases (List.cons.inj (hm.symm.trans hreads.args)).1
      exact valueSlot_inj.mp (Option.some.inj (hslot.symm.trans hreads.slot))
    have hthree' : ∀ k, source k = t.content (valueSlot j) ∧ index k = i ∧
        dy k = (s k).content (valueSlot p.place + 1) := by
      intro k
      have hk := hthree k
      rw [adjointArguments_of_texts hb.texts, harguments k, hreads.values] at hk
      have hk := Except.ok.inj hk
      exact ⟨(congrArg Prod.fst hk).symm, (congrArg (Prod.fst ∘ Prod.snd) hk).symm,
        (congrArg (Prod.snd ∘ Prod.snd) hk).symm⟩
    obtain rfl : source = fun _ => t.content (valueSlot j) := funext fun k => (hthree' k).1
    obtain rfl : index = fun _ => i := funext fun k => (hthree' k).2.1
    obtain rfl : dy = fun k => (s k).content (valueSlot p.place + 1) := funext fun k =>
      (hthree' k).2.2
    have hsum := (hc.alike j rfl _ hreads.source.shape).scatter hreads.source hreads.index
      hreads.selects ((hs _ hplace).alike p.place rfl _ hreads.part)
      (fun k => (hown _ hb k).realOver hreads.part) htarget hu
    refine alikeIn_der (fun s' hs' => ?_) fun hunfilled => ?_
    · rw [← hreads.source.eq_of_shape hs']
      exact hsum
    · -- The source's derivative is filled.
      obtain ⟨k⟩ := ‹Nonempty ι›
      have hfed : p.layer.feedsNode (slotIn nodes) j = true := by rw [hreads.feedsNode hb]; simp
      have := hfills k j _ _ .slice hlayer hfed hb.op rfl
      rw [hunfilled k] at this
      cases this

/-! ### Two runs -/

/-- The seeds of two runs: a plain number, and an array of its copies. -/
def seedOf {F : Type} (s : Shape) (z : F) : Bool → Value F
  | true => .array ⟨.float64, Grid.full s z⟩
  | false => .real z

omit [Field K] [ExactArith K] in
theorem isDerivative_seedOf {x : Value K} {s : Shape} (hx : x.shape = .ok s) (z : K)
    (whole : Bool) :
    IsDerivative whole x (seedOf s z whole) := by
  cases whole with
  | true => exact ⟨s, hx, realShaped_array rfl⟩
  | false => exact ⟨z, rfl⟩

omit [ExactArith K] [Field K] in
/-- The two seeds stand for one array. -/
theorem alike_seedOf (s : Shape) (z : K) : Alike s (seedOf s z) := by
  refine ⟨fun _ => z, fun whole => ?_⟩
  cases whole with
  | true =>
    refine ⟨rfl, _, rfl, Shape.Fits.refl s, fun i hi => ?_⟩
    rw [Tensor.spread_toReals, Grid.spread_of_mem hi]
    exact Grid.at_ofFn hi
  | false => exact ⟨rfl, .single z, rfl, Shape.fits_nil s, fun _ _ => Grid.spread_single ..⟩

variable {o : EvalOptions K} {r : RunState K} {t : Store K} {s : Shape} {z : K}

omit [Field K] [ExactArith K] in
/-- An evaluation completes from a number, if it does from an array of copies and the number
will do where it is passed on. -/
theorem Streams.number_completes (h : Streams nodes layers net) (ho : Ordered nodes)
    (hne : nodes ≠ []) (hkept : ∀ whole slot, slot ∈ keptSlots net ⟨seedOf s z whole, false⟩ ↔
      false = true ∧ ∃ k, (nodes[k]?).map Node.kind = some .param ∧
        slot = ((valueSlot k + 1 : Nat) : Int)) (hF : Arith.FiniteUpTo K bound)
    (hcall : RunsBuiltins call) (hsize : r.store.size = 2 * nodes.length)
    (hforward : (runForward call .forward net.forward r).Leaves t)
    (hlayers : ∀ k a, (k, a) ∈ layersOf nodes → a.Works (slotIn nodes) →
      ∃ b : Builtin, b.Conforms bound (slotIn nodes) t a)
    (hroot : ∀ k, k + 1 = nodes.length → (t.content (valueSlot k)).shape = .ok s)
    (hnumber : ∀ k a, (k, a) ∈ layersOf nodes → filledBy true nodes k = true →
      filledBy false nodes k = false → a.TakesNumber (slotIn nodes) t k)
    (hdone : (evaluate call net .normal ⟨seedOf s z true, false⟩ r).error = none) (whole : Bool) :
    (evaluate call net .normal ⟨seedOf s z whole, false⟩ r).error = none ∧
      Derived nodes t (filledBy whole nodes)
        (evaluate call net .normal ⟨seedOf s z whole, false⟩ r).state.store := by
  have hboth := fun whole => h.evaluate_completes_iff (o := ⟨seedOf s z whole, false⟩) ho hne
    (hkept whole) hF hcall rfl hsize hforward hlayers fun k hk =>
      isDerivative_seedOf (hroot k hk) z whole
  refine (fun hcompleted => ⟨hcompleted, (hboth whole).2 hcompleted⟩) ?_
  obtain ⟨-, haccepts⟩ := (hboth true).1.mp hdone
  cases whole with
  | true => exact hdone
  | false =>
    refine (hboth false).1.mpr ⟨rfl, fun k a hL => ?_⟩
    cases htrue : filledBy true nodes k with
    | false =>
      -- Neither pass fills the derivative.
      have hfalse : filledBy false nodes k = false := by
        rw [← Bool.not_eq_true]
        intro hfilled
        rw [filledBy_true_of_false hfilled] at htrue
        cases htrue
      rw [hfalse, ← htrue]
      exact haccepts k a hL
    | true =>
      cases hfalse : filledBy false nodes k with
      | true =>
        rw [← htrue]
        exact haccepts k a hL
      | false => exact fun hworks b hb => (hnumber k a hL htrue hfalse hworks b hb).accepts

/-- **A plain number as the seed.**  Let the forward pass of a net of built-in ops complete,
with every layer that takes part in the backward pass within its conventions.  A number is
passed back as it is by the identity alone.  Let no layer that it reaches so be a sum or
difference that stretches an operand, a product of matrices or a change of shape of several
members.  If evaluation in normal mode completes from an array of copies of the number, it
completes from the number.  The derivatives of each node then stand for one array of the shape
of its value. -/
theorem derivatives_of_number [Interchange K] {checks : Checks K} {known : Node K → Bool}
    {roots : Option (List Handle)} {options : Options K} {c : Compilation K}
    (hc : compileNodes checks known nodes roots options = .ok c) (ho : Ordered nodes)
    (hF : Arith.FiniteUpTo K bound) (hcall : RunsBuiltins call)
    (hforward : (evaluate call c.net .forward o r).Leaves t)
    (hlayers : ∀ k a, (k, a) ∈ layersOf nodes → a.Works (slotIn nodes) →
      ∃ b : Builtin, b.Conforms bound (slotIn nodes) t a)
    (hroot : ∀ k, k + 1 = nodes.length → (t.content (valueSlot k)).shape = .ok s)
    (hnumber : ∀ k a, (k, a) ∈ layersOf nodes → filledBy true nodes k = true →
      filledBy false nodes k = false → a.TakesNumber (slotIn nodes) t k)
    (hdone : (evaluate call c.net .normal ⟨seedOf s z true, false⟩ r).error = none) :
    (evaluate call c.net .normal ⟨seedOf s z false, false⟩ r).error = none ∧
      ∀ k, k < nodes.length → ∀ q, (t.content (valueSlot k)).shape = .ok q → Alike q fun whole =>
        (evaluate call c.net .normal ⟨seedOf s z whole, false⟩ r).state.store.content
          (valueSlot k + 1) := by
  obtain ⟨hne, names, heads, hlen, hnet⟩ := compileNodes_assembled hc
  have h := assemble_streams hlen hnet
  obtain ⟨hsize, hforward⟩ := h.leaves_of_forward hforward
  have hall := h.number_completes ho hne (fun _ _ => mem_keptSlots hlen hnet) hF hcall
    hsize hforward hlayers hroot hnumber hdone
  refine ⟨(hall false).1, ?_⟩
  obtain ⟨hlast, hevaluated⟩ := h.evaluated ho hsize hforward hlayers
  have hsource : ∀ p ∈ placedLayers nodes names, p.layer.op.scatter = true →
      ∃ m rest, p.layer.args = .node m :: rest := by
    intro p hp hscatter
    obtain ⟨m, i, hargs, -⟩ := ((hevaluated p hp).conforms_slice hscatter).source rfl
    exact ⟨m, [i], hargs⟩
  have hseed : ∀ j, j + 1 = nodes.length →
      AlikeIn (fun whole => filledBy whole nodes) t.content (valueSlot j + 1) (seedOf s z) := by
    intro j hj
    refine alikeIn_der (fun q hq => ?_) fun hunfilled => ?_
    · obtain rfl : s = q := Except.ok.inj ((hroot j hj).symm.trans hq)
      exact alike_seedOf s z
    · have hfilled := (filledBy_iff ho).mpr (.inl ⟨rfl, hj⟩)
      rw [hunfilled true] at hfilled
      cases hfilled
  -- What is filled from the number is filled from its copies, so only one of the two cases is
  -- left.
  have hmixed : ∀ p ∈ placedLayers nodes names, ∀ i i', filledBy i nodes p.place = true →
      filledBy i' nodes p.place = false → p.layer.TakesNumber (slotIn nodes) t p.place := by
    intro p hp i i' hi hi'
    have htrue : filledBy true nodes p.place = true := by
      cases i with
      | true => exact hi
      | false => exact filledBy_true_of_false hi
    cases i' with
    | true => exact absurd htrue (by simp [hi'])
    | false => exact hnumber _ _ (h.mem_layersOf hp) htrue hi'
  -- At every time the two runs have derivatives that stand for one array.
  have hrelated := (h.evaluate_related
    (C := AlikeIn (fun whole => filledBy whole nodes) t.content) ho hne hsource
    (fun _ _ => mem_keptSlots hlen hnet) (fun whole => (hall whole).1) (fun _ => rfl) true
    (fun k v heven hv => alikeIn_value heven fun i => (hv i).trans ((hall true).2.values k heven))
    hseed (fun j _ => alikeIn_der (fun q _ => (realShaped_real _).alike (Shape.fits_nil q))
      fun _ => (realShaped_real _).alike (Shape.Fits.refl []))
    fun _ _ p hp u hsizes hu hargs =>
      h.stepKeeps_alike ho hF hcall hlast (fun whole => (hall whole).2)
      (fun whole j k a b hL hfed hb hfills => filledBy_of_feeds ho hL hfed hb hfills) hp
      (hevaluated p hp) (hmixed p hp) hsizes hu hargs).2
  intro k hk q hq
  exact (hrelated _ (valueSlot_succ_lt.mpr hk)).alike k rfl q hq

end

/-- A matrix times a vector that is stretched over its rows. -/
def stretchedFactor : List (Node ℚ) :=
  [⟨0, bareLabel, .param ⟨.array ⟨.float64, Grid.ofFn [2, 3] fun _ => 1⟩, .none, .none, .gradient⟩⟩,
    ⟨1, bareLabel, .param ⟨.array ⟨.float64, Grid.ofFn [3] fun _ => 1⟩, .none, .none, .gradient⟩⟩,
    ⟨2, bareLabel,
      .layer ⟨Builtin.times.op, [.node ⟨0, .param, ""⟩, .node ⟨1, .param, ""⟩], [], .same,
      .same, [], none⟩⟩]

theorem derivatives_of_number_stretched_factor :
    ∃ c, compileNodes [] (fun _ => true) stretchedFactor none plainOptions = .ok c ∧
      (evaluate builtinCalls c.net .normal ⟨.real 1, false⟩ ⟨c.store, [], none⟩).error = none ∧
      Value.Alike [3] fun whole => (evaluate builtinCalls c.net .normal
        ⟨seedOf [2, 3] 1 whole, false⟩ ⟨c.store, [], none⟩).state.store.content 3 := by
  obtain ⟨c, hc⟩ := exists_of_isOk
    (show (compileNodes [] (fun _ => true) stretchedFactor none plainOptions).isOk = true from rfl)
  have hF : Arith.FiniteUpTo ℚ 16 := Arith.FiniteInts.upTo (by decide)
  have ho : Ordered stretchedFactor := ⟨by decide, violations_eq_nil_iff.mp rfl⟩
  have hforward : (evaluate builtinCalls c.net .forward ⟨.real 1, false⟩
      ⟨c.store, [], none⟩).error = none := by
    cases hc
    decide +kernel
  have hdone : (evaluate builtinCalls c.net .normal ⟨seedOf [2, 3] 1 true, false⟩
      ⟨c.store, [], none⟩).error = none := by
    cases hc
    decide +kernel
  -- What the conditions on the layer are about is known after the forward pass.
  set t := (evaluate builtinCalls c.net .forward ⟨.real 1, false⟩
      ⟨c.store, [], none⟩).state.store with ht
  have hvalues : t.content 0 = .array ⟨.float64, Grid.ofFn [2, 3] fun _ => 1⟩ ∧
      t.content 2 = .array ⟨.float64, Grid.ofFn [3] fun _ => 1⟩ ∧
      (t.content 4).shape = .ok [2, 3] := by
    rw [ht]
    cases hc
    exact ⟨rfl, rfl, rfl⟩
  have hwithin : ∀ s : Shape, s.size ≤ 16 →
      (Value.array ⟨.float64, Grid.ofFn s fun _ => (1 : ℚ)⟩).Within 16 := fun s hs =>
    ⟨⟨s, Value.shaped_array _⟩, (fun n hn => by cases hn), fun s hs' => by cases hs'; exact hs⟩
  have hlayers : ∀ k a, (k, a) ∈ layersOf stretchedFactor → a.Works (slotIn stretchedFactor) →
      ∃ b : Builtin, b.Conforms 16 (slotIn stretchedFactor) t a := by
    intro k a hL _
    cases List.mem_singleton.mp hL
    refine ⟨.times, rfl, nofun, nofun, nofun, by decide, fun x hx => ?_, trivial, nofun⟩
    rcases List.mem_cons.mp hx with rfl | hx
    · change (t.content 0).Within 16
      rw [hvalues.1]
      exact hwithin _ (by decide)
    · cases List.mem_singleton.mp hx
      change (t.content 2).Within 16
      rw [hvalues.2.1]
      exact hwithin _ (by decide)
  have hroot : ∀ k, k + 1 = stretchedFactor.length →
      (t.content (valueSlot k)).shape = .ok [2, 3] := by
    intro k hk
    obtain rfl : k = 2 := Nat.succ.inj hk
    exact hvalues.2.2
  obtain ⟨hnumber, halike⟩ := derivatives_of_number (z := 1) hc ho hF runsBuiltins_builtinCalls
    ⟨hforward, rfl⟩ hlayers hroot
    (fun k a hL _ _ _ b hb => by
      cases List.mem_singleton.mp hL
      obtain rfl := Builtin.op_injective hb
      trivial) hdone
  exact ⟨c, hc, hnumber, halike 1 (by decide) [3] (hvalues.2.1 ▸ rfl)⟩

/-- A matrix plus a vector that is stretched over its rows. -/
def stretchedSummand : List (Node ℚ) :=
  [⟨0, bareLabel, .param ⟨.array ⟨.float64, Grid.ofFn [2, 3] fun _ => 1⟩, .none, .none, .gradient⟩⟩,
    ⟨1, bareLabel, .param ⟨.array ⟨.float64, Grid.ofFn [3] fun _ => 1⟩, .none, .none, .gradient⟩⟩,
    ⟨2, bareLabel,
      .layer ⟨Builtin.plus.op, [.node ⟨0, .param, ""⟩, .node ⟨1, .param, ""⟩], [], .same,
      .same, [], none⟩⟩]

theorem scalar_seed_of_stretched_summand :
    ∃ c, compileNodes [] (fun _ => true) stretchedSummand none plainOptions = .ok c ∧
      (evaluate builtinCalls c.net .normal ⟨.array ⟨.float64, Grid.full [2, 3] 1⟩, false⟩
        ⟨c.store, [], none⟩).error = none ∧
      ((evaluate builtinCalls c.net .normal ⟨.array ⟨.float64, Grid.full [2, 3] 1⟩, false⟩
        ⟨c.store, [], none⟩).state.store.content (valueSlot 1 + 1)).figures?.map
          Grid.toList = some [2, 2, 2] ∧
      (evaluate builtinCalls c.net .normal ⟨.real 1, false⟩ ⟨c.store, [], none⟩).error = none ∧
      ((evaluate builtinCalls c.net .normal ⟨.real 1, false⟩
        ⟨c.store, [], none⟩).state.store.content (valueSlot 1 + 1)).figures?.map
          Grid.toList = some [1, 1, 1] := by
  obtain ⟨c, hc⟩ := exists_of_isOk
    (show (compileNodes [] (fun _ => true) stretchedSummand none plainOptions).isOk = true from rfl)
  cases hc
  refine ⟨_, rfl, ?_, ?_, ?_, ?_⟩
  · decide +kernel
  · decide +kernel
  · decide +kernel
  · decide +kernel

end SlotGrad
