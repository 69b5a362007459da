import SlotGrad.Proofs.Assembly
import SlotGrad.Proofs.Calls
import SlotGrad.Proofs.Lockstep
import SlotGrad.Proofs.SparseUpdate

/-!
# Sparse updates over a whole pass

An indexing layer adds the derivative of its output into the derivative of its source in place,
instead of having its adjoint make an array of the source's size that is then added.  Here a net
is compared with the same net in which another op stands in the place of indexing: one with the
same functions whose adjoint is called.  The passes are run in lockstep.  The instructions of
other layers are the same up to names; those of an indexing layer leave the same by
`scatter_iff_adjoint`, if the derivatives involved are numbers or arrays of one precision.

What the passes must keep to is asked of the states that the first one reaches, so a step that
is not reached asks nothing.

## Main definitions

* `IsDense`, `Node.densified` — an op that calls the adjoint of indexing, and a net with it.
* `OnePrecision` — what an evaluation must keep to: all arrays of derivatives have one
  precision, and what is added to the derivative of an indexed node is a number or has the
  node's shape.
* `Lockstep` — alike states over a store of the net's size with fit sources.

## Main results

* `backwardStep_slice` — the two ways of passing the derivative of a part on leave the same.
* `Streams.backward_lockstep` — the backward passes of both nets keep in lockstep.
* `sparse_pass_agrees` — an evaluation of either net completes exactly if the other one does,
  and they leave the same in every slot.
-/

namespace SlotGrad

open RunState Outcome

variable {F : Type} [Arith F]

/-! ### An indexing layer both ways -/

/-- An op that reads like indexing and calls the adjoint of indexing in the backward pass. -/
structure IsDense (op : Op) : Prop where
  /-- The forward function is that of indexing. -/
  forward : op.forward = Builtin.slice.forward
  /-- The adjoint is that of indexing. -/
  adjoint : op.adjoint = some Builtin.slice.adjoint
  /-- The backward pass calls it. -/
  scatter : op.scatter = false

/-- A layer with another op in the place of indexing. -/
def Application.densified (op : Op) (a : Application F) : Application F :=
  if a.op = Builtin.slice.op then { a with op := op } else a

/-- A completed sparse update, written down. -/
theorem scatterStep_eq_done {i : Instruction F} {args : List (Value F)} {r : RunState F} {k : Nat}
    {source index dy target v : Value F} (hvar : (i.inputVars.head?).map derSlot = some (k : Int))
    (hk : k < r.store.size) (hargs : scatterArguments args = .ok (source, index, dy))
    (htarget : scatterTarget (r.owned.contains (k : Int)) (r.store.content k) source dy
      = .ok target)
    (hv : addInto target index dy = .ok v) :
    scatterStep i args r = .done ((r.put (k : Int) (r.store.setAt k target)).put (k : Int)
      ((r.store.setAt k target).setAt k v)) := by
  obtain ⟨var, hhead, hslot⟩ := Option.map_eq_some_iff.mp hvar
  have hfirst : r.store.set (k : Int) target = .ok (r.store.setAt k target) :=
    Store.set_natCast hk target
  have hsecond : (r.store.setAt k target).set (k : Int) v
      = .ok ((r.store.setAt k target).setAt k v) := Store.set_natCast (by rwa [Store.size_setAt]) v
  unfold scatterStep
  simp only [hargs, hhead, hslot, Fallible.ofOption, Store.get_natCast hk, htarget, hfirst, hv,
    hsecond, bind, Except.bind, pure, Except.pure, liftM_eq_lift, Fallible.lift_ok, attempt_ok,
    done_andThen, RunState.put]

omit [Arith F] in
@[simp] theorem Store.setAt_setAt (s : Store F) (k : Nat) (v w : Value F) :
    (s.setAt k v).setAt k w = s.setAt k w := by
  refine Store.ext_content (by simp) fun n => ?_
  by_cases hn : n = k
  · subst hn
    by_cases hlt : n < s.size
    · rw [content_setAt_self (by simpa using hlt), content_setAt_self hlt]
    · rw [content_of_le (by simpa using hlt), content_of_le (by simpa using hlt)]
  · rw [content_setAt_of_ne _ hn, content_setAt_of_ne _ hn, content_setAt_of_ne _ hn]

/-- A sum written to a slot of a store. -/
theorem Store.accumulate_natCast {s : Store F} {k : Nat} (hk : k < s.size) (v : Value F) :
    s.accumulate (k : Int) v = ((s.content k).plus v).map (s.setAt k) := by
  unfold Store.accumulate Value.plus
  simp only [Store.get_natCast hk, bind, Except.bind]
  cases (if (s.content k).isNone = true then Store.zero else s.content k).add v with
  | error f => rfl
  | ok u => exact Store.set_natCast hk u

/-- A single array that an adjoint answers is added to the derivative of the operand. -/
theorem adjointStep_array {call : Calls F} {i : Instruction F} {f : Fn} {args : List (Value F)}
    {r : RunState F} {j : Nat} {t : Tensor F} (hf : i.function? = some f)
    (hcall : call f ⟨args, i.kwargs⟩ = .ok (.array t))
    (hoperands : operands i = [(((valueSlot j : Nat) : Int), 0)])
    (hj : valueSlot j + 1 < r.store.size) :
    adjointStep call i (.whole 1) args r = .attempt r
      (((r.store.content (valueSlot j + 1)).plus (.array t)).lift.map fun v =>
        r.put ((valueSlot j + 1 : Nat) : Int) (r.store.setAt (valueSlot j + 1) v)) := by
  have haccumulate : r.store.accumulate (derSlot ((valueSlot j : Nat) : Int)) (.array t)
      = ((r.store.content (valueSlot j + 1)).plus (.array t)).map
          (r.store.setAt (valueSlot j + 1)) :=
    Store.accumulate_natCast hj _
  have hcontribute : contribute [.array t] (((valueSlot j : Nat) : Int), 0) r = .attempt r
      (((r.store.content (valueSlot j + 1)).plus (.array t)).lift.map fun v =>
        r.put ((valueSlot j + 1 : Nat) : Int) (r.store.setAt (valueSlot j + 1) v)) := by
    unfold contribute
    have hresult : resultAt [Value.array t] (0 : Int) = .ok (some (.array t)) := rfl
    dsimp only
    rw [hresult]
    change attempt r (do
      let s ← r.store.accumulate (derSlot ((valueSlot j : Nat) : Int)) (.array t)
      return r.put (derSlot ((valueSlot j : Nat) : Int)) s) = _
    rw [haccumulate]
    cases (r.store.content (valueSlot j + 1)).plus (.array t) <;> rfl
  unfold adjointStep
  dsimp only
  rw [hf]
  dsimp only
  rw [hcall]
  change runAll (contribute [.array t]) (operands i) r = _
  rw [hoperands, runAll_cons, hcontribute]
  cases (r.store.content (valueSlot j + 1)).plus (.array t) <;> rfl

variable {K : Type} [Field K] [Arith K] [ExactArith K]

section

variable {nodes : List (Node K)} {op : Op} {p p' : Placed K} {k k' : Nat} {r r' : RunState K}
  {d : Dtype} {call : Calls K} {h : Handle} {j : Nat}

/-- What both ways of passing the derivative of a part on leave: alike states, in which only the
derivative of the source was written. -/
def Lands (d : Dtype) (s : Shape) (j : Nat) (r t t' : RunState K) : Prop :=
  t.Alike t' ∧ ∃ v, t.store = r.store.setAt (valueSlot j + 1) v ∧ v.IsPart d s

/-- A sparse update and a call of the dense adjoint on the same arguments. -/
theorem scatterStep_agree (hcall : RunsBuiltins call) (hd : d.isReal = true) (halike : r.Alike r')
    (hj : valueSlot j + 1 < r.store.size) {i i' : Instruction K}
    (hvar : (i.inputVars.head?).map derSlot = some ((valueSlot j + 1 : Nat) : Int))
    (hfunction : i'.function? = some Builtin.slice.adjoint) (hnamed : i'.kwargs = [])
    (hoperand : operands i' = [(((valueSlot j : Nat) : Int), 0)]) {x : Tensor K}
    {index dy : Value K} (hmeets : Meets d x (r.store.content (valueSlot j + 1)) dy) :
    Agree (Lands d x.shape j r) (scatterStep i [.array x, index, dy] r)
      (adjointStep call i' (.whole 1) [.array x, index, dy] r') := by
  have hanswer : call Builtin.slice.adjoint ⟨[.array x, index, dy], i'.kwargs⟩
      = (Kernel.sliceAdjoint (.array x) index dy).lift := by
    rw [hnamed]
    exact hcall.adjoint .slice _
  -- A sparse update that completes has added what the dense adjoint answers.
  have hsparse : (scatterStep i [.array x, index, dy] r).error = none →
      ∃ dx v, Kernel.sliceAdjoint (.array x) index dy = .ok dx ∧
        (r.store.content (valueSlot j + 1)).plus dx = .ok v := by
    intro hdone
    obtain ⟨-, source, index', dy', target, v, hthree, htarget, hadd, -⟩ :=
      scatterStep_completed hvar hdone
    cases hthree
    obtain ⟨dx, hdx, hv⟩ := (scatter_iff_adjoint hd _ hmeets).mp ⟨target, htarget, hadd⟩
    exact ⟨dx, v, hdx, hv⟩
  cases hdx : Kernel.sliceAdjoint (.array x) index dy with
  | error f =>
    -- Neither way completes if the adjoint answers nothing.
    have hdense : (adjointStep call i' (.whole 1) [.array x, index, dy] r').error ≠ none := by
      rw [hdx] at hanswer
      unfold adjointStep
      dsimp only
      rw [hfunction]
      dsimp only
      rw [hanswer]
      simp [Fallible.lift, Except.mapError, bind, Except.bind]
    refine agree_of_error (fun hdone => ?_) hdense
    obtain ⟨dx, -, h, -⟩ := hsparse hdone
    rw [hdx] at h
    cases h
  | ok dx =>
    have hpart := sliceAdjoint_isPart hd hmeets.source hdx
    obtain ⟨t, rfl⟩ : ∃ t, dx = .array t := by
      unfold Kernel.sliceAdjoint at hdx
      obtain ⟨_, -, hdx⟩ := bind_eq_ok.mp hdx
      obtain ⟨_, -, hdx⟩ := bind_eq_ok.mp hdx
      obtain ⟨t, -, hdx⟩ := bind_eq_ok.mp hdx
      exact ⟨t, (pure_eq_ok.mp hdx).symm⟩
    rw [hdx] at hanswer
    have hdense := adjointStep_array (r := r') hfunction hanswer hoperand
      (by rw [halike.store]; exact hj)
    rw [halike.store] at hdense
    cases hv : (r.store.content (valueSlot j + 1)).plus (.array t) with
    | error f =>
      rw [hdense, hv]
      refine agree_of_error (fun hdone => ?_) (by simp [Fallible.lift, Except.mapError, Except.map])
      obtain ⟨dx, v, h, hplus⟩ := hsparse hdone
      rw [hdx] at h
      cases h
      rw [hv] at hplus
      cases hplus
    | ok v =>
      -- Both complete, and the two stores hold the same sum.
      obtain ⟨target, htarget, hadd⟩ := (scatter_iff_adjoint hd
        (r.owned.contains ((valueSlot j + 1 : Nat) : Int)) hmeets).mpr ⟨_, hdx, hv⟩
      rw [hdense, hv, scatterStep_eq_done hvar hj rfl htarget hadd, Store.setAt_setAt]
      refine agree_done ⟨⟨rfl, fun slot => ?_⟩, v, rfl, Value.plus_isPart hd hmeets.part hpart hv⟩
      simp [RunState.put, halike.owned slot]

/-- The backward instruction of an indexing layer with a node and a constant index leaves the same
derivative of the node whether it runs a sparse update or the dense adjoint. -/
theorem backwardStep_slice (hcall : RunsBuiltins call) (hop : IsDense op) (hd : d.isReal = true)
    (halike : r.Alike r') (hsize : r.store.size = 2 * nodes.length)
    (hplace : p.place < nodes.length) (hslice : p.layer.op = Builtin.slice.op) {index : Value K}
    (hargs : p.layer.args = [.node h, index]) (hindex : index.node? = none)
    (htext : index.isText = false) (hkwargs : p.layer.kwargs = [])
    (hcount : p.layer.derCount = none) (hslot : slotIn nodes h = some (valueSlot j))
    (hp' : p'.place = p.place) (hlayer : p'.layer = { p.layer with op := op }) {x : Tensor K}
    (hx : r.store.content (valueSlot j) = .array x)
    (hmeets : Meets d x (r.store.content (valueSlot j + 1))
      (r.store.content (valueSlot p.place + 1))) :
    Agree (Lands d x.shape j r) (backwardStep call (backwardOf (slotIn nodes) p, k) r)
      (backwardStep call (backwardOf (slotIn nodes) p', k') r') := by
  have hslots := slotIn_lt_size hsize
  have hown : valueSlot p.place + 1 < r.store.size := hsize ▸ valueSlot_succ_lt.mpr hplace
  -- Neither argument is a text, so the output's derivative comes behind both.
  have hseed : seedPlace [.node h, index] = 2 := by
    unfold seedPlace
    rw [List.findIdx_cons, List.findIdx_cons, htext]
    rfl
  have hbound : adjointArguments (slotIn nodes) r.store p.place p.layer.args
      = [.array x, index, r.store.content (valueSlot p.place + 1)] := by
    rw [hargs]
    unfold adjointArguments
    rw [hseed]
    change [r.store.argument (slotIn nodes) (.node h), r.store.argument (slotIn nodes) index, _] = _
    rw [Store.argument_node, hslot, Store.argument_of_not_node _ _ hindex, Option.map_some,
      Option.getD_some, hx]
  have hoperands : ∀ m, operandSlots (slotIn nodes) m [.node h, index]
      = [(((valueSlot j : Nat) : Int), (m : Int))] := by
    intro m
    rw [operandSlots, Value.node?_node, Option.bind_some, hslot]
    dsimp only
    rw [operandSlots, hindex, Option.bind_none]
    rfl
  have hadjoint : adjointOperands (slotIn nodes) p.layer.args
      = [(((valueSlot j : Nat) : Int), 0)] := by
    rw [hargs]
    unfold adjointOperands
    rw [hseed]
    change operandSlots (slotIn nodes) 0 [.node h, index] ++ [] = _
    rw [List.append_nil, hoperands]
    rfl
  have hcountOf : derCountOf (slotIn nodes) p.layer = .whole 1 := by
    unfold derCountOf
    rw [hcount, hargs, hoperands]
    rfl
  have hvar : ((backwardOf (slotIn nodes) p).inputVars.head?).map derSlot
      = some ((valueSlot j + 1 : Nat) : Int) := by
    unfold backwardOf
    dsimp only
    rw [hadjoint]
    rfl
  -- Both instructions are given the same arguments, and differ in what they do with them.
  have hbind := backwardOf_bind hslots p hown
  have hbind' := backwardOf_bind (s := r'.store) (by rwa [halike.store]) p'
    (by rwa [halike.store, hp'])
  rw [hbound] at hbind
  rw [halike.store, hp', hlayer, hbound] at hbind'
  have hscatter : (backwardOf (slotIn nodes) p).op.scatter = true := by
    change p.layer.op.scatter = true
    rw [hslice]
    rfl
  have hscatter' : ¬ (backwardOf (slotIn nodes) p').op.scatter = true := by
    change ¬ p'.layer.op.scatter = true
    rw [hlayer, hop.scatter]
    exact Bool.false_ne_true
  have hder : (backwardOf (slotIn nodes) p').derCount = some (.whole 1) := by
    change some (derCountOf (slotIn nodes) p'.layer) = _
    rw [hlayer]
    exact congrArg some hcountOf
  unfold backwardStep
  dsimp only
  rw [hbind, halike.store, hbind']
  dsimp only
  rw [if_pos hscatter, if_neg hscatter', hder]
  refine agree_andThen (R := Lands d x.shape j r) ?_ fun s t _ hst =>
    agree_done ⟨hst.1.record .., hst.2⟩
  refine scatterStep_agree hcall hd halike ?_ hvar ?_ ?_ ?_ hmeets
  · have := slotIn_lt hslot
    omega
  · change p'.layer.op.adjoint = _
    rw [hlayer]
    exact hop.adjoint
  · change p'.layer.kwargs = []
    rw [hlayer]
    exact hkwargs
  · rw [operands_backwardOf, hlayer]
    exact hadjoint

end

/-! ### The net with the dense op -/

section

omit [Arith F]

/-- A node with another op in the place of indexing. -/
def Node.densified (op : Op) (n : Node F) : Node F :=
  match n.role with
  | .layer a => { n with role := .layer (a.densified op) }
  | _ => n

theorem Node.id_densified (op : Op) (n : Node F) : (n.densified op).id = n.id := by
  unfold densified
  split <;> rfl

theorem Node.kind_densified (op : Op) (n : Node F) : (n.densified op).kind = n.kind := by
  obtain ⟨id, label, role⟩ := n
  cases role <;> rfl

theorem Node.application?_densified (op : Op) (n : Node F) :
    (n.densified op).application? = n.application?.map (Application.densified op) := by
  obtain ⟨id, label, role⟩ := n
  cases role <;> rfl

theorem layersOf_densified (op : Op) (nodes : List (Node F)) :
    layersOf (nodes.map (Node.densified op))
      = (layersOf nodes).map fun L => (L.1, L.2.densified op) := by
  unfold layersOf
  rw [List.zipIdx_map, List.filterMap_map, List.map_filterMap]
  refine List.filterMap_congr fun q _ => ?_
  simp only [Function.comp_apply, Prod.map, Node.application?_densified, Option.map_map]
  rfl

/-- Nodes keep their slots. -/
theorem slotIn_densified (op : Op) (nodes : List (Node F)) :
    slotIn (nodes.map (Node.densified op)) = slotIn nodes := by
  funext h
  unfold slotIn position?
  rw [List.zipIdx_map, List.filter_map, List.getLast?_map, Option.map_map]
  simp only [Function.comp_def, Prod.map, Node.id_densified, Option.map_map]
  rfl

/-- The layers of the two nets correspond. -/
theorem Streams.densified {op : Op} {nodes : List (Node F)} {layers layers' : List (Placed F)}
    {net net' : CompiledNet F} (h : Streams nodes layers net)
    (h' : Streams (nodes.map (Node.densified op)) layers' net') :
    layers'.map (fun p => (p.place, p.layer))
      = layers.map fun p => (p.place, p.layer.densified op) := by
  rw [h'.places, layersOf_densified, ← h.places, List.map_map]
  rfl

/-- An indexing layer with a node, a constant index, and the number of derivatives that is
inferred. -/
structure ConstantIndex (a : Application F) : Prop where
  /-- The first argument is a node and no other one is. -/
  args : ∃ h rest, a.args = .node h :: rest ∧ ∀ v ∈ rest, v.node? = none
  /-- The number of derivatives is inferred. -/
  derCount : a.derCount = none

/-- The node at a place is the source of an indexing layer. -/
def Indexed (nodes : List (Node F)) (j : Nat) : Prop :=
  ∃ k a h, (k, a) ∈ layersOf nodes ∧ a.op = Builtin.slice.op ∧ a.args.head? = some (.node h) ∧
    slotIn nodes h = some (valueSlot j)

end

/-- A state of an evaluation in normal mode: the one after some backward instructions. -/
def Reaches (call : Calls F) (c : CompiledNet F) (o : EvalOptions F) (r : RunState F) (n : Nat)
    (t : RunState F) : Prop :=
  ∃ q, (runForward call .forward c.forward r).andThen (seedDers c o) = .done q ∧
    runAll (backwardStep call) (c.backward.zipIdx.take n) { q with owned := [] } = .done t

/-- The sources of indexing layers are arrays with axes, and their derivatives are unset, numbers or
arrays of the sources' shapes. -/
def SourcesFit (d : Dtype) (nodes : List (Node F)) (s : Store F) : Prop :=
  ∀ j, Indexed nodes j → ∃ x, s.content (valueSlot j) = .array x ∧ x.shape ≠ [] ∧
    ((s.content (valueSlot j + 1)).isNone = false → (s.content (valueSlot j + 1)).IsPart d x.shape)

/-- What an evaluation must keep to: all arrays of derivatives have one precision, and what is added
to the derivative of an indexed node is a number or has the node's shape. -/
structure OnePrecision (call : Calls F) (nodes : List (Node F)) (c : CompiledNet F)
    (o : EvalOptions F) (r : RunState F) (d : Dtype) : Prop where
  /-- The precision is one of real numbers. -/
  real : d.isReal = true
  /-- Sources are arrays with axes, and the derivatives that they start with fit them. -/
  start : ∀ t, Reaches call c o r 0 t → SourcesFit d nodes t.store
  /-- An indexing layer makes arrays of the precision. -/
  indexing : ∀ n t k a h j x, Reaches call c o r n t → (layersOf nodes).reverse[n]? = some (k, a) →
    a.op = Builtin.slice.op → a.args.head? = some (.node h) → slotIn nodes h = some (valueSlot j) →
    t.store.content (valueSlot j) = .array x →
    (Value.array x).commonDtype (t.store.content (valueSlot k + 1)) = .ok d ∧
      ((t.store.content (valueSlot j + 1)).isPlain = true →
        Store.isZeroValue (t.store.content (valueSlot j + 1)) = false →
        (t.store.content (valueSlot j + 1)).commonDtype (t.store.content (valueSlot k + 1)) = .ok d)
  /-- What an adjoint contributes to a source is a number or has the source's shape. -/
  adjoints : ∀ n t k a out j x, Reaches call c o r n t →
    (layersOf nodes).reverse[n]? = some (k, a) → a.op.scatter = false →
    adjointAnswer call (derCountOf (slotIn nodes) a) a
      (adjointArguments (slotIn nodes) t.store k a.args) = .ok out →
    Indexed nodes j → t.store.content (valueSlot j) = .array x →
    ∀ v ∈ picks out j (adjointOperands (slotIn nodes) a.args), v.IsPart d x.shape
  /-- What another sparse update leaves in a source's derivative is a number or has its shape. -/
  scatters : ∀ n t k a, Reaches call c o r (n + 1) t → (layersOf nodes).reverse[n]? = some (k, a) →
    a.op.scatter = true → a.op ≠ Builtin.slice.op → SourcesFit d nodes t.store

/-! ### Whole passes -/

/-- Every step of a completed run completed in a state that the run reached. -/
theorem runAll_prefix {α σ : Type} {step : α → σ → Outcome σ} {as : List α} {s : σ}
    (hdone : (runAll step as s).error = none) {n : Nat} {a : α} (ha : as[n]? = some a) :
    ∃ s', runAll step (as.take n) s = .done s' ∧ (step a s').error = none := by
  obtain ⟨hlt, rfl⟩ := List.getElem?_eq_some_iff.mp ha
  rw [← List.take_append_drop n as, List.drop_eq_getElem_cons hlt, runAll_append_completed,
    runAll_cons_completed] at hdone
  refine ⟨_, ?_, hdone.2.1⟩
  generalize runAll step (as.take n) s = o at hdone
  obtain ⟨t, e⟩ := o
  obtain rfl : e = none := hdone.1
  rfl

section

variable {nodes : List (Node F)} {layers layers' : List (Placed F)} {net net' : CompiledNet F}
  {op : Op} {call : Calls F}

omit [Arith F] in
/-- A completed forward pass has called the op of every layer. -/
theorem Streams.layerCall_completed (h : Streams nodes layers net) {r : RunState F}
    (hsize : r.store.size = 2 * nodes.length)
    (hdone : (runForward call .forward net.forward r).error = none) {p : Placed F}
    (hp : p ∈ layers) :
    ∃ s v, layerCall call (slotIn nodes) s p.layer = .ok v := by
  obtain ⟨n, hn⟩ := List.mem_iff_getElem?.mp hp
  have hi : (net.forward.zipIdx)[n]? = some (forwardOf (slotIn nodes) p, n) := by
    rw [h.forward, List.getElem?_zipIdx, List.getElem?_map, hn]
    simp
  have hplace : ∀ q ∈ layers, valueSlot q.place < 2 * nodes.length := fun q hq =>
    valueSlot_lt.mpr (h.place_lt hq)
  obtain ⟨r', hr', hstep⟩ := runAll_prefix hdone hi
  have hsize' : r'.store.size = 2 * nodes.length := by
    have hkeep : (runAll (forwardStep call .forward) (net.forward.zipIdx.take n) r).state.store.size
        = 2 * nodes.length := by
      apply runAll_invariant (P := fun t : RunState F => t.store.size = 2 * nodes.length)
        _ _ _ hsize
      rintro ⟨i, index⟩ ha t ht
      have hmem := List.fst_mem_of_mem_zipIdx (List.mem_of_mem_take ha)
      rw [h.forward] at hmem
      obtain ⟨q, hq, rfl⟩ := List.mem_map.mp hmem
      rw [forwardStep_forwardOf (slotIn_lt_size ht) (by rw [ht]; exact hplace q hq)]
      apply Outcome.attempt_state (P := fun t : RunState F => t.store.size = 2 * nodes.length) ht
      intro t' ht'
      obtain ⟨v, -, rfl⟩ := map_eq_ok.mp ht'
      exact (Store.size_setAt _ _ _).trans ht
    rwa [hr'] at hkeep
  obtain ⟨v, hv, -⟩ := forwardStep_completed (slotIn_lt_size hsize') hstep
  exact ⟨r'.store, v, hv⟩

omit [Arith F] in
/-- The layers of the two nets stand at the same places of the streams. -/
theorem Streams.pairs (h : Streams nodes layers net)
    (h' : Streams (nodes.map (Node.densified op)) layers' net') {n : Nat} {p p' : Placed F}
    (hp : layers[n]? = some p) (hp' : layers'[n]? = some p') :
    p'.place = p.place ∧ p'.layer = p.layer.densified op := by
  have hpair := congrArg (·[n]?) (h.densified h')
  simp only [List.getElem?_map, hp, hp', Option.map_some, Option.some.injEq, Prod.mk.injEq] at hpair
  exact hpair

theorem getElem?_zipIdx_map {α β : Type} {f : α → β} {as : List α} {n : Nat} {b : β × Nat}
    (h : ((as.map f).zipIdx)[n]? = some b) : ∃ a, as[n]? = some a ∧ b = (f a, n) := by
  rw [List.getElem?_zipIdx, List.getElem?_map, Option.map_map] at h
  obtain ⟨a, ha, rfl⟩ := Option.map_eq_some_iff.mp h
  exact ⟨a, ha, by simp⟩

omit [Arith F] in
/-- Both nets have the same forward pass. -/
theorem Streams.forward_agree (h : Streams nodes layers net)
    (h' : Streams (nodes.map (Node.densified op)) layers' net') (hop : IsDense op) {r : RunState F}
    (hsize : r.store.size = 2 * nodes.length) :
    Agree (fun t t' => Alike t t' ∧ t.store.size = 2 * nodes.length)
      (runForward call .forward net.forward r) (runForward call .forward net'.forward r) := by
  have hlen : layers'.length = layers.length := by
    simpa using congrArg List.length (h.densified h')
  -- The op that is exchanged computes the same forward.
  have hcall : ∀ s (a : Application F),
      layerCall call (slotIn nodes) s (a.densified op) = layerCall call (slotIn nodes) s a := by
    intro s a
    unfold Application.densified
    split_ifs with hslice
    · unfold layerCall
      dsimp only
      rw [hop.forward, hslice]
      rfl
    · rfl
  unfold runForward
  rw [h.forward, h'.forward, slotIn_densified]
  refine runAll_agree (by simpa using hlen) (fun n a b t t' ha hb _ ht => ?_)
    ⟨⟨rfl, fun _ => Iff.rfl⟩, hsize⟩
  obtain ⟨p, hp, rfl⟩ := getElem?_zipIdx_map ha
  obtain ⟨p', hp', rfl⟩ := getElem?_zipIdx_map hb
  obtain ⟨hplace, hlayer⟩ := h.pairs h' hp hp'
  obtain ⟨halike, ht⟩ := ht
  have hslots := slotIn_lt_size ht
  have hown : valueSlot p.place < t.store.size :=
    ht ▸ valueSlot_lt.mpr (h.place_lt (List.mem_of_getElem? hp))
  rw [forwardStep_forwardOf hslots hown, forwardStep_forwardOf (by rwa [halike.store])
    (by rwa [halike.store, hplace]), halike.store, hplace, hlayer, hcall]
  cases layerCall call (slotIn nodes) t.store p.layer with
  | error e => exact agree_stopped
  | ok v =>
    refine agree_done ⟨⟨?_, halike.owned⟩, (Store.size_setAt _ _ _).trans ht⟩
    rfl

/-- Both nets are seeded alike. -/
theorem seedDers_agree {c c' : CompiledNet F} {o : EvalOptions F}
    (hkept : ∀ slot, slot ∈ keptSlots c' o ↔ slot ∈ keptSlots c o) {r r' : RunState F}
    (halike : Alike r r') : Agree Alike (seedDers c o r) (seedDers c' o r') := by
  have hreset : r'.store.resetDers (keptSlots c' o) = r.store.resetDers (keptSlots c o) := by
    rw [halike.store]
    unfold Store.resetDers Store.resetSlot
    simp only [hkept]
  unfold seedDers
  dsimp only
  rw [hreset]
  cases (r.store.resetDers (keptSlots c o)).set
      ((r.store.resetDers (keptSlots c o)).size - 1 : Int) o.seed with
  | error f => exact agree_stopped
  | ok s => exact agree_done ⟨rfl, halike.owned⟩

/-- An indexing layer that was called has an index by position, which is no text, or none by
position at all. -/
theorem ConstantIndex.arguments {a : Application F} (ha : ConstantIndex a)
    (hcall : RunsBuiltins call) (hslice : a.op = Builtin.slice.op) {s : Store F} {v : Value F}
    (hv : layerCall call (slotIn nodes) s a = .ok v) :
    ∃ h, a.args = [.node h] ∨ ∃ index, a.args = [.node h, index] ∧ index.node? = none ∧
      index.isText = false ∧ a.kwargs = [] := by
  obtain ⟨⟨h, rest, hargs, hrest⟩, -⟩ := ha
  refine ⟨h, ?_⟩
  rw [hcall.layerCall_eq_ok hslice] at hv
  obtain ⟨x, i, hbind, hslot⟩ := Arguments.call2_eq_ok hv
  have hle := (Arguments.bind_completed hbind).1
  rw [hargs] at hle hbind ⊢
  match rest, hrest with
  | [], _ => exact .inl rfl
  | [index], hrest =>
    have hindex := hrest index (List.mem_singleton.mpr rfl)
    obtain ⟨hpositional, hnamed⟩ := Arguments.bind_of_length_le hbind (Nat.le_refl _)
    refine .inr ⟨index, rfl, hindex, ?_, hnamed⟩
    cases hpositional
    rw [Store.argument_of_not_node _ _ hindex] at hslot
    cases htext : index.isText with
    | false => rfl
    | true =>
      obtain ⟨t, rfl⟩ : ∃ t, index = .text t := by
        cases index <;> first | exact ⟨_, rfl⟩ | cases htext
      unfold Kernel.slice Value.getAt at hslot
      obtain ⟨_, -, hslot⟩ := bind_eq_ok.mp hslot
      obtain ⟨_, hpicks, -⟩ := bind_eq_ok.mp hslot
      cases hpicks
  | _ :: _ :: _, _ => simp at hle

/-- Without an index by position neither way of passing the derivative on completes: an index by
name meets the derivative of the part in its place. -/
theorem backwardStep_unindexed (hcall : RunsBuiltins call) (hop : IsDense op) {p p' : Placed F}
    {k : Nat} {r r' : RunState F} (hslice : p.layer.op = Builtin.slice.op) {h : Handle} {j : Nat}
    (hargs : p.layer.args = [.node h]) (hcount : p.layer.derCount = none)
    (hslot : slotIn nodes h = some (valueSlot j)) (hlayer : p'.layer = { p.layer with op := op })
    (hsize : r.store.size = 2 * nodes.length) (hsize' : r'.store.size = 2 * nodes.length)
    (hplace : p.place < nodes.length) (hplace' : p'.place < nodes.length)
    (hforward : ∃ s v, layerCall call (slotIn nodes) s p.layer = .ok v) :
    (backwardStep call (backwardOf (slotIn nodes) p, k) r).error ≠ none ∧
      (backwardStep call (backwardOf (slotIn nodes) p', k) r').error ≠ none := by
  have hown : ∀ {q : Nat}, q < nodes.length → valueSlot q + 1 < 2 * nodes.length :=
    valueSlot_succ_lt.mpr
  have hbound : ∀ (s : Store F) place, adjointArguments (slotIn nodes) s place [.node h]
      = [s.content (valueSlot j), s.content (valueSlot place + 1)] := by
    intro s place
    change [s.argument (slotIn nodes) (.node h), s.content (valueSlot place + 1)] = _
    rw [Store.argument_node, hslot, Option.map_some, Option.getD_some]
  constructor
  · intro hdone
    unfold backwardStep at hdone
    dsimp only at hdone
    obtain ⟨hworked, -⟩ := Outcome.andThen_completed.mp hdone
    rw [backwardOf_bind (slotIn_lt_size hsize) p (by rw [hsize]; exact hown hplace), hargs, hbound]
      at hworked
    dsimp only at hworked
    rw [if_pos (by change p.layer.op.scatter = true; rw [hslice]; rfl)] at hworked
    -- A sparse update takes three arguments, and here it is given two.
    obtain ⟨source, index, dy, hthree⟩ := scatterStep_arguments hworked
    cases hthree
  · intro hdone
    obtain ⟨out, hout, -⟩ := bind_eq_ok.mp ((backwardStep_leaves (slotIn_lt_size hsize')
      (by rw [hsize']; exact hown hplace') (by rw [hlayer]; exact hop.scatter)).mp ⟨hdone, rfl⟩)
    have hcountOf : derCountOf (slotIn nodes) p'.layer = .whole 1 := by
      unfold derCountOf
      rw [hlayer]
      dsimp only
      rw [hcount, hargs, operandSlots, Value.node?_node, Option.bind_some, hslot]
      rfl
    rw [hcountOf, hlayer] at hout
    dsimp only at hout
    rw [hargs, hbound] at hout
    unfold adjointAnswer at hout
    rw [if_pos (by rfl)] at hout
    dsimp only at hout
    rw [hop.adjoint] at hout
    obtain ⟨dx, hdx, -⟩ := bind_eq_ok.mp hout
    rw [hcall.adjoint .slice, lift_eq_ok] at hdx
    obtain ⟨s, v, hv⟩ := hforward
    rw [hcall.layerCall_eq_ok hslice, hargs] at hv
    -- The forward call had its index by name, so the adjoint is given one twice.
    obtain ⟨x, i, -, -, hpositional, -⟩ := Arguments.call2_call3 hv hdx
      (show _ = [r'.store.content (valueSlot j)] ++ [_] from rfl) rfl fun _ h => h
    cases hpositional

end

section

variable {nodes : List (Node K)} {layers layers' : List (Placed K)} {net net' : CompiledNet K}
  {op : Op} {call : Calls K} {o : EvalOptions K} {d : Dtype}

omit [Field K] [ExactArith K] in
/-- A write of a part into the derivative of one source keeps all sources fit. -/
theorem SourcesFit.setAt {s : Store K} (h : SourcesFit d nodes s) {j : Nat} {x : Tensor K}
    {v : Value K} (hx : s.content (valueSlot j) = .array x) (hv : v.IsPart d x.shape) :
    SourcesFit d nodes (s.setAt (valueSlot j + 1) v) := by
  intro m hm
  obtain ⟨y, hy, hys, hpart⟩ := h m hm
  refine ⟨y, ?_, hys, ?_⟩
  · rw [Store.content_setAt_of_ne _ (valueSlot_ne_succ m j)]
    exact hy
  · by_cases hmj : m = j
    · subst hmj
      rw [hx] at hy
      cases hy
      by_cases hlt : valueSlot m + 1 < s.size
      · rw [Store.content_setAt_self hlt]
        exact fun _ => hv
      · rw [Store.content_of_le (by rw [Store.size_setAt]; omega)]
        exact fun h => by cases h
    · rw [Store.content_setAt_of_ne _ (by simpa using hmj)]
      exact hpart

/-- Additions of parts into derivatives keep all sources fit. -/
theorem SourcesFit.adds (hd : d.isReal = true) {s t : Store K} (h : SourcesFit d nodes s)
    (hsize : s.size = 2 * nodes.length) {added : Nat → List (Value K)} (hadds : Adds added s t)
    (hparts : ∀ j x, Indexed nodes j → s.content (valueSlot j) = .array x →
      ∀ v ∈ added j, v.IsPart d x.shape) : SourcesFit d nodes t := by
  intro j hj
  obtain ⟨x, hx, hxs, hpart⟩ := h j hj
  refine ⟨x, ?_, hxs, ?_⟩
  · rw [hadds.values _ (valueSlot_mod_two j)]
    exact hx
  · have hlt : valueSlot j + 1 < s.size := by
      obtain ⟨_, _, h, -, -, -, hslot⟩ := hj
      have := slotIn_lt hslot
      omega
    exact foldlM_keeps (P := fun c : Value K => c.isNone = false → c.IsPart d x.shape)
      (fun v hv c u hc hu _ => Value.plus_isPart hd hc (hparts j x hj hx v hv) hu) hpart
      (hadds.ders j hlt)

/-- A run in lockstep: alike states over a store of the net's size with fit sources. -/
structure Lockstep (d : Dtype) (nodes : List (Node K)) (t t' : RunState K) : Prop where
  /-- The states are alike. -/
  alike : t.Alike t'
  /-- The store has the size of the net. -/
  size : t.store.size = 2 * nodes.length
  /-- Sources and their derivatives fit. -/
  fit : SourcesFit d nodes t.store

namespace Streams

omit [Field K] [ExactArith K] in
/-- A backward instruction takes a run from the states it reaches to the next ones. -/
theorem reaches_succ {c : CompiledNet K} {r t t' : RunState K} {n : Nat} {i : Instruction K × Nat}
    (h : Reaches call c o r n t) (hi : c.backward.zipIdx[n]? = some i)
    (hstep : backwardStep call i t = .done t') : Reaches call c o r (n + 1) t' := by
  obtain ⟨q, hq, ht⟩ := h
  refine ⟨q, hq, ?_⟩
  rw [List.take_add_one, hi, runAll_append, ht, done_andThen, Option.toList_some,
    runAll_cons, hstep]
  rfl

omit [Field K] [ExactArith K] in
theorem size_backwardStep {i : Instruction K × Nat} {t t' : RunState K}
    (hstep : backwardStep call i t = .done t') : t'.store.size = t.store.size := by
  -- No instruction reaches the place behind the last slot.
  have hframe : SameAt t.store.size t.store (backwardStep call i t).state.store :=
    backwardStep_frame fun slot _ hloc => by
      have := locate?_lt hloc
      omega
  rw [hstep] at hframe
  exact hframe.1

/-- The backward instruction of a layer of a completed step with another op keeps the sources
fit. -/
theorem fit_backwardStep {c : CompiledNet K} {r : RunState K}
    (hprec : OnePrecision call nodes c o r d) {n : Nat} {p : Placed K} {t t' : RunState K}
    (hn : (layersOf nodes).reverse[n]? = some (p.place, p.layer)) (hplace : p.place < nodes.length)
    (hother : p.layer.op ≠ Builtin.slice.op) (hreach : Reaches call c o r n t)
    (hnext : Reaches call c o r (n + 1) t') (hsize : t.store.size = 2 * nodes.length)
    (hfit : SourcesFit d nodes t.store)
    (hstep : backwardStep call (backwardOf (slotIn nodes) p, n) t = .done t') :
    SourcesFit d nodes t'.store := by
  cases hscatter : p.layer.op.scatter with
  | true => exact hprec.scatters n t' p.place p.layer hnext hn hscatter hother
  | false =>
    have hslots := slotIn_lt_size hsize
    have hown : valueSlot p.place + 1 < t.store.size := hsize ▸ valueSlot_succ_lt.mpr hplace
    have hlayer := (backwardStep_leaves (t := t'.store) hslots hown hscatter).mp
      ⟨by rw [hstep]; rfl, by rw [hstep]; rfl⟩
    obtain ⟨out, hout, hadds⟩ := bind_eq_ok.mp hlayer
    rw [foldlM_addResult_eq_ok] at hadds
    · exact hfit.adds hprec.real hsize hadds fun j x hj hx =>
        hprec.adjoints n t p.place p.layer out j x hreach hn hscatter hout hj hx
    · intro b hb
      obtain ⟨q, h, k, -, hk, rfl⟩ := exists_of_mem_adjointOperands hb
      obtain ⟨j, -, rfl⟩ := slotIn_eq_some.mp hk
      have := slotIn_lt hk
      exact ⟨j, q, rfl, by omega⟩

/-- The backward instructions of one layer in both nets keep runs in lockstep. -/
theorem backwardStep_lockstep {c : CompiledNet K} {r : RunState K} (hcall : RunsBuiltins call)
    (hop : IsDense op) (hprec : OnePrecision call nodes c o r d) {n : Nat} {p p' : Placed K}
    (hn : (layersOf nodes).reverse[n]? = some (p.place, p.layer)) (hplace : p.place < nodes.length)
    (hconst : p.layer.op = Builtin.slice.op → ConstantIndex p.layer)
    (hlocated : ∀ h, Value.node h ∈ p.layer.args → (slotIn nodes h).isSome)
    (hforward : ∃ s v, layerCall call (slotIn nodes) s p.layer = .ok v)
    (hp' : p'.place = p.place ∧ p'.layer = p.layer.densified op) {t t' : RunState K}
    (hreach : Reaches call c o r n t)
    (hnext : ∀ u, backwardStep call (backwardOf (slotIn nodes) p, n) t = .done u →
      Reaches call c o r (n + 1) u) (hlock : Lockstep d nodes t t') :
    Agree (Lockstep d nodes) (backwardStep call (backwardOf (slotIn nodes) p, n) t)
      (backwardStep call (backwardOf (slotIn nodes) p', n) t') := by
  obtain ⟨halike, hsize, hfit⟩ := hlock
  obtain ⟨hplace', hlayer⟩ := hp'
  have hmem : (p.place, p.layer) ∈ layersOf nodes :=
    List.mem_reverse.mp (List.mem_of_getElem? hn)
  by_cases hslice : p.layer.op = Builtin.slice.op
  · have hlayer' : p'.layer = { p.layer with op := op } := by
      rw [hlayer, Application.densified, if_pos hslice]
    have hc := hconst hslice
    obtain ⟨s, v, hv⟩ := hforward
    obtain ⟨h, hargs⟩ := hc.arguments hcall hslice hv
    have hhead : p.layer.args.head? = some (.node h) := by
      rcases hargs with hargs | ⟨index, hargs, -⟩ <;> rw [hargs] <;> rfl
    obtain ⟨k, hslot⟩ := Option.isSome_iff_exists.mp (hlocated h (List.mem_of_mem_head? hhead))
    obtain ⟨j, -, rfl⟩ := slotIn_eq_some.mp hslot
    -- An index by name, with which neither instruction completes, or one by position.
    rcases hargs with hargs | ⟨index, hargs, hindex, htext, hkwargs⟩
    · have hsize' : t'.store.size = 2 * nodes.length := by rw [halike.store, hsize]
      obtain ⟨hfails, hfails'⟩ := backwardStep_unindexed (k := n) hcall hop hslice hargs
        hc.derCount hslot hlayer' hsize hsize' hplace (hplace' ▸ hplace) ⟨s, v, hv⟩
      exact agree_of_error hfails hfails'
    · obtain ⟨x, hx, hxs, hpart⟩ := hfit j ⟨_, _, h, hmem, hslice, hhead, hslot⟩
      obtain ⟨hsource, hplain⟩ := hprec.indexing n t _ _ h j x hreach hn hslice hhead hslot hx
      refine (backwardStep_slice hcall hop hprec.real halike hsize hplace hslice hargs hindex htext
        hkwargs hc.derCount hslot hplace' hlayer' hx ⟨hxs, hsource, hpart, hplain⟩).mono ?_
      rintro u u' ⟨hau, v, hstore, hv⟩
      exact ⟨hau, by rw [hstore, Store.size_setAt, hsize], by
        rw [hstore]
        exact hfit.setAt hx hv⟩
  -- Any other layer has one instruction in both nets, up to its name.
  · have hsame : backwardOf (slotIn nodes) p'
        = { backwardOf (slotIn nodes) p with name := p'.name, source := p'.source } := by
      unfold backwardOf
      rw [hplace', hlayer, Application.densified, if_neg hslice]
    rw [hsame]
    refine (backwardStep_alike halike).strengthen fun u u' hu hau => ?_
    exact ⟨hau, by rw [Streams.size_backwardStep hu, hsize],
      fit_backwardStep hprec hn hplace hslice hreach (hnext u hu) hsize hfit hu⟩

/-- The backward passes of both nets keep in lockstep. -/
theorem backward_lockstep (h : Streams nodes layers net)
    (h' : Streams (nodes.map (Node.densified op)) layers' net') {r q q' : RunState K}
    (hcall : RunsBuiltins call) (hop : IsDense op) (hprec : OnePrecision call nodes net o r d)
    (hconst : ∀ k a, (k, a) ∈ layersOf nodes → a.op = Builtin.slice.op → ConstantIndex a)
    (hforward : ∀ p ∈ layers, ∃ s v, layerCall call (slotIn nodes) s p.layer = .ok v)
    (hq : (runForward call .forward net.forward r).andThen (seedDers net o) = .done q)
    (hsize : q.store.size = 2 * nodes.length) (halike : q.Alike q') :
    Agree (Lockstep d nodes) (runBackward call net.backward q)
      (runBackward call net'.backward q') := by
  have hlen : layers'.length = layers.length := by
    simpa using congrArg List.length (h.densified h')
  have hstart : Reaches call net o r 0 { q with owned := [] } := ⟨q, hq, rfl⟩
  unfold runBackward
  refine runAll_agree ?_ (fun n a b t t' ha hb ht hlock => ?_)
    ⟨⟨halike.store, fun _ => Iff.rfl⟩, hsize, hprec.start _ hstart⟩
  · rw [h.backward, h'.backward]
    simpa using hlen
  · have hreach : Reaches call net o r n t := ⟨q, hq, ht⟩
    have hnext : ∀ u, backwardStep call a t = .done u → Reaches call net o r (n + 1) u :=
      fun u hu => reaches_succ hreach ha hu
    rw [h.backward] at ha
    rw [h'.backward, slotIn_densified] at hb
    obtain ⟨p, hp, rfl⟩ := getElem?_zipIdx_map ha
    obtain ⟨p', hp', rfl⟩ := getElem?_zipIdx_map hb
    have hpl : p ∈ layers := List.mem_reverse.mp (List.mem_of_getElem? hp)
    -- The two streams have their instructions at the same places.
    have hpair : p'.place = p.place ∧ p'.layer = p.layer.densified op := by
      have hn := (List.getElem?_eq_some_iff.mp hp).1
      rw [List.length_reverse] at hn
      rw [List.getElem?_reverse hn] at hp
      rw [List.getElem?_reverse (hlen ▸ hn), hlen] at hp'
      exact h.pairs h' hp hp'
    refine backwardStep_lockstep hcall hop hprec ?_ (h.place_lt hpl)
      (hconst _ _ (h.mem_layersOf hpl)) (h.located p hpl) (hforward p hpl) hpair hreach hnext hlock
    rw [← h.places, ← List.map_reverse, List.getElem?_map, hp]
    rfl

end Streams

/-- **The sparse update agrees with the dense adjoint over a whole pass.**  If indexing layers
have a node as source and a constant index, sources are arrays with axes, all arrays of
derivatives have one precision, and what other layers contribute to the derivative of a source
is a number or has the source's shape, then, in exact arithmetic, an evaluation in normal mode
completes exactly if one of the net with a dense op in the place of indexing does, and it leaves
the same in every slot. -/
theorem sparse_pass_agrees [Interchange K] {checks checks' : Checks K}
    {known known' : Node K → Bool} {roots roots' : Option (List Handle)}
    {options options' : Options K} {c c' : Compilation K}
    (hc : compileNodes checks known nodes roots options = .ok c)
    (hc' : compileNodes checks' known' (nodes.map (Node.densified op)) roots' options' = .ok c')
    (hop : IsDense op) (hcall : RunsBuiltins call)
    (hconst : ∀ k a, (k, a) ∈ layersOf nodes → a.op = Builtin.slice.op → ConstantIndex a)
    {r : RunState K} (hprec : OnePrecision call nodes c.net o r d) :
    ((evaluate call c'.net .normal o r).error = none ↔
        (evaluate call c.net .normal o r).error = none) ∧
      ((evaluate call c.net .normal o r).error = none → ∀ k,
        (evaluate call c'.net .normal o r).state.store.content k
          = (evaluate call c.net .normal o r).state.store.content k) := by
  obtain ⟨-, names, heads, hlen, hnet⟩ := compileNodes_assembled hc
  obtain ⟨-, names', heads', hlen', hnet'⟩ := compileNodes_assembled hc'
  have h := assemble_streams hlen hnet
  have h' := assemble_streams hlen' hnet'
  -- The two nets have the same nodes but for ops, so they keep and check the same.
  have hkept : ∀ slot, slot ∈ keptSlots c'.net o ↔ slot ∈ keptSlots c.net o := by
    intro slot
    rw [mem_keptSlots hlen hnet, mem_keptSlots hlen' hnet']
    simp only [List.getElem?_map, Option.map_map, Function.comp_def, Node.kind_densified]
  have hcheck : checkRequest c'.net .normal o r.store = checkRequest c.net .normal o r.store := by
    unfold checkRequest
    rw [h.numVars, h'.numVars, List.length_map]
  suffices hagree : Agree (fun t t' : RunState K => t'.store = t.store)
      (evaluate call c.net .normal o r) (evaluate call c'.net .normal o r) from
    ⟨hagree.1, fun hdone k => by rw [hagree.2 hdone]⟩
  unfold evaluate
  rw [hcheck]
  cases hrequest : checkRequest c.net .normal o r.store with
  | error e => exact agree_stopped
  | ok u =>
    have hsize : r.store.size = 2 * nodes.length := by
      have hnum := (checkRequest_accepts hrequest).2
      rw [h.numVars] at hnum
      exact_mod_cast hnum
    dsimp only
    -- Up to the seed the nets make the same calls, and from there they run in lockstep.
    have hseeded : Agree (fun u u' => Alike u u' ∧ u.store.size = 2 * nodes.length)
        ((runForward call .forward c.net.forward r).andThen (seedDers c.net o))
        ((runForward call .forward c'.net.forward r).andThen (seedDers c'.net o)) :=
      agree_andThen (h.forward_agree h' hop hsize) fun s t _ hst =>
        (seedDers_agree hkept hst.1).strengthen fun u u' hu hau => by
          have hframe := (seedDers_frame (c := c.net) (o := o) (r := s) (k := 0) rfl).1
          rw [hu] at hframe
          exact ⟨hau, hframe.trans hst.2⟩
    refine agree_andThen hseeded fun q q' hq hqq => ?_
    refine (h.backward_lockstep h' hcall hop hprec hconst ?_ hq hqq.2 hqq.1).mono
      fun t t' hlock => hlock.alike.store
    intro p hp
    have hdone : (runForward call .forward c.net.forward r).error = none :=
      (Outcome.andThen_completed.mp (by rw [hq]; rfl)).1
    exact h.layerCall_completed hsize hdone hp

end

/-! ### An indexed parameter -/

/-- An op that reads like indexing and calls its adjoint in the backward pass. -/
def denseSlice : Op := { Builtin.slice.op with name := "dense", scatter := false }

theorem isDense_denseSlice : IsDense denseSlice := ⟨rfl, rfl, rfl⟩

/-- A parameter and its first element. -/
def firstOf (value : Value ℚ) : List (Node ℚ) :=
  [⟨0, bareLabel, .param ⟨value, .none, .none, .gradient⟩⟩,
    ⟨1, bareLabel, .layer ⟨Builtin.slice.op, [.node ⟨0, .param, ""⟩, .integer 0], [], .same, .same,
      [], none⟩⟩]

/-- The start of an evaluation with a number in the derivative slot of the parameter. -/
def firstStart (value : Value ℚ) : RunState ℚ :=
  ⟨⟨#[value, .real (1 / 2), .none, .none], by simp⟩, [], none⟩

theorem sparse_pass_agrees_first_of_pair :
    ∃ c c', compileNodes [] (fun _ => true) (firstOf (pair 1 2)) none plainOptions = .ok c ∧
      compileNodes [] (fun _ => true) ((firstOf (pair 1 2)).map (Node.densified denseSlice)) none
        plainOptions = .ok c' ∧
      (evaluate builtinCalls c.net .normal ⟨.real 1, true⟩ (firstStart (pair 1 2))).error = none ∧
      ∀ k, (evaluate builtinCalls c'.net .normal ⟨.real 1, true⟩
          (firstStart (pair 1 2))).state.store.content k
        = (evaluate builtinCalls c.net .normal ⟨.real 1, true⟩
          (firstStart (pair 1 2))).state.store.content k := by
  obtain ⟨c, hc⟩ := exists_of_isOk
    (show (compileNodes [] (fun _ => true) (firstOf (pair 1 2)) none plainOptions).isOk = true
      from rfl)
  obtain ⟨c', hc'⟩ := exists_of_isOk
    (show (compileNodes [] (fun _ => true) ((firstOf (pair 1 2)).map (Node.densified denseSlice))
      none plainOptions).isOk = true from rfl)
  have hlayers : layersOf (firstOf (pair 1 2)) = [(1, (⟨Builtin.slice.op,
      [.node ⟨0, .param, ""⟩, .integer 0], [], .same, .same, [], none⟩ : Application ℚ))] := rfl
  have hconst : ∀ k a, (k, a) ∈ layersOf (firstOf (pair 1 2)) → a.op = Builtin.slice.op →
      ConstantIndex a := by
    intro k a hL _
    rw [hlayers] at hL
    cases List.mem_singleton.mp hL
    refine ⟨⟨_, _, rfl, fun v hv => ?_⟩, rfl⟩
    cases List.mem_singleton.mp hv
    rfl
  have hdone : (evaluate builtinCalls c.net .normal ⟨.real 1, true⟩
      (firstStart (pair 1 2))).error = none := by
    cases hc
    decide +kernel
  -- There is one backward instruction, and it starts from one state.
  have hreached : ∀ t, Reaches builtinCalls c.net ⟨.real 1, true⟩ (firstStart (pair 1 2)) 0 t →
      t.store.content 0 = pair 1 2 ∧ t.store.content 1 = .real (1 / 2) ∧
        t.store.content 3 = .real 1 := by
    rintro t ⟨q, hq, ht⟩
    obtain rfl : q = _ := (congrArg Outcome.state hq).symm
    cases ht
    cases hc
    exact ⟨rfl, rfl, rfl⟩
  have hlast : ∀ n k a, (layersOf (firstOf (pair 1 2))).reverse[n]? = some (k, a) →
      n = 0 ∧ k = 1 ∧ a.op = Builtin.slice.op := by
    intro n k a hn
    rw [hlayers] at hn
    rcases n with _ | n
    · cases hn
      exact ⟨rfl, rfl, rfl⟩
    · cases hn
  have hsource : ∀ {k : Nat} {a : Application ℚ} {h : Handle} {j : Nat},
      (k, a) ∈ layersOf (firstOf (pair 1 2)) → a.args.head? = some (.node h) →
        slotIn (firstOf (pair 1 2)) h = some (valueSlot j) → j = 0 := by
    intro k a h j hL hhead hslot
    rw [hlayers] at hL
    cases List.mem_singleton.mp hL
    cases hhead
    have hzero : some (valueSlot 0) = some (valueSlot j) := hslot
    simpa using hzero.symm
  have hprec : OnePrecision builtinCalls (firstOf (pair 1 2)) c.net ⟨.real 1, true⟩
      (firstStart (pair 1 2)) .float64 := by
    refine ⟨rfl, fun t ht j hj => ?_, fun n t k a h j x ht hn hslice hhead hslot hx => ?_,
      fun n t k a out j x _ hn hscatter => ?_, fun n t k a _ hn _ hother => ?_⟩
    · obtain ⟨k, a, h, hL, -, hhead, hslot⟩ := hj
      obtain rfl := hsource hL hhead hslot
      obtain ⟨hvalue, hder, -⟩ := hreached t ht
      refine ⟨_, hvalue, by decide, fun _ => ?_⟩
      rw [show valueSlot 0 + 1 = 1 from rfl, hder]
      exact ⟨_, rfl, .inl rfl⟩
    · obtain ⟨rfl, rfl, -⟩ := hlast n k a hn
      obtain rfl := hsource (List.mem_reverse.mp (List.mem_of_getElem? hn)) hhead hslot
      obtain ⟨hvalue, hder, hpart⟩ := hreached t ht
      rw [← hx, show valueSlot 0 = 0 from rfl, show valueSlot 1 + 1 = 3 from rfl, hvalue, hder,
        hpart]
      exact ⟨rfl, fun _ _ => rfl⟩
    · obtain ⟨-, -, hslice⟩ := hlast n k a hn
      rw [hslice] at hscatter
      cases hscatter
    · exact absurd (hlast n k a hn).2.2 hother
  exact ⟨c, c', hc, hc', hdone, (sparse_pass_agrees hc hc' isDense_denseSlice
    runsBuiltins_builtinCalls hconst hprec).2 hdone⟩

/-- With a list as the source the sparse update completes, but its dense adjoint asks for the
element type of the list and is stopped. -/
theorem sparse_pass_completes_list_source :
    ∃ c c', compileNodes [] (fun _ => true) (firstOf (.list [.real 1, .real 2])) none plainOptions
        = .ok c ∧
      compileNodes [] (fun _ => true)
        ((firstOf (.list [.real 1, .real 2])).map (Node.densified denseSlice)) none plainOptions
        = .ok c' ∧
      (evaluate builtinCalls c.net .normal ⟨.real 1, true⟩
        (firstStart (.list [.real 1, .real 2]))).error = none ∧
      (evaluate builtinCalls c'.net .normal ⟨.real 1, true⟩
        (firstStart (.list [.real 1, .real 2]))).error = some (.fault .wrongKind) := by
  obtain ⟨c, hc⟩ := exists_of_isOk
    (show (compileNodes [] (fun _ => true) (firstOf (.list [.real 1, .real 2])) none
      plainOptions).isOk = true from rfl)
  obtain ⟨c', hc'⟩ := exists_of_isOk
    (show (compileNodes [] (fun _ => true)
      ((firstOf (.list [.real 1, .real 2])).map (Node.densified denseSlice)) none
      plainOptions).isOk = true from rfl)
  refine ⟨c, c', hc, hc', ?_, ?_⟩
  · cases hc
    decide +kernel
  · cases hc'
    rfl

end SlotGrad
