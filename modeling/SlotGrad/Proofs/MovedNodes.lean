import SlotGrad.Proofs.CompileFailures

/-!
# Nodes under other identities

Nodes are told apart by their identities, and nothing else depends on what the identities are.
A node is moved by giving it, and all nodes that it reads, other identities.  Constants are
changed along with it by any function that compilation does not notice: by none at all, or by
one that moves the nodes inside of constants too.  Names are made from the places of nodes in a
list, so moved nodes are named as the nodes, if nothing that is read is confused with another
listed node.

## Main definitions

* `Value.Keeps` — changes of constants that compilation does not notice.
* `Value.moved`, `Value.NodeFree` — a value with all nodes in it moved, and values without nodes.
* `Node.moved` — a node under another identity.
* `Tells` — an identity that is not confused with those of listed nodes.

## Main results

* `Node.deps_moved` — a moved node reads the moved nodes.
* `Node.moved_congr` — only a node's constants are changed.
* `assignNames_moved` — moved nodes are named as the nodes.
-/

namespace SlotGrad

variable {F : Type}

/-! ### Handles and values -/

/-- The handle of the node of another identity. -/
def Handle.moved (f : Nat → Nat) (h : Handle) : Handle := { h with id := f h.id }

namespace Value

/-- A change of constants that compilation does not notice: what is absent, text or a node stays so,
and nothing else becomes so. -/
structure Keeps (φ : Value F → Value F) : Prop where
  /-- What is absent. -/
  isNone : ∀ v, (φ v).isNone = v.isNone
  /-- Texts. -/
  isText : ∀ v, (φ v).isText = v.isText
  /-- Nodes. -/
  isNode : ∀ v, (φ v).node?.isSome = v.node?.isSome

theorem keeps_id : Keeps (id : Value F → Value F) := ⟨fun _ => rfl, fun _ => rfl, fun _ => rfl⟩

/-- An argument, with a node moved and a constant changed. -/
def sent (f : Nat → Nat) (φ : Value F → Value F) : Value F → Value F
  | .node h => .node (h.moved f)
  | v => φ v

variable {f : Nat → Nat} {φ : Value F → Value F}

theorem sent_of_node? {v : Value F} (h : v.node? = Option.none) : v.sent f φ = φ v := by
  cases v with
  | node h' => cases h
  | _ => rfl

theorem eq_none_of_isNone {v : Value F} (h : v.isNone = true) : v = .none := by
  cases v with
  | none => rfl
  | _ => cases h

namespace Keeps

variable (hφ : Keeps φ)
include hφ

theorem none : φ .none = .none := eq_none_of_isNone ((hφ.isNone _).trans rfl)

theorem node? {v : Value F} (h : v.node? = Option.none) : (φ v).node? = Option.none := by
  have hnode := hφ.isNode v
  rw [h] at hnode
  exact Option.isSome_eq_false_iff.mp hnode |> Option.isNone_iff_eq_none.mp

theorem node?_sent (v : Value F) : (v.sent f φ).node? = v.node?.map (Handle.moved f) := by
  cases h : v.node? with
  | none => rw [sent_of_node? h, hφ.node? h]; rfl
  | some h' =>
    cases v with
    | node => cases h; rfl
    | _ => cases h

end Keeps

/-! ### Nodes inside of constants -/

mutual

/-- The value with the nodes that occur in it moved. -/
def moved (f : Nat → Nat) : Value F → Value F
  | .node h => .node (h.moved f)
  | .list xs => .list (movedAll f xs)
  | .tuple xs => .tuple (movedAll f xs)
  | .dict es => .dict (movedEntries f es)
  | .slice a b c => .slice (a.moved f) (b.moved f) (c.moved f)
  | .objects s xs => .objects s (movedAll f xs)
  | v => v

/-- The values with the nodes that occur in them moved. -/
def movedAll (f : Nat → Nat) : List (Value F) → List (Value F)
  | [] => []
  | x :: xs => x.moved f :: movedAll f xs

/-- The entries with the nodes that occur in them moved. -/
def movedEntries (f : Nat → Nat) : List (Value F × Value F) → List (Value F × Value F)
  | [] => []
  | (k, x) :: es => (k.moved f, x.moved f) :: movedEntries f es

end

/-- No node occurs in the value. -/
inductive NodeFree : Value F → Prop where
  | none : NodeFree .none
  | flag (b : Bool) : NodeFree (.flag b)
  | integer (n : Int) : NodeFree (.integer n)
  | real (x : F) : NodeFree (.real x)
  | text (s : String) : NodeFree (.text s)
  | list {xs : List (Value F)} (hxs : ∀ x ∈ xs, NodeFree x) : NodeFree (.list xs)
  | tuple {xs : List (Value F)} (hxs : ∀ x ∈ xs, NodeFree x) : NodeFree (.tuple xs)
  | dict {es : List (Value F × Value F)} (hkeys : ∀ e ∈ es, NodeFree e.1)
    (hes : ∀ e ∈ es, NodeFree e.2) : NodeFree (.dict es)
  | slice {a b c : Value F} (ha : NodeFree a) (hb : NodeFree b) (hc : NodeFree c) :
    NodeFree (.slice a b c)
  | ellipsis : NodeFree .ellipsis
  | array (t : Tensor F) : NodeFree (.array t)
  | scalar (d : Dtype) (x : Elem F d) : NodeFree (.scalar d x)
  | device (t : Tensor F) : NodeFree (.device t)
  | objects (s : List Nat) {xs : List (Value F)} (hxs : ∀ x ∈ xs, NodeFree x) :
    NodeFree (.objects s xs)
  | function (g : Fn) : NodeFree (.function g)
  | op (o : Op) : NodeFree (.op o)
  | other : NodeFree .other

theorem movedAll_eq_map (f : Nat → Nat) (xs : List (Value F)) :
    movedAll f xs = xs.map (moved f) := by
  induction xs with
  | nil => rfl
  | cons x xs ih => rw [movedAll, ih, List.map_cons]

theorem movedEntries_eq_map (f : Nat → Nat) (es : List (Value F × Value F)) :
    movedEntries f es = es.map fun e => (e.1.moved f, e.2.moved f) := by
  induction es with
  | nil => rfl
  | cons e es ih => rw [movedEntries, ih, List.map_cons]

theorem keeps_moved (f : Nat → Nat) : Keeps (moved f : Value F → Value F) where
  isNone v := by cases v <;> rfl
  isText v := by cases v <;> rfl
  isNode v := by cases v <;> rfl

/-- A value without nodes stays as it is. -/
theorem NodeFree.moved_eq {v : Value F} (hv : v.NodeFree) : v.moved f = v := by
  induction hv with
  | list _ ih => rw [moved, movedAll_eq_map, List.map_congr_left ih, List.map_id']
  | tuple _ ih => rw [moved, movedAll_eq_map, List.map_congr_left ih, List.map_id']
  | objects s _ ih => rw [moved, movedAll_eq_map, List.map_congr_left ih, List.map_id']
  | dict _ _ ihkeys ih =>
    rw [moved, movedEntries_eq_map,
      List.map_congr_left fun e he => Prod.ext (ihkeys e he) (ih e he), List.map_id']
  | slice _ _ _ iha ihb ihc => rw [moved, iha, ihb, ihc]
  | _ => rfl

end Value

/-! ### Nodes -/

section

variable (f : Nat → Nat) (φ : Value F → Value F)

/-- Arguments by name, with constants changed. -/
def sentNamed (named : List (String × Value F)) : List (String × Value F) :=
  named.map fun p => (p.1, φ p.2)

/-- Arguments in inference mode, with nodes moved and constants changed. -/
def TestArgs.moved : TestArgs F → TestArgs F
  | .same => .same
  | .other args => .other (args.map (Value.sent f φ))

/-- An op applied to moved nodes and changed constants. -/
def Application.moved (a : Application F) : Application F :=
  { a with
    args := a.args.map (Value.sent f φ)
    kwargs := sentNamed φ a.kwargs
    testArgs := a.testArgs.moved f φ
    testKwargs := sentNamed φ a.testKwargs }

/-- A learnable value, changed. -/
def Learnable.moved (p : Learnable F) : Learnable F :=
  { p with value := φ p.value, weightDecay := φ p.weightDecay, learningRate := φ p.learningRate }

/-- What a moved node is. -/
def Role.moved : Role F → Role F
  | .input => .input
  | .param p => .param (p.moved φ)
  | .layer a => .layer (a.moved f φ)

/-- The node of another identity, with the nodes that it reads moved and its constants changed. -/
def Node.moved (n : Node F) : Node F :=
  ⟨f n.id, { n.label with «meta» := φ n.label.meta }, n.role.moved f φ⟩

variable {f φ}

@[simp] theorem Node.id_moved (n : Node F) : (n.moved f φ).id = f n.id := rfl

@[simp] theorem Node.name_moved (n : Node F) : (n.moved f φ).label.name = n.label.name := rfl

@[simp] theorem Node.kind_moved (n : Node F) : (n.moved f φ).kind = n.kind := by
  unfold Node.kind Node.moved Role.moved
  cases n.role <;> rfl

@[simp] theorem Node.shown_moved (n : Node F) : (n.moved f φ).shown = n.shown := by
  unfold Node.shown Node.moved Role.moved
  cases n.role <;> rfl

@[simp] theorem Node.handle_moved (n : Node F) : (n.moved f φ).handle = n.handle.moved f := by
  simp [Node.handle, Handle.moved]

@[simp] theorem Node.application?_moved (n : Node F) :
    (n.moved f φ).application? = n.application?.map (Application.moved f φ) := by
  unfold Node.application? Node.moved Role.moved
  cases n.role <;> rfl

theorem handles_sent (hφ : Value.Keeps φ) (args : List (Value F)) :
    Node.handles (args.map (Value.sent f φ)) = (Node.handles args).map (Handle.moved f) := by
  unfold Node.handles
  rw [List.filterMap_map, List.map_filterMap]
  exact List.filterMap_congr fun v _ => hφ.node?_sent v

/-- A moved node reads the moved nodes. -/
theorem Node.deps_moved (hφ : Value.Keeps φ) (n : Node F) :
    (n.moved f φ).deps = n.deps.map (Handle.moved f) := by
  unfold Node.deps Node.moved Role.moved
  cases n.role with
  | input => rfl
  | param p => rfl
  | layer a =>
    unfold Application.moved TestArgs.moved
    dsimp only
    cases a.testArgs with
    | same => simp [handles_sent hφ]
    | other args => simp [handles_sent hφ]

end

/-- The constants that a node is built from: its metadata, and what it is given beside nodes. -/
def Node.constants (n : Node F) : List (Value F) :=
  n.label.meta :: match n.role with
    | .input => []
    | .param p => [p.value, p.weightDecay, p.learningRate]
    | .layer a => a.args.filter (fun v => v.node?.isNone) ++ a.kwargs.map Prod.snd
      ++ (match a.testArgs with
        | .same => []
        | .other args => args.filter fun v => v.node?.isNone)
      ++ a.testKwargs.map Prod.snd

/-- Changes that agree on a node's constants give the same node. -/
theorem Node.moved_congr {f : Nat → Nat} {φ ψ : Value F → Value F} {n : Node F}
    (h : ∀ v ∈ n.constants, φ v = ψ v) : n.moved f φ = n.moved f ψ := by
  have hsent : ∀ args : List (Value F), (∀ v ∈ args.filter (fun v => v.node?.isNone), φ v = ψ v) →
      args.map (Value.sent f φ) = args.map (Value.sent f ψ) := by
    intro args hargs
    refine List.map_congr_left fun v hv => ?_
    cases hnode : v.node? with
    | none =>
      rw [Value.sent_of_node? hnode, Value.sent_of_node? hnode]
      exact hargs v (List.mem_filter.mpr ⟨hv, by rw [hnode]; rfl⟩)
    | some k =>
      cases v with
      | node => rfl
      | _ => cases hnode
  have hnamed : ∀ named : List (String × Value F), (∀ v ∈ named.map Prod.snd, φ v = ψ v) →
      sentNamed φ named = sentNamed ψ named := fun named hnamed =>
    List.map_congr_left fun p hp => Prod.ext rfl (hnamed _ (List.mem_map_of_mem hp))
  obtain ⟨i, label, role⟩ := n
  unfold Node.constants at h
  rw [List.forall_mem_cons] at h
  obtain ⟨hmeta, h⟩ := h
  -- The constants of a role: none, a parameter's value and settings, or a layer's arguments.
  have hrole : role.moved f φ = role.moved f ψ := by
    cases role with
    | input => rfl
    | param p =>
      simp only [List.mem_cons, List.not_mem_nil, or_false, forall_eq_or_imp, forall_eq] at h
      simp only [Role.moved, Learnable.moved, h.1, h.2.1, h.2.2]
    | layer a =>
      simp only [List.forall_mem_append] at h
      obtain ⟨⟨⟨hargs, hkwargs⟩, htest⟩, htestKwargs⟩ := h
      have htestArgs : a.testArgs.moved f φ = a.testArgs.moved f ψ := by
        unfold TestArgs.moved
        cases htestCase : a.testArgs with
        | same => rfl
        | other args =>
          rw [htestCase] at htest
          exact congrArg TestArgs.other (hsent args htest)
      simp only [Role.moved, Application.moved, hsent _ hargs, hnamed _ hkwargs, htestArgs,
        hnamed _ htestKwargs]
  dsimp only at hmeta
  simp only [Node.moved, hmeta, hrole]

/-! ### Names -/

section

variable {f : Nat → Nat} {φ : Value F → Value F}

/-- Whether an identity is told apart from those of listed nodes when they are moved. -/
def Tells (f : Nat → Nat) (nodes : List (Node F)) (i : Nat) : Prop :=
  ∀ n ∈ nodes, f n.id = f i → n.id = i

theorem Tells.beq {nodes : List (Node F)} {i : Nat} (h : Tells f nodes i) {n : Node F}
    (hn : n ∈ nodes) : (f n.id == f i) = (n.id == i) := by
  rw [Bool.eq_iff_iff, beq_iff_eq, beq_iff_eq]
  exact ⟨h n hn, congrArg f⟩

/-- A moved node has the place of the node. -/
theorem position?_moved {nodes : List (Node F)} {i : Nat} (h : Tells f nodes i) :
    position? (nodes.map (Node.moved f φ)) (f i) = position? nodes i := by
  have hfilter : ((nodes.map (Node.moved f φ)).zipIdx).filter (fun p => p.1.id == f i)
      = (nodes.zipIdx.filter fun p => p.1.id == i).map (Prod.map (Node.moved f φ) id) := by
    rw [List.zipIdx_map, List.filter_map]
    refine congrArg _ (List.filter_congr fun p hp => ?_)
    exact h.beq (List.fst_mem_of_mem_zipIdx hp)
  unfold position?
  rw [hfilter, List.getLast?_map, Option.map_map]
  rfl

/-- What a node reads is told apart from the listed nodes. -/
def TellsDeps (f : Nat → Nat) (nodes : List (Node F)) (n : Node F) : Prop :=
  ∀ h ∈ n.deps, Tells f nodes h.id

theorem visitArgument_moved (hφ : Value.Keeps φ) {nodes : List (Node F)} {v : Value F}
    (hv : ∀ h, v.node? = some h → Tells f nodes h.id) (layer : String) (k : Nat) (s : Naming) :
    Naming.visitArgument (nodes.map (Node.moved f φ)) layer s (v.sent f φ, k)
      = Naming.visitArgument nodes layer s (v, k) := by
  cases hnode : v.node? with
  | none =>
    rw [Value.sent_of_node? hnode]
    have hother : ∀ {w : Value F} {ns : List (Node F)}, w.node? = none →
        Naming.visitArgument ns layer s (w, k) = .ok s := by
      intro w ns hw
      unfold Naming.visitArgument
      cases w with
      | node h => cases hw
      | _ => rfl
    rw [hother (hφ.node? hnode), hother hnode]
  | some h =>
    cases v with
    | node h' =>
      cases hnode
      unfold Naming.visitArgument Value.sent Handle.moved
      dsimp only
      rw [position?_moved (hv h rfl)]
    | _ => cases hnode

theorem visit_moved (hφ : Value.Keeps φ) {nodes : List (Node F)} {n : Node F}
    (hn : TellsDeps f nodes n) (k : Nat) (s : Naming) :
    Naming.visit (nodes.map (Node.moved f φ)) s (n.moved f φ, k) = Naming.visit nodes s (n, k) := by
  obtain ⟨i, label, role⟩ := n
  cases role with
  | input => rfl
  | param p => rfl
  | layer a =>
    dsimp only [Naming.visit, Node.moved, Role.moved, Application.moved]
    refine if_congr Iff.rfl ?_ rfl
    rw [List.zipIdx_map]
    refine foldlM_map_congr (fun p hp t => visitArgument_moved hφ (fun h hh => hn h ?_) _ _ _) _
    have harg : p.1 ∈ a.args := List.fst_mem_of_mem_zipIdx hp
    exact List.mem_append_left _ (List.mem_filterMap.mpr ⟨_, harg, hh⟩)

/-- Moved nodes are named as the nodes. -/
theorem assignNames_moved (hφ : Value.Keeps φ) {nodes : List (Node F)}
    (hnodes : ∀ n ∈ nodes, TellsDeps f nodes n) :
    assignNames (nodes.map (Node.moved f φ)) = assignNames nodes := by
  have hexplicit : (nodes.map (Node.moved f φ)).map (fun n => n.label.name)
      = nodes.map fun n => n.label.name := by
    rw [List.map_map]
    rfl
  have hkinds : ∀ ns : List (Node F), (ns.map (Node.moved f φ)).map Node.kind
      = ns.map Node.kind := by
    intro ns
    rw [List.map_map]
    exact List.map_congr_left fun n _ => n.kind_moved
  have hclose : ∀ s : Naming, s.close (nodes.map (Node.moved f φ)) = s.close nodes := by
    intro s
    unfold Naming.close
    rw [List.zipIdx_map, List.map_map]
    refine List.map_congr_left fun p _ => ?_
    simp only [Function.comp_apply, Prod.map_fst, Prod.map_snd, id_eq, Node.kind_moved,
      ← List.map_take, hkinds]
  have hvisit : ∀ s : Naming,
      ((nodes.map (Node.moved f φ)).zipIdx).foldlM (Naming.visit (nodes.map (Node.moved f φ))) s
        = (nodes.zipIdx).foldlM (Naming.visit nodes) s := by
    intro s
    rw [List.zipIdx_map]
    exact foldlM_map_congr (fun p hp t =>
      visit_moved hφ (hnodes _ (List.fst_mem_of_mem_zipIdx hp)) p.2 t) s
  unfold assignNames
  simp only [hexplicit, hvisit, hclose]

end

end SlotGrad
