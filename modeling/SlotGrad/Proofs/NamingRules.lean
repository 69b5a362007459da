import Mathlib.Data.List.Induction
import SlotGrad.Proofs.Frame
import SlotGrad.Proofs.ListingChecks
import SlotGrad.Proofs.Streams

/-!
# Names by rule

Names are made in one pass from left to right, which names parameters backwards from the layers
that read them while counters go on.  What comes out is determined by a rule for each node.  An
explicit name is kept.  An unnamed input is numbered among the unnamed inputs, and an unnamed
layer among the layers of its op, named or not.  An unnamed parameter is called after the first
unnamed layer that has it as an argument and its first place there; one that no such layer has
is numbered among all parameters.

## Main definitions

* `NameRule.input`, `NameRule.layer`, `NameRule.argument`, `NameRule.param` — the four kinds of
  names.
* `ruledName` — the name that the rules give to a node of a list.
* `Naming.AtStage` — the names given when part of a list was visited.
* `NamedByRules` — names of a list of nodes that keep to the rules.

## Main results

* `Naming.visitArguments_adds` — a layer calls its open parameters after itself.
* `Naming.AtStage.visit` — the pass keeps to the rules at every node.
* `assignNames_eq` — the names are those that `ruledName` computes.
* `assignNames_by_rule` — **names are given by rule.**
-/

namespace SlotGrad

variable {F : Type}

/-! ### The rules -/

/-- How many of the nodes up to a place, with the one there, pass a test. -/
def countUpTo (nodes : List (Node F)) (place : Nat) (p : Node F → Bool) : Nat :=
  (nodes.take (place + 1)).countP p

/-- Whether a node is an input without a name. -/
def Node.isUnnamedInput (n : Node F) : Bool := n.kind == .input && n.label.name.isNone

/-- Whether a node is a parameter. -/
def Node.isParam (n : Node F) : Bool := n.kind == .param

/-- Whether a node is a layer over the op of a name. -/
def Node.runs (op : String) (n : Node F) : Bool := n.application?.any fun a => a.op.name == op

/-- Whether an argument is the parameter of an identity. -/
def Value.isParameter (id : Nat) (v : Value F) : Bool :=
  v.node?.any fun h => h.kind == .param && h.id == id

namespace NameRule

/-- The name of an unnamed input: its number among the unnamed inputs. -/
def input (nodes : List (Node F)) (place : Nat) : String :=
  "input" ++ toString (countUpTo nodes place Node.isUnnamedInput)

/-- The name of an unnamed layer: its op and its number among all layers over that op. -/
def layer (nodes : List (Node F)) (place : Nat) (op : String) : String :=
  op ++ toString (countUpTo nodes place (Node.runs op))

/-- What a layer calls a parameter among its arguments: the layer's name and the first place of the
parameter, counted from one. -/
def argument (layer : String) (id : Nat) (args : List (Value F)) : Option String :=
  (args.findIdx? (Value.isParameter id)).map fun i => layer ++ "_p" ++ toString (i + 1)

/-- What a node of a list calls a parameter: unnamed layers name those among their arguments. -/
def byNode (nodes : List (Node F)) (id : Nat) (entry : Node F × Nat) : Option String :=
  match entry.1.label.name, entry.1.role with
  | none, .layer a => argument (layer nodes entry.2 a.op.name) id a.args
  | _, _ => none

theorem byNode_of_named {n : Node F} (h : n.label.name ≠ none) (nodes : List (Node F))
    (id place : Nat) :
    byNode nodes id (n, place) = none := by
  obtain ⟨name, hname⟩ := Option.ne_none_iff_exists'.mp h
  unfold byNode
  dsimp only
  rw [hname]

theorem byNode_of_ne_layer {n : Node F} (h : n.kind ≠ .layer) (nodes : List (Node F))
    (id place : Nat) : byNode nodes id (n, place) = none := by
  unfold byNode
  unfold Node.kind at h
  cases n.label.name with
  | some name => rfl
  | none =>
    cases hrole : n.role with
    | layer a => simp [hrole] at h
    | input => rfl
    | param p => rfl

theorem byNode_layer {n : Node F} {a : Application F} (hname : n.label.name = none)
    (hrole : n.role = .layer a) (nodes : List (Node F)) (id place : Nat) :
    byNode nodes id (n, place) = argument (layer nodes place a.op.name) id a.args := by
  unfold byNode
  dsimp only
  rw [hname, hrole]

/-- The name of an unnamed parameter that no unnamed layer has: its number among all parameters. -/
def param (nodes : List (Node F)) (place : Nat) : String :=
  "param" ++ toString (countUpTo nodes place Node.isParam)

end NameRule

/-- The name that the rules give to a node at its place in a list. -/
def ruledName (nodes : List (Node F)) (entry : Node F × Nat) : String :=
  match entry.1.label.name, entry.1.role with
  | some name, _ => name
  | none, .input => NameRule.input nodes entry.2
  | none, .layer a => NameRule.layer nodes entry.2 a.op.name
  | none, .param _ => (nodes.zipIdx.findSome? (NameRule.byNode nodes entry.1.id)).getD
      (NameRule.param nodes entry.2)

/-! ### Naming the arguments of a layer -/

theorem take_succ_of_getElem? {α : Type} {as : List α} {k : Nat} {a : α} (h : as[k]? = some a) :
    as.take (k + 1) = as.take k ++ [a] := by
  rw [List.take_add_one, h]
  rfl

/-- What holds at the start of an accumulation along a list and is kept at each place holds at the
end. -/
theorem foldlM_zipIdx_keeps {ε α β : Type} {P : Nat → β → Prop} {f : β → α × Nat → Except ε β}
    {as : List α} (hstep : ∀ k a b c, as[k]? = some a → P k b → f b (a, k) = .ok c → P (k + 1) c)
    {b c : β} (hb : P 0 b) (h : as.zipIdx.foldlM f b = .ok c) : P as.length c := by
  induction as using List.reverseRecOn generalizing c with
  | nil =>
    rw [List.zipIdx_nil, List.foldlM_nil, pure_eq_ok] at h
    exact h ▸ hb
  | append_singleton as a ih =>
    rw [List.zipIdx_append, foldlM_append_eq_ok] at h
    obtain ⟨d, hd, hlast⟩ := h
    rw [Nat.zero_add, List.zipIdx_singleton, List.foldlM_cons] at hlast
    obtain ⟨c', hc, hnil⟩ := bind_eq_ok.mp hlast
    obtain rfl := pure_eq_ok.mp hnil
    rw [List.length_append, List.length_singleton]
    refine hstep _ a d c' (by simp) (ih (fun k a b c hk => hstep k a b c ?_) hd) hc
    rw [List.getElem?_append_left (List.getElem?_eq_some_iff.mp hk).1, hk]

namespace Naming

/-- The name given to a place so far. -/
def name? (s : Naming) (place : Nat) : Option String := (s.names[place]?).join

theorem isOpen_eq (s : Naming) (place : Nat) : s.isOpen place = (s.name? place).isNone := rfl

theorem name?_set {s : Naming} {place : Nat} (h : place < s.names.size) (name : String) (j : Nat) :
    (s.set place name).name? j = if j = place then some name else s.name? j := by
  unfold set name?
  dsimp only
  rw [Array.getElem?_setIfInBounds]
  by_cases hj : place = j
  · subst hj
    simp [h]
  · rw [if_neg hj, if_neg (Ne.symm hj)]

/-- The naming `t` differs from `s` in places that were open, of nodes that `given` names. -/
structure Adds (nodes : List (Node F)) (given : Node F → Option String) (s t : Naming) : Prop where
  /-- Names are kept, and open places take what is given. -/
  names : ∀ (j : Nat) (m : Node F), nodes[j]? = some m → t.name? j = (s.name? j).or (given m)
  /-- There are no more places. -/
  size : t.names.size = s.names.size
  /-- No input is counted. -/
  inputs : t.inputs = s.inputs
  /-- No layer is counted. -/
  layers : t.layers = s.layers

section

variable {nodes : List (Node F)} {given : Node F → Option String} {layer : String} {s t u : Naming}

theorem Adds.trans {given' : Node F → Option String} (h : Adds nodes given s t)
    (h' : Adds nodes given' t u) : Adds nodes (fun m => (given m).or (given' m)) s u := by
  refine ⟨fun j m hm => ?_, h'.size.trans h.size, h'.inputs.trans h.inputs,
    h'.layers.trans h.layers⟩
  rw [h'.names j m hm, h.names j m hm, Option.or_assoc]

/-- Nothing is added if all that is given has a name. -/
theorem Adds.refl (h : ∀ (j : Nat) (m : Node F), nodes[j]? = some m → given m ≠ none →
    s.name? j ≠ none) :
    Adds nodes given s s := by
  refine ⟨fun j m hm => ?_, rfl, rfl, rfl⟩
  cases hname : s.name? j with
  | none =>
    have hgiven : given m = none := by
      by_contra hne
      exact h j m hm hne hname
    rw [hgiven]
    rfl
  | some name => rfl

/-- One open place takes a name. -/
theorem Adds.set {place : Nat} {name : String} (hplace : place < s.names.size)
    (hopen : s.isOpen place = true)
    (h : ∀ (j : Nat) (m : Node F), nodes[j]? = some m →
      given m = if j = place then some name else none) :
    Adds nodes given s (s.set place name) := by
  refine ⟨fun j m hm => ?_, by simp [Naming.set], rfl, rfl⟩
  rw [name?_set hplace, h j m hm]
  by_cases hj : j = place
  · rw [isOpen_eq, Option.isNone_iff_eq_none] at hopen
    rw [if_pos hj, if_pos hj, hj, hopen]
    rfl
  · rw [if_neg hj, if_neg hj, Option.or_none]

/-- An argument that is a parameter is the listed node at its place and no other. -/
theorem isParameter_node (hd : (nodes.map Node.id).Nodup) {h : Handle} (hkind : h.kind = .param)
    {k : Nat} (hk : position? nodes h.id = some k) {j : Nat} {m : Node F}
    (hm : nodes[j]? = some m) :
    (.node h : Value F).isParameter m.id = true ↔ j = k := by
  obtain ⟨n, hn, hid⟩ := position?_sound hk
  have hiff : (.node h : Value F).isParameter m.id = true ↔ h.id = m.id := by
    simp [Value.isParameter, hkind]
  rw [hiff]
  constructor
  · exact fun he => place_unique hd hm hn (he.symm.trans hid.symm)
  · rintro rfl
    rw [hm] at hn
    cases hn
    exact hid.symm

/-- What one argument adds: the name of the parameter that it is. -/
theorem visitArgument_adds (hd : (nodes.map Node.id).Nodup) (hsize : s.names.size = nodes.length)
    {v : Value F} {i : Nat} (h : visitArgument nodes layer s (v, i) = .ok t) :
    Adds nodes
      (fun m => if v.isParameter m.id then some (layer ++ "_p" ++ toString (i + 1)) else none)
      s t := by
  have hother : (∀ id, v.isParameter id = false) → Adds nodes
      (fun m => if v.isParameter m.id then some (layer ++ "_p" ++ toString (i + 1)) else none) s
        s :=
    fun hv => Adds.refl fun j m _ hgiven => by simp [hv] at hgiven
  unfold visitArgument at h
  split at h
  · rename_i g hg
    dsimp only at hg
    subst hg
    split at h
    · rename_i hkind
      split at h
      · rename_i k hk
        have hparam : ∀ (j : Nat) (m : Node F), nodes[j]? = some m →
            ((.node g : Value F).isParameter m.id = true ↔ j = k) :=
          fun j m hm => isParameter_node hd hkind hk hm
        split at h
        -- The parameter has no name yet, and gets one.
        · rename_i hopen
          cases h
          refine Adds.set (hsize ▸ position?_lt hk) hopen fun j m hm => ?_
          simp only [hparam j m hm]
        -- It is named already, so nothing is added.
        · rename_i hclosed
          cases h
          refine Adds.refl fun j m hm hgiven hname => hclosed ?_
          have hj : j = k := (hparam j m hm).mp (by simpa using hgiven)
          rw [isOpen_eq, ← hj, hname]
          rfl
      · cases h
    · rename_i hkind
      cases h
      exact hother fun id => by simp [Value.isParameter, hkind]
  -- The argument is no node at all.
  · rename_i hnode
    cases h
    refine hother fun id => ?_
    cases hv : v.node? with
    | none => simp [Value.isParameter, hv]
    | some g => exact absurd (Value.node?_eq_some.mp hv) (hnode g)

/-- A further argument is what its parameter is called, unless there was an earlier one. -/
theorem argument_take_succ {args : List (Value F)} {i : Nat} {v : Value F} (h : args[i]? = some v)
    (id : Nat) : NameRule.argument layer id (args.take (i + 1))
      = (NameRule.argument layer id (args.take i)).or
          (if v.isParameter id then some (layer ++ "_p" ++ toString (i + 1)) else none) := by
  have hlen : (args.take i).length = i := by
    rw [List.length_take]
    exact Nat.min_eq_left (Nat.le_of_lt (List.getElem?_eq_some_iff.mp h).1)
  unfold NameRule.argument
  rw [take_succ_of_getElem? h, List.findIdx?_append, hlen, List.findIdx?_singleton]
  cases (args.take i).findIdx? (Value.isParameter id) with
  | none => cases v.isParameter id <;> simp
  | some k => rfl

/-- **A layer calls its open parameters after itself**, each by its first place. -/
theorem visitArguments_adds (hd : (nodes.map Node.id).Nodup) (hsize : s.names.size = nodes.length)
    {args : List (Value F)} (h : args.zipIdx.foldlM (visitArgument nodes layer) s = .ok t) :
    Adds nodes (fun m => NameRule.argument layer m.id args) s t := by
  have hall := foldlM_zipIdx_keeps
    (P := fun i t => Adds nodes (fun m => NameRule.argument layer m.id (args.take i)) s t)
    (fun i v b c hv hb hc => ?_) (Adds.refl fun j m _ hgiven => absurd rfl hgiven) h
  · rwa [List.take_length] at hall
  · have hadds := hb.trans (visitArgument_adds hd (hb.size.trans hsize) hc)
    simpa only [argument_take_succ hv] using hadds

end

/-! ### The pass from left to right -/

/-- The name that a node has, if it has one, when the nodes before a place were visited. -/
def stageName (nodes : List (Node F)) (stage : Nat) (entry : Node F × Nat) : Option String :=
  match entry.1.label.name, entry.1.role with
  | some name, _ => some name
  | none, .input => if entry.2 < stage then some (NameRule.input nodes entry.2) else none
  | none, .layer a => if entry.2 < stage then some
    (NameRule.layer nodes entry.2 a.op.name) else none
  | none, .param _ => (nodes.zipIdx.take stage).findSome? (NameRule.byNode nodes entry.1.id)

/-- The names given and the numbers counted when the nodes before a place were visited. -/
structure AtStage (nodes : List (Node F)) (stage : Nat) (s : Naming) : Prop where
  /-- The names are those that the rules give so far. -/
  names : ∀ (j : Nat) (m : Node F), nodes[j]? = some m → s.name? j = stageName nodes stage (m, j)
  /-- There is a place for each node. -/
  size : s.names.size = nodes.length
  /-- The unnamed inputs were counted. -/
  inputs : s.inputs = (nodes.take stage).countP Node.isUnnamedInput
  /-- The layers were counted. -/
  layers : ∀ op, s.layers.count op = (nodes.take stage).countP (Node.runs op)

section

variable {nodes : List (Node F)} {stage : Nat} {n : Node F} {s t : Naming}

theorem countP_take_succ (hn : nodes[stage]? = some n) (p : Node F → Bool) :
    countUpTo nodes stage p = (nodes.take stage).countP p + if p n then 1 else 0 := by
  unfold countUpTo
  rw [take_succ_of_getElem? hn, List.countP_append, List.countP_singleton]

/-- A layer reads what comes before it, so it names nothing behind it. -/
theorem byNode_of_le (ho : Ordered nodes) (hn : nodes[stage]? = some n) {j : Nat} {m : Node F}
    (hm : nodes[j]? = some m) (hj : stage ≤ j) : NameRule.byNode nodes m.id (n, stage) = none := by
  unfold NameRule.byNode
  dsimp only
  split
  · rename_i a hname hrole
    unfold NameRule.argument
    rw [Option.map_eq_none_iff, List.findIdx?_eq_none_iff]
    intro v hv
    unfold Value.isParameter
    cases hnode : v.node? with
    | none => rfl
    | some h =>
      rw [Value.node?_eq_some.mp hnode] at hv
      obtain ⟨k, hk, n', hn', hid⟩ := ho.earlier stage n hn h (mem_deps_of_arg hrole hv)
      have hne : h.id ≠ m.id := fun he =>
        absurd (place_unique ho.distinct hn' hm (hid.trans he)) (by omega)
      simp [hne]
  · rfl

/-- At every other node than an unnamed input or layer, a stage adds what the node calls
parameters. -/
theorem stageName_succ (ho : Ordered nodes) (hn : nodes[stage]? = some n) {j : Nat} {m : Node F}
    (hm : nodes[j]? = some m) (hj : j = stage → m.label.name ≠ none ∨ m.kind = .param) :
    stageName nodes (stage + 1) (m, j)
      = (stageName nodes stage (m, j)).or (NameRule.byNode nodes m.id (n, stage)) := by
  -- Inputs and layers are numbered when they are visited, and what calls parameters leaves them
  -- alone.
  have hnumbered : ∀ name : String, j ≠ stage → (if j < stage + 1 then some name else none)
      = (if j < stage then some name else none).or (NameRule.byNode nodes m.id (n, stage)) := by
    intro name hne
    rcases Nat.lt_or_ge j stage with hlt | hge
    · rw [if_pos hlt, if_pos (by omega), Option.some_or]
    · rw [if_neg (by omega), if_neg (by omega), byNode_of_le ho hn hm hge]
      rfl
  unfold stageName
  dsimp only
  cases hname : m.label.name with
  | some name => rfl
  | none =>
    have hkind : j = stage → m.kind = .param := fun h => (hj h).resolve_left fun h => h hname
    unfold Node.kind at hkind
    cases hrole : m.role with
    | input => exact hnumbered _ fun h => by simp [hrole] at hkind; exact hkind h
    | layer a => exact hnumbered _ fun h => by simp [hrole] at hkind; exact hkind h
    | param p =>
      have hzip : (nodes.zipIdx)[stage]? = some (n, stage) := by simp [hn]
      dsimp only
      rw [take_succ_of_getElem? hzip, List.findSome?_append, List.findSome?_singleton]

/-- What has to be seen of a visit: the names of the other nodes, the node's own, and the counts. -/
theorem AtStage.succ (ho : Ordered nodes) (hs : AtStage nodes stage s) (hn : nodes[stage]? = some n)
    (hothers : ∀ (j : Nat) (m : Node F), nodes[j]? = some m →
      (j = stage → m.label.name ≠ none ∨ m.kind = .param) →
      t.name? j = (s.name? j).or (NameRule.byNode nodes m.id (n, stage)))
    (hown : n.label.name = none → n.kind ≠ .param →
      t.name? stage = some (ruledName nodes (n, stage)))
    (hsize : t.names.size = s.names.size)
    (hinputs : t.inputs = s.inputs + if n.isUnnamedInput then 1 else 0)
    (hlayers : ∀ op, t.layers.count op = s.layers.count op + if n.runs op then 1 else 0) :
    AtStage nodes (stage + 1) t := by
  refine ⟨fun j m hm => ?_, hsize.trans hs.size, ?_, fun op => ?_⟩
  · by_cases hj : j = stage → m.label.name ≠ none ∨ m.kind = .param
    · rw [hothers j m hm hj, hs.names j m hm, stageName_succ ho hn hm hj]
    · push Not at hj
      obtain ⟨rfl, hname, hkind⟩ := hj
      obtain rfl : m = n := Option.some.inj (hm.symm.trans hn)
      rw [hown hname hkind]
      unfold stageName ruledName
      dsimp only
      rw [hname]
      cases hrole : m.role with
      | input => exact (if_pos (Nat.lt_succ_self j)).symm
      | layer a => exact (if_pos (Nat.lt_succ_self j)).symm
      | param p => exact absurd (Node.kind_eq_param_iff.mpr ⟨p, hrole⟩) hkind
  · rw [hinputs, hs.inputs]
    exact (countP_take_succ hn _).symm
  · rw [hlayers, hs.layers]
    exact (countP_take_succ hn _).symm

/-- A place is open when the pass reaches it if the node has no name, unless it is a parameter. -/
theorem AtStage.isOpen_eq (hs : AtStage nodes stage s) (hn : nodes[stage]? = some n)
    (hkind : n.kind ≠ .param) : s.isOpen stage = n.label.name.isNone := by
  rw [Naming.isOpen_eq, hs.names stage n hn]
  unfold stageName
  dsimp only
  unfold Node.kind at hkind
  cases n.label.name with
  | some name => rfl
  | none =>
    cases hrole : n.role with
    | param p => simp [hrole] at hkind
    | input => simp
    | layer a => simp

/-- A visit that names nothing, since the node has a name or is a parameter. -/
theorem AtStage.pass (ho : Ordered nodes) (hs : AtStage nodes stage s) (hn : nodes[stage]? = some n)
    (hclosed : n.label.name ≠ none ∨ n.kind = .param) (hnames : t.names = s.names)
    (hinputs : t.inputs = s.inputs)
    (hlayers : ∀ op, t.layers.count op = s.layers.count op + if n.runs op then 1 else 0) :
    AtStage nodes (stage + 1) t := by
  refine hs.succ ho hn (fun j m hm hj => ?_) ?_ (by rw [hnames]) ?_ hlayers
  · have hnone : NameRule.byNode nodes m.id (n, stage) = none := by
      rcases hclosed with hname | hkind
      · exact NameRule.byNode_of_named hname ..
      · exact NameRule.byNode_of_ne_layer (by simp [hkind]) ..
    rw [hnone, Option.or_none]
    unfold name?
    rw [hnames]
  · exact fun hname hkind => absurd (hclosed.resolve_left fun h => h hname) hkind
  · have hnot : n.isUnnamedInput = false := by
      unfold Node.isUnnamedInput
      rcases hclosed with hname | hkind
      · simp [Option.isNone_iff_eq_none.not.mpr hname]
      · simp [hkind]
    rw [hinputs, hnot]
    rfl

/-- Of the nodes of a list only the visited one is at its place. -/
theorem ne_of_closed (hn : nodes[stage]? = some n) (hname : n.label.name = none)
    (hkind : n.kind ≠ .param) {j : Nat} {m : Node F} (hm : nodes[j]? = some m)
    (hj : j = stage → m.label.name ≠ none ∨ m.kind = .param) : j ≠ stage := by
  rintro rfl
  obtain rfl : m = n := Option.some.inj (hm.symm.trans hn)
  exact (hj rfl).elim (fun h => h hname) hkind

/-- An unnamed input is numbered among the unnamed inputs. -/
theorem AtStage.visitInput (ho : Ordered nodes) (hs : AtStage nodes stage s)
    (hn : nodes[stage]? = some n) (hrole : n.role = .input) (hname : n.label.name = none) :
    AtStage nodes (stage + 1)
      ({ s with inputs := s.inputs + 1 }.set stage ("input" ++ toString (s.inputs + 1))) := by
  have hplace : stage < s.names.size := hs.size ▸ (List.getElem?_eq_some_iff.mp hn).1
  have hkind : n.kind = .input := Node.kind_eq_input_iff.mpr hrole
  have hcounted : n.isUnnamedInput = true := by simp [Node.isUnnamedInput, hkind, hname]
  have hinputs : s.inputs + 1 = countUpTo nodes stage Node.isUnnamedInput := by
    rw [countP_take_succ hn, hs.inputs, if_pos hcounted]
  refine hs.succ ho hn (fun j m hm hj => ?_) (fun _ _ => ?_) (by simp [set]) ?_ fun op => ?_
  · rw [name?_set (s := { s with inputs := s.inputs + 1 }) hplace,
      if_neg (ne_of_closed hn hname (by simp [hkind]) hm hj),
      NameRule.byNode_of_ne_layer (by simp [hkind]), Option.or_none]
    rfl
  · rw [name?_set (s := { s with inputs := s.inputs + 1 }) hplace, if_pos rfl, hinputs]
    unfold ruledName
    dsimp only
    rw [hname, hrole]
    rfl
  · rw [if_pos hcounted]
    rfl
  · have hruns : n.runs op = false := by simp [Node.runs, Node.application?, hrole]
    rw [hruns]
    rfl

/-- An unnamed layer is numbered among the layers of its op, and calls its open parameters after
itself. -/
theorem AtStage.visitLayer (ho : Ordered nodes) (hs : AtStage nodes stage s)
    (hn : nodes[stage]? = some n) {a : Application F} (hrole : n.role = .layer a)
    (hname : n.label.name = none)
    (h : a.args.zipIdx.foldlM (visitArgument nodes (NameRule.layer nodes stage a.op.name))
      ({ s with layers := s.layers.bump a.op.name }.set stage
        (NameRule.layer nodes stage a.op.name)) = .ok t) :
    AtStage nodes (stage + 1) t := by
  have hplace : stage < s.names.size := hs.size ▸ (List.getElem?_eq_some_iff.mp hn).1
  have hkind : n.kind = .layer := Node.kind_eq_layer_iff.mpr ⟨a, hrole⟩
  have hset := name?_set (s := { s with layers := s.layers.bump a.op.name }) hplace
    (NameRule.layer nodes stage a.op.name)
  have hadds := visitArguments_adds ho.distinct (by simpa [set] using hs.size) h
  refine hs.succ ho hn (fun j m hm hj => ?_) (fun _ _ => ?_) ?_ ?_ fun op => ?_
  · rw [hadds.names j m hm, hset, if_neg (ne_of_closed hn hname (by simp [hkind]) hm hj),
      NameRule.byNode_layer hname hrole]
    rfl
  · rw [hadds.names stage n hn, hset, if_pos rfl, Option.some_or]
    unfold ruledName
    dsimp only
    rw [hname, hrole]
  · rw [hadds.size]
    simp [set]
  · rw [hadds.inputs]
    simp [Node.isUnnamedInput, hkind, set]
  · rw [hadds.layers]
    simp [set, Node.runs, Node.application?, hrole]

/-- **The pass keeps to the rules at every node.** -/
theorem AtStage.visit (ho : Ordered nodes) (hs : AtStage nodes stage s)
    (hn : nodes[stage]? = some n) (h : Naming.visit nodes s (n, stage) = .ok t) :
    AtStage nodes (stage + 1) t := by
  unfold Naming.visit at h
  cases hrole : n.role with
  | param p =>
    simp only [hrole] at h
    cases h
    exact hs.pass ho hn (.inr (Node.kind_eq_param_iff.mpr ⟨p, hrole⟩)) rfl rfl fun op => by
      simp [Node.runs, Node.application?, hrole]
  | input =>
    have hopen := hs.isOpen_eq hn (by simp [Node.kind, hrole])
    simp only [hrole, hopen, Option.isNone_iff_eq_none] at h
    split at h
    · rename_i hname
      cases h
      exact hs.visitInput ho hn hrole hname
    · rename_i hname
      cases h
      exact hs.pass ho hn (.inl hname) rfl rfl fun op => by
        simp [Node.runs, Node.application?, hrole]
  | layer a =>
    -- The layer is counted before it is named, so that its number includes it, as that of a
    -- rule does.
    have hruns : n.runs a.op.name = true := by simp [Node.runs, Node.application?, hrole]
    have hopen : ({ s with layers := s.layers.bump a.op.name } : Naming).isOpen stage
        = n.label.name.isNone := hs.isOpen_eq hn (by simp [Node.kind, hrole])
    have hlayer : a.op.name ++ toString ((s.layers.bump a.op.name).count a.op.name)
        = NameRule.layer nodes stage a.op.name := by
      unfold NameRule.layer
      rw [Tally.count_bump, hs.layers, countP_take_succ hn, if_pos rfl, if_pos hruns]
    simp only [hrole, hopen, hlayer, Option.isNone_iff_eq_none] at h
    split at h
    · rename_i hname
      exact hs.visitLayer ho hn hrole hname h
    · rename_i hname
      cases h
      exact hs.pass ho hn (.inl hname) rfl rfl fun op => by
        simp [Node.runs, Node.application?, hrole]

/-- Before any visit only explicit names are given. -/
theorem atStage_start (nodes : List (Node F)) :
    AtStage nodes 0 ⟨(nodes.map fun n => n.label.name).toArray, 0, []⟩ := by
  refine ⟨fun j m hm => ?_, by simp, by simp, fun op => by simp [Tally.count]⟩
  have hname : (⟨(nodes.map fun n => n.label.name).toArray, 0, []⟩ : Naming).name? j
      = m.label.name := by
    simp [name?, hm]
  rw [hname]
  unfold stageName
  dsimp only
  cases m.label.name with
  | some name => rfl
  | none =>
    cases m.role with
    | input => rfl
    | layer a => rfl
    | param p => rfl

/-- After all visits what is open is numbered, and then the names are those of the rules. -/
theorem AtStage.close_eq (hs : AtStage nodes nodes.length s) :
    s.close nodes = nodes.zipIdx.map (ruledName nodes) := by
  unfold close
  refine List.map_congr_left fun p hp => ?_
  obtain ⟨n, place⟩ := p
  have hn : nodes[place]? = some n := List.mem_zipIdx_iff_getElem?.mp hp
  have hlt : place < nodes.length := (List.getElem?_eq_some_iff.mp hn).1
  have hname := hs.names place n hn
  unfold name? at hname
  dsimp only
  rw [hname]
  unfold stageName ruledName
  dsimp only
  cases n.label.name with
  | some name => rfl
  | none =>
    cases hrole : n.role with
    | input => simp [hlt]
    | layer a => simp [hlt]
    | param p =>
      have hkind : n.kind = .param := Node.kind_eq_param_iff.mpr ⟨p, hrole⟩
      have hparam : n.kind.stem ++ toString (((nodes.take (place + 1)).map Node.kind).count n.kind)
          = NameRule.param nodes place := by
        unfold NameRule.param countUpTo
        rw [hkind, List.count, List.countP_map]
        rfl
      rw [hparam, List.take_of_length_le (by simp)]
      dsimp only
      cases (nodes.zipIdx).findSome? (NameRule.byNode nodes n.id) with
      | none => rfl
      | some name => rfl

end

end Naming

/-- The names of a list of nodes in dependency order are made, and they are those of the rules. -/
theorem assignNames_eq {nodes : List (Node F)} (ho : Ordered nodes) :
    assignNames nodes = .ok (nodes.zipIdx.map (ruledName nodes)) := by
  obtain ⟨names, hnames⟩ := exists_assignNames ho
  rw [hnames]
  unfold assignNames at hnames
  obtain ⟨s, hs, hclose⟩ := bind_eq_ok.mp hnames
  have hstage := foldlM_zipIdx_keeps (P := Naming.AtStage nodes)
    (fun k n b c hn hb hc => hb.visit ho hn hc) (Naming.atStage_start nodes) hs
  rw [← pure_eq_ok.mp hclose, hstage.close_eq]

/-! ### The names as a relation -/

/-- An unnamed layer of a list, by its place and what it computes. -/
def UnnamedLayer (nodes : List (Node F)) (place : Nat) (a : Application F) : Prop :=
  ∃ m, nodes[place]? = some m ∧ m.label.name = none ∧ m.role = .layer a

/-- A parameter is among the arguments of a layer. -/
def Application.Takes (a : Application F) (id : Nat) : Prop :=
  ∃ v ∈ a.args, v.isParameter id = true

/-- The names of a list of nodes, one for each node, keep to the rules. -/
structure NamedByRules (nodes : List (Node F)) (names : List String) : Prop where
  /-- Every node has a name. -/
  length : names.length = nodes.length
  /-- Names that were given are kept. -/
  given : ∀ (k : Nat) (n : Node F) (name : String), nodes[k]? = some n →
    n.label.name = some name → names[k]? = some name
  /-- Unnamed inputs are numbered. -/
  input : ∀ (k : Nat) (n : Node F), nodes[k]? = some n → n.label.name = none → n.kind = .input →
    names[k]? = some ("input" ++ toString (countUpTo nodes k Node.isUnnamedInput))
  /-- Unnamed layers are called after their ops and numbered among all layers over them. -/
  layer : ∀ (k : Nat) (a : Application F), UnnamedLayer nodes k a →
    names[k]? = some (a.op.name ++ toString (countUpTo nodes k (Node.runs a.op.name)))
  /-- Unnamed parameters are called after the first unnamed layer that takes them and their first
  place there. -/
  argument : ∀ (k : Nat) (n : Node F), nodes[k]? = some n → n.label.name = none → n.kind = .param →
    ∀ (j : Nat) (a : Application F) (layer : String) (i : Nat), UnnamedLayer nodes j a →
      (∀ j' a', j' < j → UnnamedLayer nodes j' a' → ¬a'.Takes n.id) →
      a.args.findIdx? (Value.isParameter n.id) = some i → names[j]? = some layer →
      names[k]? = some (layer ++ "_p" ++ toString (i + 1))
  /-- Unnamed parameters that no unnamed layer takes are numbered among all parameters. -/
  param : ∀ (k : Nat) (n : Node F), nodes[k]? = some n → n.label.name = none → n.kind = .param →
    (∀ j a, UnnamedLayer nodes j a → ¬a.Takes n.id) →
    names[k]? = some ("param" ++ toString (countUpTo nodes k Node.isParam))

namespace NameRule

variable {nodes : List (Node F)} {id place : Nat} {n : Node F}

/-- A layer has no name for a parameter that it does not take. -/
theorem argument_eq_none_iff {layer : String} {a : Application F} :
    argument layer id a.args = none ↔ ¬a.Takes id := by
  unfold argument Application.Takes
  rw [Option.map_eq_none_iff, List.findIdx?_eq_none_iff]
  push Not
  simp only [Bool.not_eq_true]

/-- What a node calls a parameter is made of the layer's name and the parameter's place. -/
theorem byNode_eq_some {name : String} (h : byNode nodes id (n, place) = some name) :
    ∃ a i, n.role = .layer a ∧ a.args.findIdx? (Value.isParameter id) = some i ∧
      layer nodes place a.op.name ++ "_p" ++ toString (i + 1) = name := by
  have hname : n.label.name = none := by
    by_contra hne
    rw [byNode_of_named hne] at h
    cases h
  have hkind : n.kind = .layer := by
    by_contra hne
    rw [byNode_of_ne_layer hne] at h
    cases h
  obtain ⟨a, hrole⟩ := Node.kind_eq_layer_iff.mp hkind
  rw [byNode_layer hname hrole] at h
  obtain ⟨i, hi, hmade⟩ := Option.map_eq_some_iff.mp h
  exact ⟨a, i, hrole, hi, hmade⟩

/-- Only unnamed layers that take a parameter have a name for it. -/
theorem byNode_eq_none_iff (hn : nodes[place]? = some n) :
    byNode nodes id (n, place) = none ↔ ∀ a, UnnamedLayer nodes place a → ¬a.Takes id := by
  constructor
  · rintro h a ⟨m, hm, hname, hrole⟩
    obtain rfl : n = m := Option.some.inj (hn.symm.trans hm)
    rwa [byNode_layer hname hrole, argument_eq_none_iff] at h
  · intro h
    by_cases hname : n.label.name = none
    · by_cases hkind : n.kind = .layer
      · obtain ⟨a, hrole⟩ := Node.kind_eq_layer_iff.mp hkind
        rw [byNode_layer hname hrole, argument_eq_none_iff]
        exact h a ⟨n, hn, hname, hrole⟩
      · exact byNode_of_ne_layer hkind ..
    · exact byNode_of_named hname ..

/-- Nodes among which no unnamed layer takes a parameter have no name for it. -/
theorem findSome?_take_byNode {stage : Nat}
    (h : ∀ j a, j < stage → UnnamedLayer nodes j a → ¬a.Takes id) :
    (nodes.zipIdx.take stage).findSome? (byNode nodes id) = none := by
  rw [List.findSome?_eq_none_iff]
  rintro ⟨n, j⟩ hmem
  obtain ⟨k, hk, hget⟩ := List.mem_take_iff_getElem.mp hmem
  rw [List.getElem_zipIdx, Nat.zero_add] at hget
  cases hget
  have hlt : j < stage := by omega
  exact (byNode_eq_none_iff (by simp)).mpr fun a ha => h j a hlt ha

/-- A parameter is called by the first unnamed layer that takes it. -/
theorem findSome?_byNode {a : Application F} {i : Nat} (ha : UnnamedLayer nodes place a)
    (hfirst : ∀ j' a', j' < place → UnnamedLayer nodes j' a' → ¬a'.Takes id)
    (hi : a.args.findIdx? (Value.isParameter id) = some i) :
    nodes.zipIdx.findSome? (byNode nodes id)
      = some (layer nodes place a.op.name ++ "_p" ++ toString (i + 1)) := by
  obtain ⟨m, hm, hname, hrole⟩ := ha
  have hzip : nodes.zipIdx[place]? = some (m, place) := by simp [hm]
  have hthis : byNode nodes id (m, place)
      = some (layer nodes place a.op.name ++ "_p" ++ toString (i + 1)) := by
    rw [byNode_layer hname hrole, argument, hi]
    rfl
  rw [← List.take_append_drop (place + 1) nodes.zipIdx, List.findSome?_append,
    take_succ_of_getElem? hzip, List.findSome?_append, findSome?_take_byNode hfirst,
    List.findSome?_singleton, hthis]
  rfl

end NameRule

/-- The names that the rules give keep to the rules. -/
theorem namedByRules_ruledNames (nodes : List (Node F)) :
    NamedByRules nodes (nodes.zipIdx.map (ruledName nodes)) := by
  have hget : ∀ (k : Nat) (n : Node F), nodes[k]? = some n →
      (nodes.zipIdx.map (ruledName nodes))[k]? = some (ruledName nodes (n, k)) := by
    intro k n hn
    simp [hn]
  have hlayer : ∀ (k : Nat) (a : Application F), UnnamedLayer nodes k a →
      (nodes.zipIdx.map (ruledName nodes))[k]? = some (NameRule.layer nodes k a.op.name) := by
    rintro k a ⟨m, hm, hname, hrole⟩
    rw [hget k m hm]
    unfold ruledName
    dsimp only
    rw [hname, hrole]
  refine ⟨by simp, ?given, ?input, hlayer, ?argument, ?param⟩
  case given =>
    intro k n name hn hname
    rw [hget k n hn]
    unfold ruledName
    dsimp only
    rw [hname]
  case input =>
    intro k n hn hname hkind
    rw [hget k n hn]
    unfold ruledName
    dsimp only
    rw [hname, Node.kind_eq_input_iff.mp hkind]
    rfl
  -- The parameter is named after the first unnamed layer that has it as an argument.
  case argument =>
    intro k n hn hname hkind j a layer i ha hfirst hi hj
    obtain ⟨p, hrole⟩ := Node.kind_eq_param_iff.mp hkind
    obtain rfl : NameRule.layer nodes j a.op.name = layer :=
      Option.some.inj ((hlayer j a ha).symm.trans hj)
    rw [hget k n hn]
    unfold ruledName
    dsimp only
    rw [hname, hrole, NameRule.findSome?_byNode ha hfirst hi]
    rfl
  -- No unnamed layer has it, so the search through all nodes finds nothing.
  case param =>
    intro k n hn hname hkind hnone
    obtain ⟨p, hrole⟩ := Node.kind_eq_param_iff.mp hkind
    have hall : (nodes.zipIdx.take nodes.zipIdx.length).findSome?
        (NameRule.byNode nodes n.id) = none :=
      NameRule.findSome?_take_byNode fun j a _ => hnone j a
    rw [List.take_length] at hall
    rw [hget k n hn]
    unfold ruledName
    dsimp only
    rw [hname, hrole, hall]
    rfl

/-- **Names are given by rule**: for every list of nodes in dependency order they are made, and they
keep to the rules. -/
theorem assignNames_by_rule {nodes : List (Node F)} (ho : Ordered nodes) :
    ∃ names, assignNames nodes = .ok names ∧ NamedByRules nodes names :=
  ⟨_, assignNames_eq ho, namedByRules_ruledNames nodes⟩

/-- A parameter that only a named layer reads, one that two unnamed layers read, inputs with and
without a name, and a named layer that counts. -/
def partlyNamed : List (Node ℚ) :=
  [⟨0, bareLabel, .param ⟨.real 3, .none, .none, .gradient⟩⟩,
    ⟨1, { bareLabel with name := some "x" }, .input⟩,
    ⟨2, { bareLabel with name := some "scaled" }, .layer ⟨Builtin.times.op, [.node ⟨0, .param, ""⟩,
      .node ⟨1, .input, ""⟩], [], .same, .same, [], none⟩⟩,
    ⟨3, bareLabel, .param ⟨.real 4, .none, .none, .gradient⟩⟩,
    ⟨4, bareLabel, .layer ⟨Builtin.times.op, [.node ⟨2, .layer, ""⟩, .node ⟨3, .param, ""⟩], [],
      .same, .same, [], none⟩⟩,
    ⟨5, bareLabel, .input⟩,
    ⟨6, bareLabel, .layer ⟨Builtin.plus.op, [.node ⟨3, .param, ""⟩, .node ⟨5, .input, ""⟩], [],
      .same, .same, [], none⟩⟩]

theorem assignNames_by_rule_partlyNamed :
    Ordered partlyNamed ∧ assignNames partlyNamed
        = .ok ["param1", "x", "scaled", "times2_p2", "times2", "input1", "plus1"] ∧
      NamedByRules partlyNamed
        ["param1", "x", "scaled", "times2_p2", "times2", "input1", "plus1"] := by
  have ho : Ordered partlyNamed := ⟨by decide, violations_eq_nil_iff.mp rfl⟩
  have hnames : assignNames partlyNamed
      = .ok ["param1", "x", "scaled", "times2_p2", "times2", "input1", "plus1"] := rfl
  obtain ⟨names, hok, hrules⟩ := assignNames_by_rule ho
  cases hnames.symm.trans hok
  exact ⟨ho, hnames, hrules⟩

end SlotGrad
