import SlotGrad.Program.Compile
import SlotGrad.Proofs.Completion
import SlotGrad.Proofs.Listing

/-!
# Compiled streams

Compiling an ordered list of nodes answers streams whose instructions are functions of the
layers: `forwardOf` and `backwardOf` write them down.  Filled from a store, the template of a
forward instruction gives the layer's arguments with every node replaced by the content of its
slot; that of a backward instruction has the content of the layer's own derivative slot among
them.  Filling a place and moving it on can be exchanged, so that this is seen without filling
the longer template anew.

## Main definitions

* `Store.content`, `Store.argument` — the content of a slot, and what an argument stands for.
* `operandSlots` — the arguments that are nodes, by the slots they stand for and their places.
* `forwardOf`, `backwardOf` — the instructions of a layer.
* `adjointArguments` — what an adjoint is called with.
* `movedOn` — a place behind an argument that is put in.

## Main results

* `compileNodes_eq_ok` — what compilation does, step by step.
* `compileNodes_streams` — the streams of a compiled list.
* `Instruction.fill_insertIdx` — a place is filled before or after another argument is put in.
* `backwardOf_bind_eq_insertIdx` — binding a backward instruction is binding the forward one and
  putting the derivative in, from every store.
* `forwardOf_bind`, `backwardOf_bind` — the arguments that instructions are called with.
-/

namespace SlotGrad

variable {F : Type}

/-! ### Contents of slots -/

theorem Value.node?_eq_some {v : Value F} {h : Handle} : v.node? = some h ↔ v = .node h := by
  cases v <;> simp [Value.node?]

theorem locate?_natCast_of_le {size k : Nat} (h : size ≤ k) : locate? size (k : Int) = none := by
  unfold locate?
  rw [if_neg (by omega), if_neg (by omega)]

namespace Store

/-- The content of the slot at a place. -/
def content (s : Store F) (k : Nat) : Value F := (s.slots[k]?).getD .none

theorem get_natCast {s : Store F} {k : Nat} (h : k < s.size) :
    s.get (k : Int) = .ok (s.content k) := by
  unfold get
  rw [locate?_natCast h]
  rfl

theorem set_natCast {s : Store F} {k : Nat} (h : k < s.size) (v : Value F) :
    s.set (k : Int) v = .ok (s.setAt k v) := by
  unfold set
  rw [locate?_natCast h]

theorem set_natCast_eq_ok {s t : Store F} {k : Nat} {v : Value F} :
    s.set (k : Int) v = .ok t ↔ k < s.size ∧ s.setAt k v = t := by
  constructor
  · intro h
    have hlt : k < s.size := by
      by_contra hge
      have hnone := locate?_natCast_of_le (Nat.le_of_not_lt hge)
      unfold set at h
      rw [hnone] at h
      cases h
    rw [set_natCast hlt] at h
    cases h
    exact ⟨hlt, rfl⟩
  · rintro ⟨hlt, rfl⟩
    exact set_natCast hlt v

@[simp] theorem content_setAt_self {s : Store F} {k : Nat} (h : k < s.size) (v : Value F) :
    (s.setAt k v).content k = v := by
  unfold size at h
  simp [content, setAt, h]

@[simp] theorem content_setAt_of_ne (s : Store F) {j k : Nat} (h : j ≠ k) (v : Value F) :
    (s.setAt k v).content j = s.content j := by
  simp [content, setAt, Ne.symm h]

theorem content_of_le {s : Store F} {k : Nat} (h : s.size ≤ k) : s.content k = .none := by
  unfold content
  rw [Array.getElem?_eq_none h]
  rfl

/-- A store is given by its size and its contents. -/
theorem ext_content {s t : Store F} (hsize : t.size = s.size)
    (h : ∀ k, t.content k = s.content k) : t = s := by
  obtain ⟨a, ha⟩ := s
  obtain ⟨b, hb⟩ := t
  have hslots : b = a := by
    refine Array.ext hsize fun k hk hk' => ?_
    have hcontent := h k
    unfold content at hcontent
    rwa [Array.getElem?_eq_getElem hk, Array.getElem?_eq_getElem hk'] at hcontent
  subst hslots
  rfl

/-- What an argument stands for: a node stands for the content of its slot. -/
def argument (slotOf : Handle → Option Nat) (s : Store F) : Value F → Value F
  | .node h => ((slotOf h).map s.content).getD .none
  | v => v

@[simp] theorem argument_node (slotOf : Handle → Option Nat) (s : Store F) (h : Handle) :
    s.argument slotOf (.node h) = ((slotOf h).map s.content).getD .none := rfl

theorem argument_of_not_node (slotOf : Handle → Option Nat) (s : Store F) {v : Value F}
    (h : v.node? = none) : s.argument slotOf v = v := by
  cases v <;> first | rfl | cases h

/-- Arguments stand for the same in stores that agree on the slots of the nodes among them. -/
theorem argument_congr {slotOf : Handle → Option Nat} {s t : Store F} {v : Value F}
    (h : ∀ n k, v = .node n → slotOf n = some k → s.content k = t.content k) :
    s.argument slotOf v = t.argument slotOf v := by
  cases hv : v.node? with
  | none => rw [argument_of_not_node slotOf s hv, argument_of_not_node slotOf t hv]
  | some n =>
    have hvn := Value.node?_eq_some.mp hv
    rw [hvn, argument_node, argument_node]
    cases hslot : slotOf n with
    | none => rfl
    | some k => exact h n k hvn hslot

end Store

/-! ### Templates -/

/-- An argument in a template: the place of a node is left open. -/
def Value.blank : Value F → Value F
  | .node _ => .none
  | v => v

theorem Value.blank_of_not_node {v : Value F} (h : v.node? = Option.none) : v.blank = v := by
  cases v <;> first | rfl | cases h

/-- A text stays a text in a template and no other argument becomes one. -/
@[simp] theorem Value.isText_blank (v : Value F) : v.blank.isText = v.isText := by
  cases v <;> rfl

/-- The arguments that are nodes, by the slots they stand for and their places. -/
def operandSlots (slotOf : Handle → Option Nat) : Nat → List (Value F) → List (Int × Int)
  | _, [] => []
  | k, v :: vs =>
    match v.node?.bind slotOf with
    | some slot => ((slot : Int), (k : Int)) :: operandSlots slotOf (k + 1) vs
    | none => operandSlots slotOf (k + 1) vs

section

variable {slotOf : Handle → Option Nat}

theorem operandSlots_append (k : Nat) (us vs : List (Value F)) :
    operandSlots slotOf k (us ++ vs)
      = operandSlots slotOf k us ++ operandSlots slotOf (k + us.length) vs := by
  induction us generalizing k with
  | nil => rfl
  | cons u us ih =>
    have hk : k + (u :: us).length = k + 1 + us.length := by simp only [List.length_cons]; omega
    rw [List.cons_append, operandSlots, operandSlots, hk]
    cases u.node?.bind slotOf with
    | none => exact ih (k + 1)
    | some slot => rw [ih (k + 1), List.cons_append]

/-- An operand is one of the arguments, at its place. -/
theorem mem_operandSlots {k : Nat} {vs : List (Value F)} {b : Int × Int} :
    b ∈ operandSlots slotOf k vs ↔ ∃ (p : Nat) (h : Handle) (slot : Nat),
      vs[p]? = some (.node h) ∧ slotOf h = some slot ∧
          b = ((slot : Int), ((k + p : Nat) : Int)) := by
  induction vs generalizing k with
  | nil => simp [operandSlots]
  | cons v vs ih =>
    -- An operand of the whole is the first argument, or an operand of the rest.
    have hstep : (∃ (p : Nat) (h : Handle) (slot : Nat), (v :: vs)[p]? = some (.node h) ∧
        slotOf h = some slot ∧ b = ((slot : Int), ((k + p : Nat) : Int))) ↔
        (∃ (h : Handle) (slot : Nat), v = .node h ∧ slotOf h = some slot ∧
          b = ((slot : Int), (k : Int))) ∨ b ∈ operandSlots slotOf (k + 1) vs := by
      rw [ih]
      constructor
      · rintro ⟨p, h, slot, hp, hslot, rfl⟩
        cases p with
        | zero => exact .inl ⟨h, slot, by simpa using hp, hslot, by simp⟩
        | succ p => exact .inr ⟨p, h, slot, by simpa using hp, hslot, by simp; omega⟩
      · rintro (⟨h, slot, rfl, hslot, rfl⟩ | ⟨p, h, slot, hp, hslot, rfl⟩)
        · exact ⟨0, h, slot, rfl, hslot, by simp⟩
        · exact ⟨p + 1, h, slot, by simpa using hp, hslot, by simp; omega⟩
    rw [hstep, operandSlots]
    cases hv : v.node?.bind slotOf with
    | some slot =>
      obtain ⟨h, hnode, hslot⟩ := Option.bind_eq_some_iff.mp hv
      have hvn := Value.node?_eq_some.mp hnode
      rw [List.mem_cons]
      constructor
      · rintro (rfl | hb)
        · exact .inl ⟨h, slot, hvn, hslot, rfl⟩
        · exact .inr hb
      · rintro (⟨h', slot', hv', hslot', rfl⟩ | hb)
        · rw [hvn] at hv'
          cases hv'
          rw [hslot] at hslot'
          cases hslot'
          exact .inl rfl
        · exact .inr hb
    | none =>
      constructor
      · exact .inr
      · rintro (⟨h', slot', rfl, hslot', rfl⟩ | hb)
        · rw [Value.node?_node, Option.bind_some, hslot'] at hv
          cases hv
        · exact hb

/-- Pushing arguments onto a template opens a place for each node and keeps everything else; it
completes if every node has a slot. -/
theorem foldlM_push {args : List (Value F)} {t u : Template F} :
    args.foldlM (Template.push slotOf) t = .ok u ↔
      (∀ h, Value.node h ∈ args → (slotOf h).isSome) ∧
        u = ⟨t.args ++ args.map Value.blank,
          t.vars ++ (operandSlots slotOf t.args.length args).map Prod.fst,
          t.positions ++ (operandSlots slotOf t.args.length args).map Prod.snd⟩ := by
  induction args generalizing t with
  | nil =>
    rw [List.foldlM_nil, pure_eq_ok]
    simp only [operandSlots, List.map_nil, List.append_nil]
    constructor
    · rintro rfl
      refine ⟨?_, rfl⟩
      intro h hh
      cases hh
    · rintro ⟨-, rfl⟩
      rfl
  | cons v vs ih =>
    rw [List.foldlM_cons, bind_eq_ok]
    by_cases hv : ∃ h, v = .node h
    · obtain ⟨h, rfl⟩ := hv
      cases hslot : slotOf h with
      | none =>
        constructor
        · rintro ⟨t', ht', -⟩
          -- A node without a slot stops the push.
          simp [Template.push, hslot] at ht'
        · rintro ⟨hall, -⟩
          have := hall h (List.mem_cons_self ..)
          rw [hslot] at this
          cases this
      | some slot =>
        have hpush : Template.push slotOf t (.node h)
            = .ok ⟨t.args ++ [.none], t.vars ++ [(slot : Int)],
              t.positions ++ [(t.args.length : Int)]⟩ := by
          simp [Template.push, hslot]
        rw [hpush]
        simp only [Except.ok.injEq, exists_eq_left']
        rw [ih]
        simp [operandSlots, hslot, Value.blank]
    -- Anything but a node is kept as it is.
    · have hnode : v.node? = none := by
        cases v <;> first | rfl | exact absurd ⟨_, rfl⟩ hv
      have hpush : Template.push slotOf t v = .ok { t with args := t.args ++ [v] } := by
        cases v <;> first | rfl | cases hnode
      have hblank : v.blank = v := Value.blank_of_not_node hnode
      have hne : ∀ h, Value.node h ≠ v := fun h e => hv ⟨h, e.symm⟩
      rw [hpush]
      simp only [Except.ok.injEq, exists_eq_left']
      rw [ih]
      simp [operandSlots, hnode, hblank, hne]

/-- Arguments split into a template and bindings. -/
theorem ofArgs_eq_ok {args : List (Value F)} {t : Template F} :
    Template.ofArgs slotOf args = .ok t ↔
      (∀ h, Value.node h ∈ args → (slotOf h).isSome) ∧
        t = ⟨args.map Value.blank, (operandSlots slotOf 0 args).map Prod.fst,
          (operandSlots slotOf 0 args).map Prod.snd⟩ := by
  unfold Template.ofArgs
  rw [foldlM_push]
  simp

theorem zip_map_fst_snd {α β : Type} (bs : List (α × β)) :
    (bs.map Prod.fst).zip (bs.map Prod.snd) = bs := by
  rw [List.zip_map', List.map_id']

/-- Filling the open places of a template puts the contents of slots where the nodes were. -/
theorem foldlM_fillFrom {s : Store F} (hs : ∀ h k, slotOf h = some k → k < s.size) :
    ∀ args pre : List (Value F),
      (operandSlots slotOf pre.length args).foldlM (Instruction.fillFrom s)
          (pre ++ args.map Value.blank)
        = .ok (pre ++ args.map (s.argument slotOf)) := by
  intro args
  induction args with
  | nil =>
    intro pre
    rfl
  | cons v vs ih =>
    intro pre
    have hnext : ∀ w : Value F, (operandSlots slotOf (pre.length + 1) vs).foldlM
        (Instruction.fillFrom s) (pre ++ w :: vs.map Value.blank)
          = .ok (pre ++ w :: vs.map (s.argument slotOf)) := by
      intro w
      have h := ih (pre ++ [w])
      simpa using h
    rw [operandSlots]
    cases hv : v.node?.bind slotOf with
    -- A constant is no open place, and stands there already.
    | none =>
      have hsame : v.blank = s.argument slotOf v := by
        cases v <;> simp_all [Value.blank, Store.argument]
      simpa [hsame] using hnext (s.argument slotOf v)
    | some slot =>
      obtain ⟨h, hnode, hslot⟩ := Option.bind_eq_some_iff.mp hv
      have hvn := Value.node?_eq_some.mp hnode
      have harg : s.argument slotOf v = s.content slot := by
        rw [hvn, Store.argument, hslot]
        rfl
      -- The open place is the one behind what is filled.
      have hfill : Instruction.fillFrom s (pre ++ v.blank :: vs.map Value.blank)
          ((slot : Int), (pre.length : Int))
            = .ok (pre ++ s.content slot :: vs.map Value.blank) := by
        unfold Instruction.fillFrom
        rw [Store.get_natCast (hs h slot hslot)]
        have hlt : pre.length < (pre ++ v.blank :: vs.map Value.blank).length := by
          simp
        simp only [bind, Except.bind]
        unfold Instruction.fill
        rw [locate?_natCast hlt]
        simp
      rw [List.map_cons, List.map_cons, List.foldlM_cons, hfill, harg]
      exact hnext (s.content slot)

/-! ### Instructions -/

/-- The operands of a layer as the backward pass counts them: those behind the place where the
derivative of the output is put in are one place further. -/
def adjointOperands (slotOf : Handle → Option Nat) (args : List (Value F)) : List (Int × Int) :=
  operandSlots slotOf 0 (args.take (seedPlace args))
    ++ operandSlots slotOf (seedPlace args + 1) (args.drop (seedPlace args))

/-- How many derivatives a layer's adjoint is taken to return. -/
def derCountOf (slotOf : Handle → Option Nat) (a : Application F) : Count F :=
  a.derCount.getD (.whole (inferredCount ((operandSlots slotOf 0 a.args).map Prod.snd)))

/-- The forward instruction of a layer, written down. -/
def forwardOf (slotOf : Handle → Option Nat) (p : Placed F) : Instruction F :=
  ⟨p.layer.op, Instruction.forwardKind, p.name, p.source, p.layer.args.map Value.blank,
    p.layer.kwargs, (operandSlots slotOf 0 p.layer.args).map Prod.fst,
    (operandSlots slotOf 0 p.layer.args).map Prod.snd, some (valueSlot p.place : Nat), none⟩

/-- The backward instruction of a layer, written down. -/
def backwardOf (slotOf : Handle → Option Nat) (p : Placed F) : Instruction F :=
  ⟨p.layer.op, Instruction.backwardKind, p.name, p.source,
    (p.layer.args.take (seedPlace p.layer.args)).map Value.blank
      ++ .none :: (p.layer.args.drop (seedPlace p.layer.args)).map Value.blank,
    p.layer.kwargs,
    (adjointOperands slotOf p.layer.args).map Prod.fst ++ [derSlot (valueSlot p.place : Nat)],
    (adjointOperands slotOf p.layer.args).map Prod.snd ++ [(seedPlace p.layer.args : Int)], none,
    some (derCountOf slotOf p.layer)⟩

/-- The arguments that a layer's adjoint is called with: those of the layer, and the content of its
own derivative slot before the first text or at the end. -/
def adjointArguments (slotOf : Handle → Option Nat) (s : Store F) (place : Nat)
    (args : List (Value F)) : List (Value F) :=
  (args.take (seedPlace args)).map (s.argument slotOf)
    ++ s.content (valueSlot place + 1) :: (args.drop (seedPlace args)).map (s.argument slotOf)

theorem seedPlace_le (args : List (Value F)) : seedPlace args ≤ args.length :=
  List.findIdx_le_length

/-- The first text of a template is that of the arguments. -/
@[simp] theorem seedPlace_map_blank (args : List (Value F)) :
    seedPlace (args.map Value.blank) = seedPlace args := by
  unfold seedPlace
  rw [List.findIdx_map]
  congr 1
  funext v
  exact Value.isText_blank v

theorem callInstruction_eq_ok {p : Placed F} {op : Op} {args : List (Value F)}
    {kwargs : List (String × Value F)} {i : Instruction F} :
    callInstruction slotOf p op args kwargs = .ok i ↔
      (∀ h, Value.node h ∈ args → (slotOf h).isSome) ∧
        i = ⟨op, Instruction.forwardKind, p.name, p.source, args.map Value.blank, kwargs,
          (operandSlots slotOf 0 args).map Prod.fst, (operandSlots slotOf 0 args).map Prod.snd,
          some (valueSlot p.place : Nat), none⟩ := by
  unfold callInstruction
  rw [bind_eq_ok]
  constructor
  · rintro ⟨t, ht, hi⟩
    obtain ⟨hall, rfl⟩ := ofArgs_eq_ok.mp ht
    exact ⟨hall, (pure_eq_ok.mp hi).symm⟩
  · rintro ⟨hall, rfl⟩
    exact ⟨_, ofArgs_eq_ok.mpr ⟨hall, rfl⟩, rfl⟩

theorem forwardInstruction_eq_ok {p : Placed F} {i : Instruction F} :
    forwardInstruction slotOf p = .ok i ↔
      (∀ h, Value.node h ∈ p.layer.args → (slotOf h).isSome) ∧ i = forwardOf slotOf p := by
  unfold forwardInstruction
  exact callInstruction_eq_ok

/-- Operands in front of the derivative stay at their places. -/
theorem map_shifted_operandSlots_take (args : List (Value F)) (i : Nat) :
    ((operandSlots slotOf 0 (args.take i)).map Prod.snd).map (shifted i)
      = (operandSlots slotOf 0 (args.take i)).map Prod.snd := by
  rw [List.map_map]
  refine List.map_congr_left ?_
  intro b hb
  obtain ⟨p, h, slot, hp, -, rfl⟩ := mem_operandSlots.mp hb
  have hlt : p < i := by
    have := (List.getElem?_eq_some_iff.mp hp).1
    rw [List.length_take] at this
    omega
  simp only [Function.comp, shifted]
  rw [if_neg (by omega)]

/-- Operands behind the derivative move one place on. -/
theorem map_shifted_operandSlots (k i : Nat) (hik : i ≤ k) (args : List (Value F)) :
    ((operandSlots slotOf k args).map Prod.snd).map (shifted i)
      = (operandSlots slotOf (k + 1) args).map Prod.snd := by
  induction args generalizing k with
  | nil => rfl
  | cons v vs ih =>
    rw [operandSlots, operandSlots]
    cases v.node?.bind slotOf with
    | none => exact ih (k + 1) (by omega)
    | some slot =>
      have hk : shifted i (k : Int) = ((k + 1 : Nat) : Int) := by
        unfold shifted
        rw [if_pos (by omega)]
        rfl
      rw [List.map_cons, List.map_cons, List.map_cons, ih (k + 1) (by omega), hk]

/-- The slots of operands do not depend on where counting starts. -/
theorem map_fst_operandSlots (j k : Nat) (args : List (Value F)) :
    (operandSlots slotOf j args).map Prod.fst = (operandSlots slotOf k args).map Prod.fst := by
  induction args generalizing j k with
  | nil => rfl
  | cons v vs ih =>
    rw [operandSlots, operandSlots]
    cases v.node?.bind slotOf with
    | none => exact ih (j + 1) (k + 1)
    | some slot => rw [List.map_cons, List.map_cons, ih (j + 1) (k + 1)]

theorem operandSlots_split (args : List (Value F)) :
    operandSlots slotOf 0 args = operandSlots slotOf 0 (args.take (seedPlace args))
      ++ operandSlots slotOf (seedPlace args) (args.drop (seedPlace args)) := by
  have hle := seedPlace_le args
  conv_lhs => rw [← List.take_append_drop (seedPlace args) args]
  rw [operandSlots_append, List.length_take, Nat.zero_add, Nat.min_eq_left hle]

theorem adjointOperands_fst (args : List (Value F)) :
    (adjointOperands slotOf args).map Prod.fst = (operandSlots slotOf 0 args).map Prod.fst := by
  unfold adjointOperands
  rw [operandSlots_split args, List.map_append, List.map_append,
    map_fst_operandSlots (seedPlace args + 1) (seedPlace args)]

theorem adjointOperands_snd (args : List (Value F)) :
    (adjointOperands slotOf args).map Prod.snd
      = ((operandSlots slotOf 0 args).map Prod.snd).map (shifted (seedPlace args)) := by
  unfold adjointOperands
  rw [operandSlots_split args, List.map_append, List.map_append, List.map_append,
    map_shifted_operandSlots_take, map_shifted_operandSlots _ _ (Nat.le_refl _)]

theorem insertIdx_eq_append {α : Type} (x : α) :
    ∀ (i : Nat) (xs : List α), i ≤ xs.length → xs.insertIdx i x = xs.take i ++ x :: xs.drop i := by
  intro i
  induction i with
  | zero =>
    intro xs _
    rfl
  | succ i ih =>
    intro xs hi
    cases xs with
    | nil => cases hi
    | cons y ys =>
      rw [List.insertIdx_succ_cons, ih ys (by simpa using hi)]
      rfl

theorem insertIdx_seed (args : List (Value F)) :
    (args.map Value.blank).insertIdx (seedPlace args) .none
      = (args.take (seedPlace args)).map Value.blank
        ++ .none :: (args.drop (seedPlace args)).map Value.blank := by
  have hle : seedPlace args ≤ (args.map Value.blank).length := by
    rw [List.length_map]
    exact seedPlace_le args
  rw [insertIdx_eq_append _ _ _ hle, List.map_take, List.map_drop]

theorem backwardInstruction_eq_ok {p : Placed F} {i : Instruction F} :
    backwardInstruction slotOf p = .ok i ↔
      (∀ h, Value.node h ∈ p.layer.args → (slotOf h).isSome) ∧ i = backwardOf slotOf p := by
  unfold backwardInstruction backwardOf derCountOf
  rw [bind_eq_ok, adjointOperands_fst, adjointOperands_snd]
  constructor
  · rintro ⟨t, ht, hi⟩
    obtain ⟨hall, rfl⟩ := ofArgs_eq_ok.mp ht
    refine ⟨hall, ?_⟩
    rw [← pure_eq_ok.mp hi]
    simp only [seedPlace_map_blank, insertIdx_seed]
  · rintro ⟨hall, rfl⟩
    refine ⟨_, ofArgs_eq_ok.mpr ⟨hall, rfl⟩, ?_⟩
    rw [pure_eq_ok]
    simp only [seedPlace_map_blank, insertIdx_seed]

/-- A forward instruction is called with the layer's arguments, every node replaced by the content
of its slot. -/
theorem forwardOf_bind {s : Store F} (hs : ∀ h k, slotOf h = some k → k < s.size) (p : Placed F) :
    (forwardOf slotOf p).bind s = .ok (p.layer.args.map (s.argument slotOf)) := by
  unfold Instruction.bind Instruction.bindings
  have h := foldlM_fillFrom hs p.layer.args []
  simpa [forwardOf, zip_map_fst_snd] using h

/-! ### The derivative among the arguments -/

/-- The place of an argument behind another one that is put in. -/
def movedOn (insertAt q : Nat) : Nat := if insertAt ≤ q then q + 1 else q

theorem shifted_natCast (insertAt q : Nat) :
    shifted insertAt (q : Int) = ((movedOn insertAt q : Nat) : Int) := by
  unfold shifted movedOn
  split
  · rw [if_pos (by omega)]
    rfl
  · rw [if_neg (by omega)]

/-- A place is overwritten before or after a member is put in. -/
theorem set_insertIdx_movedOn {α : Type} (l : List α) (i q : Nat) (x y : α) :
    (l.insertIdx i x).set (movedOn i q) y = (l.set q y).insertIdx i x := by
  refine List.ext_getElem? fun k => ?_
  unfold movedOn
  rw [List.getElem?_set, List.getElem?_insertIdx, List.getElem?_insertIdx]
  grind

/-- A place is filled before or after another argument is put in. -/
theorem Instruction.fill_insertIdx (args : List (Value F)) (i q : Nat) (v x : Value F) :
    fill (args.insertIdx i x) (shifted i q) v = (fill args q v).map fun a => a.insertIdx i x := by
  have hlength : movedOn i q < (args.insertIdx i x).length ↔ q < args.length := by
    unfold movedOn
    rw [List.length_insertIdx]
    split <;> split <;> omega
  unfold fill
  rw [shifted_natCast]
  rcases Nat.lt_or_ge q args.length with h | h
  · rw [locate?_natCast (hlength.mpr h), locate?_natCast h]
    exact congrArg Except.ok (set_insertIdx_movedOn args i q x v)
  · rw [locate?_natCast_of_le
      (Nat.le_of_not_lt fun h' => absurd (hlength.mp h') (Nat.not_lt.mpr h)),
      locate?_natCast_of_le h]
    rfl

/-- The same for filling a place from a slot. -/
theorem Instruction.fillFrom_insertIdx (s : Store F) (args : List (Value F)) (i q : Nat)
    (slot : Int) (x : Value F) :
    fillFrom s (args.insertIdx i x) (slot, shifted i q)
      = (fillFrom s args (slot, q)).map fun a => a.insertIdx i x := by
  unfold fillFrom
  exact bind_eq_map_of_eq fun v _ => fill_insertIdx args i q v x

/-- Filling places does not change how many there are. -/
theorem Instruction.length_fillFrom {s : Store F} {args filled : List (Value F)} {b : Int × Int}
    (h : fillFrom s args b = .ok filled) : filled.length = args.length := by
  unfold fillFrom at h
  obtain ⟨v, -, h⟩ := bind_eq_ok.mp h
  unfold fill at h
  split at h
  · cases h
    exact List.length_set
  · cases h

theorem Instruction.length_bind {s : Store F} {i : Instruction F} {args : List (Value F)}
    (h : i.bind s = .ok args) : args.length = i.args.length :=
  foldlM_keeps (P := fun filled => filled.length = i.args.length)
    (fun _ _ _ _ hlen hfilled => (length_fillFrom hfilled).trans hlen) rfl h

/-- The place that was made is filled from a slot. -/
theorem Instruction.fillFrom_inserted (s : Store F) {args : List (Value F)} {i : Nat}
    (hi : i ≤ args.length) (slot : Int) (x : Value F) :
    fillFrom s (args.insertIdx i x) (slot, i) = (s.get slot).map fun d => args.insertIdx i d := by
  unfold fillFrom fill
  rw [locate?_natCast (by rw [List.length_insertIdx_of_le_length hi]; omega)]
  have hset : ∀ d, (args.insertIdx i x).set i d = args.insertIdx i d := by
    intro d
    rw [insertIdx_eq_append x i args hi, insertIdx_eq_append d i args hi]
    simp [hi]
  simp only [hset]
  cases s.get slot <;> rfl

/-- The operands of the backward pass are those of the forward pass at moved places. -/
theorem adjointOperands_eq_map (args : List (Value F)) :
    adjointOperands slotOf args
      = (operandSlots slotOf 0 args).map fun b => (b.1, shifted (seedPlace args) b.2) := by
  rw [← zip_map_fst_snd (adjointOperands slotOf args), adjointOperands_fst, adjointOperands_snd,
    List.map_map, List.zip_map']
  rfl

theorem args_backwardOf (p : Placed F) :
    (backwardOf slotOf p).args
      = (p.layer.args.map Value.blank).insertIdx (seedPlace p.layer.args) .none :=
  (insertIdx_seed p.layer.args).symm

theorem bindings_forwardOf (p : Placed F) :
    (forwardOf slotOf p).bindings = operandSlots slotOf 0 p.layer.args :=
  zip_map_fst_snd _

theorem bindings_backwardOf (p : Placed F) :
    (backwardOf slotOf p).bindings = adjointOperands slotOf p.layer.args
      ++ [(derSlot (valueSlot p.place : Nat), (seedPlace p.layer.args : Int))] := by
  unfold Instruction.bindings backwardOf
  rw [List.zip_append (by simp), zip_map_fst_snd]
  rfl

/-- **Binding a backward instruction is binding the forward one and putting the derivative in**,
from every store and also when it fails. -/
theorem backwardOf_bind_eq_insertIdx (p : Placed F) (s : Store F) :
    (backwardOf slotOf p).bind s = (do
      let args ← (forwardOf slotOf p).bind s
      let d ← s.get (derSlot (valueSlot p.place : Nat))
      return args.insertIdx (seedPlace p.layer.args) d) := by
  set i := seedPlace p.layer.args with hi
  -- The operands are filled around the place of the derivative, which stays open meanwhile.
  have hoperands : (adjointOperands slotOf p.layer.args).foldlM (Instruction.fillFrom s)
        ((p.layer.args.map Value.blank).insertIdx i .none)
      = ((forwardOf slotOf p).bind s).map fun a => a.insertIdx i .none := by
    unfold Instruction.bind
    rw [bindings_forwardOf, adjointOperands_eq_map]
    refine foldlM_eq_map (k := fun a : List (Value F) => a.insertIdx i .none)
      (fun b hb args => ?_) _
    obtain ⟨q, h, slot, -, -, rfl⟩ := mem_operandSlots.mp hb
    exact Instruction.fillFrom_insertIdx s args i (0 + q) slot .none
  conv_lhs => unfold Instruction.bind
  rw [bindings_backwardOf, args_backwardOf, ← hi, List.foldlM_append, hoperands]
  cases hbound : (forwardOf slotOf p).bind s with
  | error f => rfl
  | ok args =>
    have hlen : args.length = p.layer.args.length := by
      rw [Instruction.length_bind hbound]
      exact List.length_map _
    have hle : i ≤ args.length := hlen ▸ seedPlace_le p.layer.args
    show ([(derSlot (valueSlot p.place : Nat), (i : Int))].foldlM (Instruction.fillFrom s)
      (args.insertIdx i .none)) = _
    rw [List.foldlM_cons, Instruction.fillFrom_inserted s hle]
    cases s.get (derSlot (valueSlot p.place : Nat)) <;> rfl

/-- A backward instruction is called with the layer's arguments and the content of the layer's own
derivative slot. -/
theorem backwardOf_bind {s : Store F} (hs : ∀ h k, slotOf h = some k → k < s.size) (p : Placed F)
    (hp : valueSlot p.place + 1 < s.size) :
    (backwardOf slotOf p).bind s = .ok (adjointArguments slotOf s p.place p.layer.args) := by
  have hder : s.get (derSlot (valueSlot p.place : Nat)) = .ok (s.content (valueSlot p.place + 1)) :=
    Store.get_natCast hp
  have hle : seedPlace p.layer.args ≤ (p.layer.args.map (s.argument slotOf)).length := by
    rw [List.length_map]
    exact seedPlace_le p.layer.args
  rw [backwardOf_bind_eq_insertIdx, forwardOf_bind hs, ok_bind, hder, ok_bind, pure_eq_ok,
    insertIdx_eq_append _ _ _ hle, adjointArguments, List.map_take, List.map_drop]

end

/-! ### Compilation -/

/-- The value slot that a reference stands for in a compiled list. -/
def slotIn (nodes : List (Node F)) (h : Handle) : Option Nat :=
  (position? nodes h.id).map valueSlot

theorem slotIn_eq_some {nodes : List (Node F)} {h : Handle} {k : Nat} :
    slotIn nodes h = some k ↔ ∃ j, position? nodes h.id = some j ∧ valueSlot j = k :=
  Option.map_eq_some_iff

theorem slotIn_lt {nodes : List (Node F)} {h : Handle} {k : Nat} (hk : slotIn nodes h = some k) :
    k + 1 < 2 * nodes.length := by
  obtain ⟨j, hj, rfl⟩ := slotIn_eq_some.mp hk
  exact valueSlot_succ_lt.mpr (position?_lt hj)

/-- Slots of nodes are there in a store that has two for each node. -/
theorem slotIn_lt_size {nodes : List (Node F)} {s : Store F} (hs : s.size = 2 * nodes.length) :
    ∀ h k, slotIn nodes h = some k → k < s.size := fun h k hk => by
  have := slotIn_lt hk
  omega

/-- What compilation makes of a list of nodes: its streams, written down by its layers. -/
structure Streams (nodes : List (Node F)) (layers : List (Placed F)) (net : CompiledNet F) :
    Prop where
  /-- The layers are those of the list. -/
  places : layers.map (fun p => (p.place, p.layer)) = layersOf nodes
  /-- Every node that a layer reads has a slot. -/
  located : ∀ p ∈ layers, ∀ h, Value.node h ∈ p.layer.args → (slotIn nodes h).isSome
  /-- The forward stream has the order of the nodes. -/
  forward : net.forward = layers.map (forwardOf (slotIn nodes))
  /-- The backward stream has the reverse order. -/
  backward : net.backward = layers.reverse.map (backwardOf (slotIn nodes))
  /-- The stream of inference mode writes value slots of layers. -/
  test : ∀ i ∈ net.test, ∃ p ∈ layers, i.outputVar = some ((valueSlot p.place : Nat) : Int)
  /-- Every node has two slots. -/
  numVars : net.numVars = 2 * nodes.length

theorem Streams.mem_layersOf {nodes : List (Node F)} {layers : List (Placed F)}
    {net : CompiledNet F} (h : Streams nodes layers net) {p : Placed F} (hp : p ∈ layers) :
    (p.place, p.layer) ∈ layersOf nodes := by
  rw [← h.places]
  exact List.mem_map.mpr ⟨p, hp, rfl⟩

theorem Streams.place_lt {nodes : List (Node F)} {layers : List (Placed F)}
    {net : CompiledNet F} (h : Streams nodes layers net) {p : Placed F} (hp : p ∈ layers) :
    p.place < nodes.length :=
  layersOf_place_lt (h.mem_layersOf hp)

/-- In inference mode, too, a layer writes its own value slot. -/
theorem testInstruction_output {slotOf : Handle → Option Nat} {p : Placed F} {i : Instruction F}
    (h : testInstruction slotOf p = .ok i) :
    i.outputVar = some ((valueSlot p.place : Nat) : Int) := by
  unfold testInstruction at h
  dsimp only at h
  split at h
  all_goals
    obtain ⟨-, rfl⟩ := callInstruction_eq_ok.mp h
    rfl

/-- Every node is given a name. -/
theorem length_assignNames {nodes : List (Node F)} {names : List String}
    (h : assignNames nodes = .ok names) : names.length = nodes.length := by
  unfold assignNames at h
  obtain ⟨s, -, hs⟩ := bind_eq_ok.mp h
  rw [← pure_eq_ok.mp hs]
  unfold Naming.close
  rw [List.length_map, List.length_zipIdx]

/-- Names and sources aside, the placed layers are the layers with their places. -/
theorem placedLayers_places {nodes : List (Node F)} {names : List String}
    (hlen : names.length = nodes.length) :
    (placedLayers nodes names).map (fun p => (p.place, p.layer)) = layersOf nodes := by
  unfold placedLayers layersOf
  rw [List.map_filterMap]
  have hzip : nodes.zipIdx = ((nodes.zip names).zipIdx).map fun q => (q.1.1, q.2) := by
    have hfst : nodes = (nodes.zip names).map Prod.fst :=
      (List.map_fst_zip (by omega)).symm
    conv_lhs => rw [hfst, List.zipIdx_map]
    rfl
  rw [hzip, List.filterMap_map]
  congr 1
  funext ⟨⟨n, name⟩, k⟩
  simp only [Option.map_map, Function.comp_def]

theorem assemble_streams {known : Node F → Bool} {nodes : List (Node F)} {names : List String}
    {roots : List Handle} {options : Options F} {net : CompiledNet F}
    (hlen : names.length = nodes.length)
    (h : assemble known nodes names roots options = .ok net) :
    Streams nodes (placedLayers nodes names) net := by
  unfold assemble at h
  obtain ⟨forward, hforward, h⟩ := bind_eq_ok.mp h
  obtain ⟨backward, hbackward, h⟩ := bind_eq_ok.mp h
  obtain ⟨test, htest, h⟩ := bind_eq_ok.mp h
  have hnet := pure_eq_ok.mp h
  obtain ⟨hlocated, hf⟩ :=
    (mapM_eq_ok_of_iff fun _ _ => forwardInstruction_eq_ok).mp hforward
  obtain ⟨-, hb⟩ := (mapM_eq_ok_of_iff fun _ _ => backwardInstruction_eq_ok).mp hbackward
  have ht : ∀ i ∈ test, ∃ p ∈ placedLayers nodes names,
      i.outputVar = some ((valueSlot p.place : Nat) : Int) := by
    intro i hi
    obtain ⟨p, hp, hpi⟩ := exists_of_mem_mapM htest hi
    exact ⟨p, hp, testInstruction_output hpi⟩
  rw [← hnet]
  exact ⟨placedLayers_places hlen, hlocated, hf, hb, ht, rfl⟩

/-- What compilation does, step by step, where it answers. -/
theorem compileNodes_eq_ok {checks : Checks F} {known : Node F → Bool} {nodes : List (Node F)}
    {roots : Option (List Handle)} {options : Options F} {c : Compilation F}
    (h : compileNodes checks known nodes roots options = .ok c) :
    ∃ last t names early late, nodes.getLast? = some last ∧
      threshold? options.validation = .ok t ∧ assignNames nodes = .ok names ∧
      checks.runOnListing (some t) ⟨nodes, names, options.meta⟩ = .ok early ∧
      assemble known nodes names (roots.getD [last.handle]) options = .ok c.net ∧
      checks.runOnNet (some t) c.net = .ok late ∧
      c = ⟨c.net, initialStore nodes.length (paramSlots nodes names), early ++ late⟩ := by
  unfold compileNodes at h
  cases hlast : nodes.getLast? with
  | none =>
    rw [hlast] at h
    cases h
  | some last =>
    rw [hlast] at h
    obtain ⟨t, ht, h⟩ := bind_eq_ok.mp h
    obtain ⟨names, hnames, h⟩ := bind_eq_ok.mp h
    obtain ⟨early, hearly, h⟩ := bind_eq_ok.mp h
    obtain ⟨net, hnet, h⟩ := bind_eq_ok.mp h
    obtain ⟨late, hlate, h⟩ := bind_eq_ok.mp h
    rw [← pure_eq_ok.mp h]
    exact ⟨last, t, names, early, late, rfl, ht, liftM_eq_ok.mp hnames, hearly,
      liftM_eq_ok.mp hnet, hlate, rfl⟩

/-- A compiled list is not empty. -/
theorem ne_nil_of_compileNodes {checks : Checks F} {known : Node F → Bool} {nodes : List (Node F)}
    {roots : Option (List Handle)} {options : Options F} {c : Compilation F}
    (h : compileNodes checks known nodes roots options = .ok c) : nodes ≠ [] := by
  obtain ⟨last, -, -, -, -, hlast, -⟩ := compileNodes_eq_ok h
  rintro rfl
  cases hlast

/-- A compiled list has the streams that its layers write down. -/
theorem compileNodes_streams [Arith F] [Interchange F] {checks : Checks F}
    {known : Node F → Bool} {nodes : List (Node F)} {roots : Option (List Handle)}
    {options : Options F} {c : Compilation F}
    (h : compileNodes checks known nodes roots options = .ok c) :
    nodes ≠ [] ∧ ∃ layers, Streams nodes layers c.net := by
  obtain ⟨last, t, names, early, late, -, -, hnames, -, hnet, -⟩ := compileNodes_eq_ok h
  exact ⟨ne_nil_of_compileNodes h, _, assemble_streams (length_assignNames hnames) hnet⟩

end SlotGrad
