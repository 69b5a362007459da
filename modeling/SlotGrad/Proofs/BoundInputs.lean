import SlotGrad.Program.Addressing
import SlotGrad.Proofs.Lookups
import SlotGrad.Proofs.Schedules

/-!
# Binding inputs

Inputs are bound by name, in pairs and by keywords.  All names are looked up before the first value
is written: a call with an unknown name, or with a name that has no value, leaves the store alone.
Otherwise the values are written one after another, those of keywords last, so that the last value
that is given for a name stays.  A name leads to one input, and an input's slot is a value slot, so
nothing else changes.

There is one name that cannot be a keyword: the net itself is passed under it.  An input of that
name is bound in pairs only.

## Main definitions

* `alternating` — names and values, laid out in pairs.
* `NamesInput`, `slotNamed` — the names of inputs, and where a name leads.
* `lastGiven` — the last value that is given for a name.
* `Bound` — what a binding leaves of a store.

## Main results

* `Store.writeAll_slots` — after several writes each slot holds what was written to it last.
* `CompiledNet.setInputs_all_or_nothing` — a binding is refused, or its values are written.
* `binding_is_all_or_nothing` — in a compiled net, a binding changes nothing, or the inputs that it
  names.
* `net_keyword_binds_nothing` — the keyword that is the net's own.
-/

namespace SlotGrad

variable {F : Type}

/-! ### Several writes -/

/-- After several writes to slots of the store, each slot holds what was written to it last, or what
it held before. -/
theorem Store.writeAll_slots {ws : List (Int × Value F)} {s : Store F}
    (h : ∀ w ∈ ws, ∃ k < s.size, w.1 = ((k : Nat) : Int)) :
    ∃ t, s.writeAll ws = .done t ∧ t.size = s.size ∧
      ∀ k : Nat, t.content k = (ws.reverse.lookup ((k : Nat) : Int)).getD (s.content k) := by
  induction ws generalizing s with
  | nil => exact ⟨s, rfl, rfl, fun k => rfl⟩
  | cons w ws ih =>
    obtain ⟨j, hj, hw⟩ := h w (List.mem_cons_self ..)
    -- The other writes start from a store with the first value in its slot.
    have hwrite : s.write w.1 w.2 = .done (s.setAt j w.2) := by
      rw [hw]
      simp [write, set_natCast hj]
    have hsize : (s.setAt j w.2).size = s.size := size_setAt s j w.2
    obtain ⟨t, ht, htsize, hcontent⟩ := ih (s := s.setAt j w.2) fun v hv => by
      rw [hsize]
      exact h v (List.mem_cons_of_mem _ hv)
    refine ⟨t, ?_, htsize.trans hsize, fun k => ?_⟩
    · unfold writeAll at ht ⊢
      rw [runAll_cons, hwrite, Outcome.done_andThen, ht]
    · rw [hcontent k, lookup_reverse_cons, hw]
      by_cases hkj : k = j
      · subst hkj
        rw [content_setAt_self hj]
        cases ws.reverse.lookup ((k : Nat) : Int) <;> simp
      · have hne : (((k : Nat) : Int) == ((j : Nat) : Int)) = false := by simpa using hkj
        rw [content_setAt_of_ne _ hkj, hne]
        cases ws.reverse.lookup ((k : Nat) : Int) <;> rfl

/-! ### Names of inputs -/

/-- Names and values, laid out in pairs. -/
def alternating (given : List (String × Value F)) : List (Value F) :=
  given.flatMap fun p => [.text p.1, p.2]

/-- The last value that is given for a name. -/
def lastGiven (given : List (String × Value F)) (name : String) : Option (Value F) :=
  given.reverse.lookup name

/-- The slot that a name leads to; the first one if it leads to none. -/
def slotNamed (inputs : List (String × Int)) (name : String) : Int := (inputs.lookup name).getD 0

/-- Some input among the nodes has the name. -/
def NamesInput (nodes : List (Node F)) (names : List String) (name : String) : Prop :=
  ∃ (k : Nat) (n : Node F), nodes[k]? = some n ∧ n.kind = .input ∧ names[k]? = some name

/-- What a binding leaves of a store. -/
structure Bound (nodes : List (Node F)) (names : List String) (given : List (String × Value F))
    (s t : Store F) : Prop where
  /-- The number of slots is the same. -/
  size : t.size = s.size
  /-- An input holds the last value that is given for its name, or what it held if there is none. -/
  inputs : ∀ (k : Nat) (n : Node F) (name : String), nodes[k]? = some n → n.kind = .input →
    names[k]? = some name →
      t.content (valueSlot k) = (lastGiven given name).getD (s.content (valueSlot k))
  /-- The value of a node that is no input has not changed. -/
  others : ∀ (k : Nat) (n : Node F), nodes[k]? = some n → n.kind ≠ .input →
    t.content (valueSlot k) = s.content (valueSlot k)
  /-- No derivative has changed. -/
  ders : ∀ k, t.content (valueSlot k + 1) = s.content (valueSlot k + 1)

section

variable {nodes : List (Node F)} {names : List String} {name : String}

/-- A name is found exactly if it is that of an input. -/
theorem lookup_inputSlots_isSome_iff :
    ((inputSlots nodes names).lookup name).isSome ↔ NamesInput nodes names name := by
  rw [lookup_isSome_iff]
  constructor
  · rintro ⟨slot, hmem⟩
    obtain ⟨k, n, hn, hkind, hname, -⟩ := mem_inputSlots.mp hmem
    exact ⟨k, n, hn, hkind, hname⟩
  · rintro ⟨k, n, hn, hkind, hname⟩
    exact ⟨_, mem_inputSlots.mpr ⟨k, n, hn, hkind, hname, rfl⟩⟩

/-- Where no two inputs share a name, the name of an input leads to its slot. -/
theorem lookup_inputSlots (hunshared : ¬ShareInputName nodes names) {k : Nat} {n : Node F}
    (hn : nodes[k]? = some n) (hkind : n.kind = .input) (hname : names[k]? = some name) :
    (inputSlots nodes names).lookup name = some ((valueSlot k : Nat) : Int) :=
  lookup_of_mem (nodup_inputSlots hunshared) (mem_inputSlots.mpr ⟨k, n, hn, hkind, hname, rfl⟩)

/-- A name of an input leads to the value slot of the input. -/
theorem slotNamed_inputSlots (hunshared : ¬ShareInputName nodes names) {k : Nat} {n : Node F}
    (hn : nodes[k]? = some n) (hkind : n.kind = .input) (hname : names[k]? = some name) :
    slotNamed (inputSlots nodes names) name = ((valueSlot k : Nat) : Int) := by
  simp [slotNamed, lookup_inputSlots hunshared hn hkind hname]

/-- Values that are written to the slots of the inputs that are named leave these inputs bound. -/
theorem bound_of_known (hunshared : ¬ShareInputName nodes names)
    {given : List (String × Value F)} {s : Store F} (hsize : s.size = 2 * nodes.length)
    (hknown : ∀ p ∈ given, NamesInput nodes names p.1) :
    ∃ t, s.writeAll (given.map fun p => (slotNamed (inputSlots nodes names) p.1, p.2)) = .done t ∧
      Bound nodes names given s t := by
  have hplace : ∀ p ∈ given, ∃ (k : Nat) (n : Node F), nodes[k]? = some n ∧ n.kind = .input ∧
      names[k]? = some p.1 ∧
      slotNamed (inputSlots nodes names) p.1 = ((valueSlot k : Nat) : Int) := by
    intro p hp
    obtain ⟨k, n, hn, hkind, hname⟩ := hknown p hp
    exact ⟨k, n, hn, hkind, hname, slotNamed_inputSlots hunshared hn hkind hname⟩
  have hplaces : ∀ w ∈ given.map fun p => (slotNamed (inputSlots nodes names) p.1, p.2),
      ∃ k < s.size, w.1 = ((k : Nat) : Int) := by
    rw [List.forall_mem_map]
    intro p hp
    obtain ⟨k, n, hn, -, -, hk⟩ := hplace p hp
    exact ⟨valueSlot k, hsize ▸ valueSlot_lt.mpr (List.getElem?_eq_some_iff.mp hn).1, hk⟩
  obtain ⟨t, ht, htsize, hcontent⟩ := Store.writeAll_slots hplaces
  rw [← List.map_reverse] at hcontent
  -- A slot that no given name leads to keeps its content.
  have hframe : ∀ j : Nat,
      (∀ p ∈ given, slotNamed (inputSlots nodes names) p.1 ≠ ((j : Nat) : Int)) →
      t.content j = s.content j := by
    intro j hj
    rw [hcontent j, List.lookup_eq_none_iff.mpr]
    · rfl
    · exact List.forall_mem_map.mpr fun p hp =>
        bne_iff_ne.mpr (Ne.symm (hj p (List.mem_reverse.mp hp)))
  refine ⟨t, ht, htsize, fun k n name hn hkind hname => ?_, fun k n hn hkind => ?_, fun k => ?_⟩
  · rw [hcontent, ← slotNamed_inputSlots hunshared hn hkind hname, lookup_map_key]
    · rfl
    · intro p hp heq
      obtain ⟨j, m, hm, hmkind, hmname, hj⟩ := hplace p (List.mem_reverse.mp hp)
      rw [hj, slotNamed_inputSlots hunshared hn hkind hname] at heq
      rw [natCast_valueSlot_inj.mp heq, hname] at hmname
      exact (Option.some.inj hmname).symm
  · refine hframe _ fun p hp heq => hkind ?_
    obtain ⟨j, m, hm, hmkind, -, hj⟩ := hplace p hp
    rw [hj] at heq
    rw [natCast_valueSlot_inj.mp heq, hn] at hm
    rw [Option.some.inj hm]
    exact hmkind
  · refine hframe _ fun p hp heq => ?_
    obtain ⟨j, -, -, -, -, hj⟩ := hplace p hp
    rw [hj] at heq
    exact natCast_valueSlot_ne_succ _ _ heq

end

/-! ### Binding by name -/

section

variable [Arith F] [Interchange F] {c : CompiledNet F}

/-- A name is one of an input or unknown. -/
theorem CompiledNet.inputSlot_text (c : CompiledNet F) (name : String) :
    c.inputSlot (.text name) = match c.inputs.lookup name with
      | some slot => .ok slot
      | none => .error (.unknownInput name (c.inputs.map fun p => Text.quoted p.1)) := by
  unfold inputSlot
  rw [if_neg (by simp [Value.isKey])]
  rfl

/-- Values that are given for names of inputs are written to the slots of these inputs. -/
theorem CompiledNet.inputWrites_texts {given : List (String × Value F)}
    (h : ∀ p ∈ given, (c.inputs.lookup p.1).isSome) :
    c.inputWrites (given.map fun p => (.text p.1, p.2))
      = .ok (given.map fun p => (slotNamed c.inputs p.1, p.2)) := by
  unfold inputWrites
  rw [mapM_eq_ok, List.forall₂_map_left_iff, List.forall₂_map_right_iff, List.forall₂_same]
  intro p hp
  obtain ⟨slot, hslot⟩ := Option.isSome_iff_exists.mp (h p hp)
  simp [inputSlot_text, slotNamed, hslot, bind, Except.bind, pure, Except.pure]

/-- The first unknown name is reported. -/
theorem CompiledNet.inputWrites_unknown {before after : List (String × Value F)}
    {p : String × Value F} (hbefore : ∀ q ∈ before, (c.inputs.lookup q.1).isSome)
    (hp : c.inputs.lookup p.1 = none) :
    c.inputWrites ((before ++ p :: after).map fun q => (.text q.1, q.2))
      = .error (.unknownInput p.1 (c.inputs.map fun q => Text.quoted q.1)) := by
  have hwrites := inputWrites_texts hbefore
  unfold inputWrites at hwrites ⊢
  rw [List.map_append, List.mapM_append, hwrites, List.map_cons, List.mapM_cons]
  simp [inputSlot_text, hp, bind, Except.bind]

/-- A binding is refused for a keyword that is the net's own, for a name without a value or for the
first name that is unknown.  Otherwise all values are written, those of keywords last. -/
theorem CompiledNet.setInputs_all_or_nothing (c : CompiledNet F) (pairs : List (Value F))
    (named : List (String × Value F)) (s : Store F) :
    ((∃ p ∈ named, p.1 = netKeyword) →
      c.setInputs pairs named s = .stopped s (.fault .wrongKind)) ∧
    ((∀ p ∈ named, p.1 ≠ netKeyword) →
      (pairs.length % 2 = 1 → c.setInputs pairs named s = .stopped s (.inputPairs pairs.length)) ∧
      ∀ given, pairs = alternating given →
        (∀ before p after, given ++ named = before ++ p :: after →
          (∀ q ∈ before, (c.inputs.lookup q.1).isSome) → c.inputs.lookup p.1 = none →
          c.setInputs pairs named s
            = .stopped s (.unknownInput p.1 (c.inputs.map fun q => Text.quoted q.1))) ∧
        ((∀ p ∈ given ++ named, (c.inputs.lookup p.1).isSome) →
          c.setInputs pairs named s
            = s.writeAll ((given ++ named).map fun p => (slotNamed c.inputs p.1, p.2)))) := by
  constructor
  · rintro ⟨p, hp, hself⟩
    have hany : (named.any fun q => q.1 == netKeyword) = true :=
      List.any_eq_true.mpr ⟨p, hp, by simpa using hself⟩
    simp [setInputs, hany]
  · intro hself
    have hany : (named.any fun q => q.1 == netKeyword) = false := by
      rw [List.any_eq_false]
      simpa using hself
    constructor
    · intro hodd
      simp [setInputs, hany, hodd]
    · rintro given rfl
      have heven : (alternating given).length % 2 ≠ 1 := by
        rw [alternating, length_flatMap_pair]
        omega
      -- Pairs and keywords together are one list of named values.
      have hitems : pairUp (alternating given) ++ (named.map fun p => ((.text p.1 : Value F), p.2))
          = (given ++ named).map fun p => (.text p.1, p.2) := by
        rw [alternating, pairUp_flatMap, List.map_append]
      refine ⟨fun before p after hsplit hbefore hp => ?_, fun hknown => ?_⟩
      · have hstop : c.inputWrites ((before ++ p :: after).map fun q => (.text q.1, q.2))
            = .error _ := inputWrites_unknown hbefore hp
        rw [← hsplit, ← hitems] at hstop
        simp [setInputs, hany, heven, hstop]
      · have hwrites := inputWrites_texts hknown
        rw [← hitems] at hwrites
        simp [setInputs, hany, heven, hwrites]

/-! ### Compiled nets -/

/-- **A binding changes nothing, or the inputs that it names.**  It is refused for a keyword
that is the net's own, for a name without a value, and for the first name, in pairs and then by
keywords, that no input has.  Otherwise it completes: every input that is named holds the last
value given for its name, and no other slot has changed. -/
theorem binding_is_all_or_nothing {checks : Checks F}
    (hchecks : ∀ check ∈ GraphChecks.all, check ∈ checks) {known : Node F → Bool}
    {nodes : List (Node F)} {roots : Option (List Handle)} {options : Options F}
    {c : Compilation F} (hc : compileNodes checks known nodes roots options = .ok c)
    {s : Store F} (hsize : (s.size : Int) = c.net.numVars) (pairs : List (Value F))
    (named : List (String × Value F)) :
    ((∃ p ∈ named, p.1 = CompiledNet.netKeyword) →
      c.net.setInputs pairs named s = .stopped s (.fault .wrongKind)) ∧
    ((∀ p ∈ named, p.1 ≠ CompiledNet.netKeyword) →
      (pairs.length % 2 = 1 →
        c.net.setInputs pairs named s = .stopped s (.inputPairs pairs.length)) ∧
      ∀ given, pairs = alternating given →
        ((∃ p ∈ given ++ named, ¬NamesInput nodes c.net.names p.1) →
          ∃ before p after, given ++ named = before ++ p :: after ∧
            (∀ q ∈ before, NamesInput nodes c.net.names q.1) ∧
            ¬NamesInput nodes c.net.names p.1 ∧
            c.net.setInputs pairs named s
              = .stopped s (.unknownInput p.1 (c.net.inputs.map fun q => Text.quoted q.1))) ∧
        ((∀ p ∈ given ++ named, NamesInput nodes c.net.names p.1) →
          ∃ t, c.net.setInputs pairs named s = .done t ∧
            Bound nodes c.net.names (given ++ named) s t)) := by
  obtain ⟨last, names, hnames, hnet, hunshared⟩ := compileNodes_unshared hchecks hc
  obtain ⟨hinputs, -, -, hnetnames⟩ := assemble_registries hnet
  have hslots : s.size = 2 * nodes.length := by
    have hnum := (assemble_streams (length_assignNames hnames) hnet).numVars
    omega
  -- The registry of inputs has the names that nodes are known by.
  have hlookup : ∀ name, (c.net.inputs.lookup name).isSome ↔ NamesInput nodes c.net.names name := by
    intro name
    rw [hinputs, hnetnames, lookup_inputSlots_isSome_iff]
  obtain ⟨hself, hother⟩ := c.net.setInputs_all_or_nothing pairs named s
  refine ⟨hself, fun hnamed => ?_⟩
  obtain ⟨hodd, hpairs⟩ := hother hnamed
  refine ⟨hodd, fun given hgiven => ?_⟩
  obtain ⟨hunknown, hset⟩ := hpairs given hgiven
  constructor
  · rintro ⟨p, hp, hno⟩
    -- The first of the unknown names is the one at which the lookups stop.
    have hsome : ((given ++ named).find? fun q => (c.net.inputs.lookup q.1).isNone).isSome := by
      rw [List.find?_isSome]
      rw [← hlookup] at hno
      exact ⟨p, hp, Option.isNone_iff_eq_none.mpr (Option.not_isSome_iff_eq_none.mp hno)⟩
    obtain ⟨q, hq⟩ := Option.isSome_iff_exists.mp hsome
    obtain ⟨hnone, before, after, hsplit, hbefore⟩ := List.find?_eq_some_iff_append.mp hq
    have hnone : c.net.inputs.lookup q.1 = none := Option.isNone_iff_eq_none.mp hnone
    have hbefore : ∀ r ∈ before, (c.net.inputs.lookup r.1).isSome := fun r hr => by
      simpa [Option.isSome_iff_ne_none] using hbefore r hr
    refine ⟨before, q, after, hsplit, fun r hr => (hlookup _).mp (hbefore r hr), ?_,
      hunknown before q after hsplit hbefore hnone⟩
    rw [← hlookup, hnone]
    decide
  · intro hknown
    rw [hset fun p hp => (hlookup _).mpr (hknown p hp), hinputs, hnetnames]
    exact bound_of_known hunshared hslots fun p hp => hnetnames ▸ hknown p hp

end

/-- The product of two inputs, one of which has the name under which the net is passed. -/
def selfProduct : List (Node ℚ) :=
  [⟨0, { bareLabel with name := some CompiledNet.netKeyword }, .input⟩,
    ⟨1, { bareLabel with name := some "x" }, .input⟩,
    ⟨2, bareLabel, .layer ⟨Builtin.times.op, [.node ⟨0, .input, ""⟩, .node ⟨1, .input, ""⟩], [],
      .same, .same, [], none⟩⟩]

theorem binding_is_all_or_nothing_self_product :
    ∃ c, compileNodes Checks.builtin (fun _ => true) selfProduct none plainOptions = .ok c ∧
      (c.store.size : Int) = c.net.numVars ∧
      ∃ t, c.net.setInputs [.text CompiledNet.netKeyword, .real 1, .text "x", .real 2]
          [("x", .real 3)] c.store = .done t ∧
        Bound selfProduct c.net.names
          ([(CompiledNet.netKeyword, .real 1), ("x", .real 2)] ++ [("x", .real 3)]) c.store t := by
  obtain ⟨c, hc⟩ := exists_of_isOk
    (x := compileNodes Checks.builtin (fun _ => true) selfProduct none plainOptions) rfl
  have hsize : (c.store.size : Int) = c.net.numVars := by
    cases hc
    rfl
  have hnames : c.net.names = [CompiledNet.netKeyword, "x", "times1"] := by
    cases hc
    rfl
  obtain ⟨-, hbinding⟩ := (binding_is_all_or_nothing
    (fun check hcheck => List.mem_append_left _ hcheck) hc hsize
    (alternating [(CompiledNet.netKeyword, .real 1), ("x", .real 2)]) [("x", .real 3)]).2
    (by decide)
  refine ⟨c, hc, hsize, (hbinding _ rfl).2 fun p hp => ?_⟩
  rw [hnames]
  have hp : p = (CompiledNet.netKeyword, .real 1) ∨ p = ("x", .real 2) ∨ p = ("x", .real 3) := by
    simpa using hp
  rcases hp with rfl | rfl | rfl
  · exact ⟨0, _, rfl, rfl, rfl⟩
  · exact ⟨1, _, rfl, rfl, rfl⟩
  · exact ⟨1, _, rfl, rfl, rfl⟩

/-- **The keyword that is the net's own binds nothing**: an input of that name is bound by a
pair, but not by the keyword. -/
theorem net_keyword_binds_nothing :
    ∃ c, compileNodes Checks.builtin (fun _ => true) selfProduct none plainOptions = .ok c ∧
      NamesInput selfProduct c.net.names CompiledNet.netKeyword ∧
      c.net.setInputs [] [(CompiledNet.netKeyword, .real 3)] c.store
        = .stopped c.store (.fault .wrongKind) ∧
      c.store.content 0 = .none ∧
      (c.net.setInputs [.text CompiledNet.netKeyword, .real 3] [] c.store).error = none ∧
      (c.net.setInputs [.text CompiledNet.netKeyword, .real 3] [] c.store).state.content 0
        = .real 3 := by
  obtain ⟨c, hc⟩ := exists_of_isOk
    (x := compileNodes Checks.builtin (fun _ => true) selfProduct none plainOptions) rfl
  refine ⟨c, hc, ?_⟩
  cases hc
  exact ⟨⟨0, _, rfl, rfl, rfl⟩, rfl, rfl, rfl, rfl⟩

end SlotGrad
