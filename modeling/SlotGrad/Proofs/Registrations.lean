import SlotGrad.Proofs.Exact
import SlotGrad.Workspace.Actions

/-!
# Registering ops

A call that registers an op is refused if its name belongs to another forward function, and changes
nothing then.  Any other call puts its op under its name.  So a name never changes its forward
function, and always finds the op that was last registered under it.

A forward function is looked for among the ops in the order in which their names were first used.
So it is found under the first name that it ever had, and this stays so: when it is registered under
one more name, a lookup by function answers with the op of the first name and not with the new one.

## Main definitions

* `Registration`, `Registration.op` — a call that registers an op, and the op that it makes.
* `Workspace.registering`, `Workspace.registered` — a workspace after one call, and after several.
* `Registry.Extends` — what later registrations keep.

## Main results

* `Registry.findForward?_put` — the op that a function finds after a put.
* `Workspace.registering_cases` — a call is refused or puts its op.
* `Workspace.extends_registered` — what a sequence of calls keeps.
* `registrations_consistent` — **names, functions and lookups after any sequence of calls.**
* `second_name_is_not_found` — a function with two names is not found under the second.
-/

namespace SlotGrad

/-! ### Lookups by forward function -/

namespace Registry

/-- What a name finds has the name. -/
theorem name_of_find? {r : Registry} {name : String} {o : Op} (h : r.find? name = some o) :
    o.name = name := by
  simpa using List.find?_some h

/-- A registered op is found under its name, since no other op has it. -/
theorem find?_of_mem {r : Registry} {o : Op} (h : o ∈ r.ops) : r.find? o.name = some o := by
  unfold find?
  rw [List.find?_eq_some_iff_append]
  obtain ⟨before, after, hsplit⟩ := List.append_of_mem h
  refine ⟨by simp, before, after, hsplit, ?_⟩
  have hnodup := r.nodup
  rw [hsplit, List.map_append, List.nodup_append] at hnodup
  intro o' ho'
  have hne := hnodup.2.2 o'.name (List.mem_map_of_mem ho') o.name (by simp)
  simpa using hne

/-- What a function finds is found under its name too. -/
theorem find?_of_findForward? {r : Registry} {f : Fn} {o : Op} (h : r.findForward? f = some o) :
    r.find? o.name = some o :=
  find?_of_mem (List.mem_of_find?_eq_some h)

/-- After an op has taken the place of its name, a function finds what it found before, or the new
op in its place; a function that found nothing finds the new op if it is the op's. -/
theorem find?_forward_replace {op : Op} {os : List Op} (hnodup : (os.map Op.name).Nodup)
    (hsame : ∀ o ∈ os, o.name = op.name → o.forward = op.forward) (f : Fn) :
    (replace op os).find? (fun o => o.forward == f) =
      match os.find? fun o => o.forward == f with
      | some o => some (if o.name = op.name then op else o)
      | none => if op.forward = f then some op else none := by
  induction os with
  | nil => by_cases hf : op.forward = f <;> simp [replace, hf]
  | cons o os ih =>
    rw [List.map_cons, List.nodup_cons] at hnodup
    by_cases hname : o.name = op.name
    · have hforward := hsame o (by simp) hname
      by_cases hf : op.forward = f
      · simp [replace, hname, hforward, hf]
      · cases hrest : os.find? fun o => o.forward == f with
        | none => simp [replace, hname, hforward, hf, hrest]
        | some o' =>
          -- The other ops have other names.
          have hne : o'.name ≠ op.name := by
            intro h
            refine hnodup.1 ?_
            rw [hname, ← h]
            exact List.mem_map_of_mem (List.mem_of_find?_eq_some hrest)
          simp [replace, hname, hforward, hf, hrest, hne]
    · have hrest := ih hnodup.2 fun o' ho' => hsame o' (List.mem_cons_of_mem _ ho')
      by_cases hf : o.forward = f
      · simp [replace, hname, hf]
      · simp only [replace, hname, if_false, List.find?_cons, beq_eq_false_iff_ne.mpr hf, hrest]

/-- The op that a function finds after a put under a name that is free or the function's own. -/
theorem findForward?_put {r : Registry} {op : Op}
    (hown : ∀ o, r.find? op.name = some o → o.forward = op.forward) (f : Fn) :
    (r.put op).findForward? f =
      match r.findForward? f with
      | some o => some (if o.name = op.name then op else o)
      | none => if op.forward = f then some op else none := by
  refine find?_forward_replace r.nodup (fun o ho hname => hown o ?_) f
  rw [← hname]
  exact find?_of_mem ho

/-! ### What later registrations keep -/

/-- What later registrations keep: a name its forward function, and a function the name under which
it is found. -/
structure Extends (r r' : Registry) : Prop where
  /-- A name that is in use stays in use, for the same function. -/
  forward : ∀ {name o}, r.find? name = some o → ∃ o', r'.find? name = some o' ∧
    o'.forward = o.forward
  /-- A function that is found is found under the same name. -/
  first_name : ∀ {f o}, r.findForward? f = some o → r'.findForward? f = r'.find? o.name

theorem Extends.refl (r : Registry) : r.Extends r where
  forward h := ⟨_, h, rfl⟩
  first_name h := h.trans (find?_of_findForward? h).symm

theorem Extends.trans {r₁ r₂ r₃ : Registry} (h : r₁.Extends r₂) (h' : r₂.Extends r₃) :
    r₁.Extends r₃ where
  forward hfound := by
    obtain ⟨o₂, h₂, hforward₂⟩ := h.forward hfound
    obtain ⟨o₃, h₃, hforward₃⟩ := h'.forward h₂
    exact ⟨o₃, h₃, hforward₃.trans hforward₂⟩
  first_name hfound := by
    -- In the middle the name has another op, but for the same function.
    obtain ⟨o₂, h₂, -⟩ := h.forward (find?_of_findForward? hfound)
    rw [h'.first_name ((h.first_name hfound).trans h₂), name_of_find? h₂]

/-- A put under a name that is free or the function's own keeps names and functions. -/
theorem extends_put {r : Registry} {op : Op}
    (hown : ∀ o, r.find? op.name = some o → o.forward = op.forward) : r.Extends (r.put op) where
  forward := by
    intro name o h
    rw [find?_put]
    by_cases hname : op.name = name
    · exact ⟨op, if_pos hname, (hown o (hname ▸ h)).symm⟩
    · exact ⟨o, by rw [if_neg hname, h], rfl⟩
  first_name := by
    intro f o h
    rw [findForward?_put hown, h, find?_put]
    by_cases hname : o.name = op.name
    · simp [hname]
    · simp [hname, Ne.symm hname, find?_of_findForward? h]

end Registry

/-! ### Calls -/

/-- A call that registers an op. -/
structure Registration where
  /-- The forward function. -/
  forward : Fn
  /-- The adjoint, if there is one. -/
  adjoint : Option Fn
  /-- The name, if one is given. -/
  name : Option String
  /-- Whether the backward pass adds at an index. -/
  scatter : Bool

namespace Registration

/-- The name that a call registers under: the one that is given, if it is not empty, or else the one
that the function suggests. -/
def opName (q : Registration) : String :=
  match q.name with
  | some n => if n.isEmpty then q.forward.opName else n
  | none => q.forward.opName

/-- The op that a call makes. -/
def op (q : Registration) (r : Registry) : Op :=
  ⟨q.opName, q.forward, q.adjoint, q.scatter, r.next⟩

end Registration

section

variable {F : Type}

/-- The answer of a call that registers an op, and the workspace after it. -/
def Workspace.registering (w : Workspace F) (q : Registration) : Attempt Op × Workspace F :=
  (Work.registerOp q.forward q.adjoint q.name q.scatter).run w

/-- A workspace after several such calls, some of which may have been refused. -/
def Workspace.registered (w : Workspace F) (qs : List Registration) : Workspace F :=
  qs.foldl (fun w q => (w.registering q).2) w

/-- A call changes the registry only, and only if it is not refused. -/
theorem Workspace.registering_eq (w : Workspace F) (q : Registration) :
    w.registering q = match w.registry.register q.forward q.adjoint q.name q.scatter with
      | .ok (op, r) => (.ok op, { w with registry := r })
      | .error e => (.error e, w) := by
  have hcall : w.registering q = ExceptT.bindCont
      (fun p : Op × Registry => (do
        set { w with registry := p.2 }
        return p.1 : Work F Op))
      (w.registry.register q.forward q.adjoint q.name q.scatter) w := rfl
  rw [hcall]
  cases w.registry.register q.forward q.adjoint q.name q.scatter <;> rfl

/-- A call is refused, as its name belongs to another function, or puts the op that it makes under a
name that is free or the function's own. -/
theorem Workspace.registering_cases (w : Workspace F) (q : Registration) :
    (∃ o, w.registry.find? q.opName = some o ∧ o.forward ≠ q.forward ∧
      w.registering q = (.error (.opNameTaken q.opName o.forward.shown), w)) ∨
    ((∀ o, w.registry.find? q.opName = some o → o.forward = q.forward) ∧
      w.registering q =
        (.ok (q.op w.registry), { w with registry := w.registry.put (q.op w.registry) })) := by
  have hregister : w.registry.register q.forward q.adjoint q.name q.scatter =
      match w.registry.find? q.opName with
      | some o =>
        if o.forward = q.forward then .ok (q.op w.registry, w.registry.put (q.op w.registry))
        else .error (.opNameTaken q.opName o.forward.shown)
      | none => .ok (q.op w.registry, w.registry.put (q.op w.registry)) := rfl
  rw [registering_eq, hregister]
  cases hfound : w.registry.find? q.opName with
  | none => exact .inr ⟨nofun, rfl⟩
  | some o =>
    by_cases hforward : o.forward = q.forward
    · refine .inr ⟨?_, by simp [hforward]⟩
      rintro _ ⟨⟩
      exact hforward
    · exact .inl ⟨o, rfl, hforward, by simp [hforward]⟩

@[simp] theorem Workspace.registered_cons (w : Workspace F) (q : Registration)
    (qs : List Registration) : w.registered (q :: qs) = (w.registering q).2.registered qs := rfl

theorem Workspace.registered_append (w : Workspace F) (qs later : List Registration) :
    w.registered (qs ++ later) = (w.registered qs).registered later :=
  List.foldl_append

/-- One call keeps names and functions. -/
theorem Workspace.extends_registering (w : Workspace F) (q : Registration) :
    w.registry.Extends (w.registering q).2.registry := by
  rcases w.registering_cases q with ⟨o, -, -, hcall⟩ | ⟨hown, hcall⟩
  · rw [hcall]
    exact .refl _
  · rw [hcall]
    exact Registry.extends_put hown

/-- Any sequence of calls keeps names and functions. -/
theorem Workspace.extends_registered (w : Workspace F) (qs : List Registration) :
    w.registry.Extends (w.registered qs).registry := by
  induction qs generalizing w with
  | nil => exact .refl _
  | cons q qs ih => exact (w.extends_registering q).trans (ih _)

/-- A name finds the same op until a call registers under it. -/
theorem Workspace.find?_registered (w : Workspace F) {qs : List Registration} {name : String}
    (hother : ∀ q ∈ qs, q.opName ≠ name) :
    (w.registered qs).registry.find? name = w.registry.find? name := by
  induction qs generalizing w with
  | nil => rfl
  | cons q qs ih =>
    rw [registered_cons, ih _ fun p hp => hother p (List.mem_cons_of_mem _ hp)]
    rcases w.registering_cases q with ⟨o, -, -, hcall⟩ | ⟨-, hcall⟩
    · rw [hcall]
    · rw [hcall, Registry.find?_put]
      exact if_neg (hother q (List.mem_cons_self ..))

/-- **Names, functions and lookups after any sequence of calls.**  Every op stands under its own
name, no two under one.  Later calls keep the forward function of a name, and the name under which a
function is found.  A call is refused exactly if its name belongs to another function, and then it
changes nothing.  The op that any other call answers is found under its name until the name is
registered again, and is answered for itself.  Its function answers with it if no other name had the
function first; otherwise with the op of the first name, now as before. -/
theorem registrations_consistent (w : Workspace F) (qs : List Registration) :
    ((w.registered qs).registry.ops.map Op.name).Nodup ∧
    (∀ name o, (w.registered qs).registry.find? name = some o → o.name = name) ∧
    (∀ later, (w.registered qs).registry.Extends (w.registered (qs ++ later)).registry) ∧
    ∀ q : Registration,
      ((∃ e, ((w.registered qs).registering q).1 = .error e) ↔
        ∃ o, (w.registered qs).registry.find? q.opName = some o ∧ o.forward ≠ q.forward) ∧
      (∀ e, ((w.registered qs).registering q).1 = .error e →
        w.registered (qs ++ [q]) = w.registered qs) ∧
      ∀ d, ((w.registered qs).registering q).1 = .ok d →
        d = q.op (w.registered qs).registry ∧
        (∀ later, (∀ p ∈ later, p.opName ≠ d.name) →
          (w.registered (qs ++ q :: later)).registry.resolve (F := F) (.text d.name) = .ok d) ∧
        (w.registered (qs ++ [q])).registry.resolve (F := F) (.op d) = .ok d ∧
        (w.registered (qs ++ [q])).registry.resolve (F := F) (.function q.forward) =
          .ok (match (w.registered qs).registry.findForward? q.forward with
            | some o => if o.name = d.name then d else o
            | none => d) := by
  refine ⟨(w.registered qs).registry.nodup, fun name o => Registry.name_of_find?, ?_, ?_⟩
  · intro later
    rw [Workspace.registered_append]
    exact (w.registered qs).extends_registered later
  · intro q
    simp only [Workspace.registered_append, Workspace.registered_cons]
    -- How the workspace came about does not matter for one call.
    generalize w.registered qs = v
    rcases v.registering_cases q with ⟨o, hfound, hforward, hcall⟩ | ⟨hown, hcall⟩
    · rw [hcall]
      exact ⟨⟨fun _ => ⟨o, hfound, hforward⟩, fun _ => ⟨_, rfl⟩⟩, fun _ _ => rfl, nofun⟩
    · rw [hcall]
      refine ⟨⟨nofun, ?_⟩, nofun, ?_⟩
      · rintro ⟨o, hfound, hforward⟩
        exact absurd (hown o hfound) hforward
      · rintro _ ⟨⟩
        refine ⟨rfl, ?_, rfl, ?_⟩
        · intro later hother
          simp [Registry.resolve, Workspace.find?_registered _ hother]
        · have hlookup : (v.registry.put (q.op v.registry)).findForward? q.forward = _ :=
            Registry.findForward?_put hown q.forward
          simp only [Registry.resolve, Workspace.registered, List.foldl_nil, hlookup]
          cases v.registry.findForward? q.forward with
          | none => simp [Registration.op]
          | some o => rfl

end

/-- The call that registers rectification under a second name, without an adjoint. -/
def ramp : Registration := ⟨Builtin.relu.forward, none, some "ramp", false⟩

/-- A built-in function that is registered again under another name: the name and the new op find
the new op, but the function still finds the built-in one. -/
theorem second_name_is_not_found :
    ∃ d, ((Workspace.initial (F := ℚ)).registering ramp).1 = .ok d ∧
      ((Workspace.initial (F := ℚ)).registered [ramp]).registry.resolve (F := ℚ) (.text d.name)
        = .ok d ∧
      ((Workspace.initial (F := ℚ)).registered [ramp]).registry.resolve (F := ℚ) (.op d) = .ok d ∧
      ((Workspace.initial (F := ℚ)).registered [ramp]).registry.resolve (F := ℚ)
        (.function ramp.forward) = .ok Builtin.relu.op ∧
      d ≠ Builtin.relu.op :=
  ⟨_, rfl, rfl, rfl, rfl, by decide⟩

end SlotGrad
