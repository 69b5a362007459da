import SlotGrad.Outcome
import SlotGrad.Value.Arithmetic
import SlotGrad.Value.Sequence

/-!
# The slot store

A compiled net runs against a flat store of slots.  Each node owns two adjacent ones: its value at
an even place and, right after it, the derivative of the objective with respect to that value.  A
slot that was never written holds the absent value.

Slots are addressed by integers; a negative one counts from the end.

## Main definitions

* `valueSlot`, `derSlot` — the slots of the node at a place, and the derivative of a value slot.
* `Store`, `Store.create?`, `Store.get`, `Store.set` — stores and access to one slot.
* `Store.setMany` — writing several slots, one after another.
* `Store.accumulate`, `Store.resetDers`, `Store.isZero` — derivative bookkeeping.

## Main results

* `valueSlot_inj`, `valueSlot_mod_two`, `valueSlot_succ_mod_two` — the layout of the slots.
* `exists_valueSlot`, `exists_valueSlot_succ` — every slot is one of a node.
* `Store.get_set_self`, `Store.get_set_of_ne` — a write changes its own slot and no other.
-/

namespace SlotGrad

/-- The value slot of the node at a place of the compiled order. -/
def valueSlot (place : Nat) : Nat := 2 * place

/-- The derivative slot paired with a value slot. -/
def derSlot (var : Int) : Int := var + 1

/-! ### The layout of the slots -/

section

variable {j k n : Nat}

@[simp] theorem valueSlot_inj : valueSlot j = valueSlot k ↔ j = k := by
  unfold valueSlot
  omega

theorem natCast_valueSlot_inj : ((valueSlot j : Nat) : Int) = ((valueSlot k : Nat) : Int) ↔ j = k :=
  Int.ofNat_inj.trans valueSlot_inj

theorem valueSlot_lt_valueSlot : valueSlot j < valueSlot k ↔ j < k := by
  unfold valueSlot
  omega

/-- Value slots have even places. -/
theorem valueSlot_mod_two (k : Nat) : valueSlot k % 2 = 0 := by
  unfold valueSlot
  omega

/-- Derivative slots have odd places. -/
theorem valueSlot_succ_mod_two (k : Nat) : (valueSlot k + 1) % 2 = 1 := by
  unfold valueSlot
  omega

@[simp] theorem valueSlot_div_two (k : Nat) : valueSlot k / 2 = k := by
  unfold valueSlot
  omega

@[simp] theorem valueSlot_succ_div_two (k : Nat) : (valueSlot k + 1) / 2 = k := by
  unfold valueSlot
  omega

/-- No slot is both a value and a derivative. -/
theorem valueSlot_ne_succ (j k : Nat) : valueSlot j ≠ valueSlot k + 1 := by
  unfold valueSlot
  omega

theorem natCast_valueSlot_ne_succ (j k : Nat) :
    ((valueSlot j : Nat) : Int) ≠ ((valueSlot k + 1 : Nat) : Int) := fun h =>
  valueSlot_ne_succ j k (Int.ofNat_inj.mp h)

/-- A slot at an even place is no derivative. -/
theorem ne_valueSlot_succ (h : k % 2 = 0) (j : Nat) : k ≠ valueSlot j + 1 := by
  unfold valueSlot
  omega

/-- A slot at an odd place is no value. -/
theorem ne_valueSlot (h : k % 2 = 1) (j : Nat) : k ≠ valueSlot j := by
  unfold valueSlot
  omega

/-- Both slots of a node are there if the node is. -/
theorem valueSlot_succ_lt : valueSlot k + 1 < 2 * n ↔ k < n := by
  unfold valueSlot
  omega

/-- The last slot is the derivative of the last node. -/
theorem valueSlot_succ_eq_last : valueSlot k + 1 = 2 * n - 1 ↔ k + 1 = n := by
  unfold valueSlot
  omega

theorem valueSlot_lt : valueSlot k < 2 * n ↔ k < n := by
  unfold valueSlot
  omega

theorem le_valueSlot : 2 * n ≤ valueSlot k ↔ n ≤ k := by
  unfold valueSlot
  omega

theorem exists_valueSlot (h : k % 2 = 0) : ∃ j, k = valueSlot j :=
  ⟨k / 2, by unfold valueSlot; omega⟩

theorem exists_valueSlot_succ (h : k % 2 = 1) : ∃ j, k = valueSlot j + 1 :=
  ⟨k / 2, by unfold valueSlot; omega⟩

end

/-- The place that an index names among `size` places; a negative index counts from the end. -/
def locate? (size : Nat) (n : Int) : Option Nat :=
  if 0 ≤ n ∧ n < size then some n.toNat
  else if -(size : Int) ≤ n ∧ n < 0 then some (n + size).toNat
  else none

theorem locate?_lt {size : Nat} {n : Int} {k : Nat} (h : locate? size n = some k) : k < size := by
  unfold locate? at h
  split at h
  · simp only [Option.some.injEq] at h; omega
  · split at h
    · simp only [Option.some.injEq] at h; omega
    · simp at h

@[simp] theorem locate?_natCast {size k : Nat} (h : k < size) :
    locate? size (k : Int) = some k := by
  have : (k : Int) < size := by omega
  simp [locate?, this]

/-- The slots of a net: for each node its value and the derivative with respect to it. -/
structure Store (F : Type) where
  /-- The slots. -/
  slots : Array (Value F)
  /-- Slots come in pairs. -/
  even : slots.size % 2 = 0

namespace Store

variable {F : Type}

/-- The number of slots. -/
def size (s : Store F) : Nat := s.slots.size

/-- The store with the given number of unset slots, which is even. -/
def unset (pairs : Nat) : Store F := ⟨Array.replicate (2 * pairs) .none, by simp⟩

@[simp] theorem size_unset (pairs : Nat) : (unset pairs : Store F).size = 2 * pairs := by
  simp [size, unset]

/-- A store of the given size, which must be even; a negative size counts as zero. -/
def create? (size : Int) : Attempt (Store F) :=
  if size % 2 = 0 then .ok (unset (size.toNat / 2)) else .error (.oddStoreSize (toString size))

/-- The content of a slot. -/
def get (s : Store F) (slot : Int) : Fallible (Value F) :=
  match locate? s.size slot with
  | some k => .ok ((s.slots[k]?).getD .none)
  | none => .error .outOfRange

/-- The store with another content in the slot at a place. -/
def setAt (s : Store F) (k : Nat) (v : Value F) : Store F :=
  ⟨s.slots.setIfInBounds k v, by simpa using s.even⟩

/-- The store with another content in a slot. -/
def set (s : Store F) (slot : Int) (v : Value F) : Fallible (Store F) :=
  match locate? s.size slot with
  | some k => .ok (s.setAt k v)
  | none => .error .outOfRange

@[simp] theorem size_setAt (s : Store F) (k : Nat) (v : Value F) : (s.setAt k v).size = s.size := by
  simp [size, setAt]

theorem size_set {s t : Store F} {slot : Int} {v : Value F} (h : s.set slot v = .ok t) :
    t.size = s.size := by
  unfold set at h
  split at h
  · cases h; simp
  · cases h

/-- A slot that was written holds what was written. -/
theorem get_set_self {s t : Store F} {slot : Int} {v : Value F} (h : s.set slot v = .ok t) :
    t.get slot = .ok v := by
  unfold set at h
  split at h
  · rename_i k hk
    cases h
    have hlt := locate?_lt hk
    have hsize : (s.setAt k v).size = s.size := size_setAt s k v
    unfold get
    rw [hsize, hk]
    simp only [size] at hlt
    simp [setAt, hlt]
  · cases h

/-- A write leaves every slot at another place alone. -/
theorem get_set_of_ne {s t : Store F} {slot other : Int} {v : Value F}
    (h : s.set slot v = .ok t) (hne : locate? s.size other ≠ locate? s.size slot) :
    t.get other = s.get other := by
  unfold set at h
  split at h
  · rename_i k hk
    cases h
    unfold get
    rw [size_setAt]
    split
    · rename_i j hj
      have hkj : k ≠ j := fun e => hne (by rw [hj, hk, e])
      simp [setAt, hkj]
    · rfl
  · cases h

/-- The derivative paired with a value slot. -/
def der (s : Store F) (var : Int) : Fallible (Value F) := s.get (derSlot var)

/-- The contents of several slots. -/
def getMany (s : Store F) (slots : List Int) : Fallible (List (Value F)) := slots.mapM s.get

/-- Write one slot. -/
def write (slot : Int) (v : Value F) (s : Store F) : Outcome (Store F) :=
  .attempt s (s.set slot v).lift

/-- Write several slots, one after another. -/
def writeAll (pairs : List (Int × Value F)) (s : Store F) : Outcome (Store F) :=
  runAll (fun p => write p.1 p.2) pairs s

/-- How a store appears in messages: its size and the number of slots that are set. -/
def shown (s : Store F) : String :=
  "VariableStore(" ++ toString s.size ++ " slots, "
    ++ toString (s.slots.toList.filter fun v => !v.isNone).length ++ " set)"

/-- The store with a function applied to every content. -/
def map (f : Value F → Value F) (s : Store F) : Store F := ⟨s.slots.map f, by simpa using s.even⟩

/-! ### Derivative bookkeeping -/

variable [Arith F]

/-- Write several slots from the members of a value, of which there must be one for each. -/
def setMany (s : Store F) (slots : List Int) (values : Value F) : Outcome (Store F) :=
  match values.items with
  | .error f => .stopped s (.fault f)
  | .ok vs =>
    if slots.length ≠ vs.length then .stopped s (.valueCount vs.length slots.length)
    else s.writeAll (slots.zip vs)

/-- The real number zero, as which an unset slot counts and which resets leave behind. -/
def zero : Value F := .real (Arith.ofInt 0)

/-- Add a value to the content of a slot; an unset slot counts as zero. -/
def accumulate (s : Store F) (slot : Int) (v : Value F) : Fallible (Store F) := do
  let current ← s.get slot
  let start := if current.isNone then zero else current
  s.set slot (← start.add v)

/-- Whether a value is a plain number that equals zero. -/
def isZeroValue (v : Value F) : Bool :=
  match v with
  | .flag b => !b
  | .integer n => n == 0
  | .real x => Arith.same x (Arith.ofInt 0)
  | .scalar .float64 x => Arith.same x (Arith.ofInt 0)
  | _ => false

/-- Whether a slot holds a plain number that equals zero. -/
def isZero (s : Store F) (slot : Int) : Fallible Bool := do return isZeroValue (← s.get slot)

/-- The content after a reset of the slot at a place: derivative slots become zero, except those
kept. -/
def resetSlot (keep : List Int) (v : Value F) (k : Nat) : Value F :=
  if k % 2 = 1 ∧ (k : Int) ∉ keep then zero else v

/-- Set every derivative slot to zero, except those kept. -/
def resetDers (s : Store F) (keep : List Int) : Store F :=
  ⟨s.slots.mapIdx fun k v => resetSlot keep v k, by simpa using s.even⟩

@[simp] theorem size_resetDers (s : Store F) (keep : List Int) :
    (s.resetDers keep).size = s.size := by
  simp [size, resetDers]

end Store
end SlotGrad
