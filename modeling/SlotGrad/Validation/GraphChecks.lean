import SlotGrad.Validation.Check

/-!
# Checks of ordered nodes

What a builder of graphs must keep: inputs are found by name, so their names differ; and shared
metadata comes from at most one place.

## Main definitions

* `uniqueInputNames` — inputs with one name.
* `singleMetaSource` — several sources of metadata.
-/

namespace SlotGrad
namespace GraphChecks

variable {F : Type}

/-- The name of the check on input names. -/
def inputNamesCheck : String := "unique_input_names"

/-- The name of the check on metadata. -/
def metaCheck : String := "single_meta_source"

/-- Names that several inputs compile under, explicit or made. -/
def uniqueInputNames (l : Listing F) : List Finding :=
  let inputs := l.named.filter fun p => p.1.kind = .input
  let counts := (Tally.ofList (inputs.map Prod.snd)).filter fun p => 1 < p.2
  counts.map fun (name, n) =>
    ⟨inputNamesCheck, .error, toString n ++ " inputs share the name '" ++ name ++ "'"⟩

/-- A node that carries metadata, in a message. -/
def ownerText (n : Node F) (name : String) : String :=
  if n.label.source.isEmpty then name else name ++ " (" ++ n.label.source ++ ")"

/-- The places that metadata comes from: what is given beside the nodes, and nodes. -/
def metaOwners (l : Listing F) : List String :=
  (if l.meta.isNone then [] else ["compile option meta="])
    ++ (l.named.filter fun p => !p.1.label.meta.isNone).map fun p => ownerText p.1 p.2

/-- Several sources of metadata. -/
def singleMetaSource (l : Listing F) : List Finding :=
  let owners := metaOwners l
  if 1 < owners.length then
    [⟨metaCheck, .error, "More than one source of meta: " ++ ", ".intercalate owners⟩]
  else []

/-- The checks of ordered nodes. -/
def all : Checks F :=
  [⟨inputNamesCheck, .ordered fun l => .ok (uniqueInputNames l)⟩,
   ⟨metaCheck, .ordered fun l => .ok (singleMetaSource l)⟩]

end GraphChecks
end SlotGrad
