import SlotGrad.Saved.Directory
import SlotGrad.Saved.Document
import SlotGrad.Saved.Json.Parser
import SlotGrad.Saved.Json.Printer

/-!
# Saved nets

A net is saved in two files of one stem: the document as JSON text and, if there are arrays, their
bytes.

## Main definitions

* `save` — write a net's files; what was written before a failure stays.
* `load` — the net and the store of saved files.
-/

namespace SlotGrad
namespace Saved

variable {F : Type} [Arith F] [Interchange F]

/-- The suffix of documents. -/
def documentSuffix : String := ".json"

/-- The suffix of weights. -/
def weightsSuffix : String := ".weights"

/-- The bytes of a text. -/
def textBytes (s : String) : Bytes := s.toUTF8.toList

/-- The text of some bytes, if they are one. -/
def bytesText? (bs : Bytes) : Option String := String.fromUTF8? ⟨bs.toArray⟩

/-- Write a file. -/
def writeFile (p : FilePath) (content : Bytes) (d : Directory) : Outcome Directory :=
  .attempt d (d.write p content).lift

/-- Write the text of a document as far as it can be written. -/
def writeDocument (p : FilePath) (j : Json F) (d : Directory) : Outcome Directory :=
  let written := j.write
  (writeFile (p.withSuffix documentSuffix) (textBytes written.state) d).andThen fun d =>
    ⟨d, written.error⟩

/-- Write the bytes of arrays, if there are any. -/
def writeWeights (p : FilePath) (w : Weights) (d : Directory) : Outcome Directory :=
  if w.arrays = 0 then .done d else writeFile (p.withSuffix weightsSuffix) w.bytes d

/-- Save a net and its parameter values. -/
def save (c : CompiledNet F) (s : Store F) (p : FilePath) (d : Directory) : Outcome Directory :=
  match NetDocument.ofNet c s with
  | .error e => .stopped d e
  | .ok (j, w) => (writeDocument p j d).andThen (writeWeights p w)

/-- The document in a file. -/
def readDocument (p : FilePath) (d : Directory) : Fallible (Json F) := do
  let bytes ← d.read (p.withSuffix documentSuffix)
  let text ← Fallible.ofOption .badValue (bytesText? bytes)
  Fallible.ofOption .badValue (Json.read? text)

/-- The net and the store of saved files.  The store holds parameter values only. -/
def load (r : Registry) (p : FilePath) (d : Directory) : Attempt (CompiledNet F × Store F) := do
  let j ← readDocument p d
  NetDocument.read r (← d.read? (p.withSuffix weightsSuffix)) j

end Saved
end SlotGrad
